import Mathlib.Data.List.Basic

/-! Decimal numerals, and numbers of them between dots. -/
namespace LSU.Numerals

/-- A digit or more. -/
def Numeral (s : List Char) : Prop := s ≠ [] ∧ ∀ c ∈ s, c.isDigit = true

def decimal (n : Nat) : List Char := Nat.toDigits 10 n

def value (s : List Char) : Nat := Nat.ofDigitChars 10 s 0

theorem decimal_numeral (n : Nat) : Numeral (decimal n) := by
  constructor
  · apply Nat.toDigits_ne_nil
  · intro c hc
    apply Nat.isDigit_of_mem_toDigits (by omega) (by omega) hc

@[simp] theorem value_decimal (n : Nat) : value (decimal n) = n := Nat.ofDigitChars_ten_toDigits

theorem Numeral.dot_not_mem {s : List Char} (h : Numeral s) : '.' ∉ s := by
  intro hmem
  have hdigit := h.2 '.' hmem
  contradiction

/-- The numbers of a text, from the left. -/
def numbers (s : List Char) : List Nat := (s.splitOn '.').map value

/-- Numerals with a dot between each two. -/
def dotted (parts : List (List Char)) : List Char := ['.'].intercalate parts

theorem splitOn_dotted {parts : List (List Char)} (hne : parts ≠ [])
    (h : ∀ part ∈ parts, Numeral part) : (dotted parts).splitOn '.' = parts := by
  apply List.splitOn_intercalate
  · intro part hpart
    exact (h part hpart).dot_not_mem
  · exact hne

/-- Zeros against the numbers of a list. -/
def compareZeros : List Nat → Ordering
  | [] => .eq
  | b :: bs => (compare 0 b).then (compareZeros bs)

/-- Comparison number by number, where a missing number counts as 0. -/
def compareNumbers : List Nat → List Nat → Ordering
  | [], m => compareZeros m
  | a :: as, m => (compare a (m.headD 0)).then (compareNumbers as m.tail)

theorem compareNumbers_step (l m : List Nat) :
    compareNumbers l m =
      (compare (l.headD 0) (m.headD 0)).then (compareNumbers l.tail m.tail) := by
  cases l with
  | nil =>
    cases m with
    | nil => rfl
    | cons b bs => rfl
  | cons a as => rfl

end LSU.Numerals
