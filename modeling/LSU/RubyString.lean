import Mathlib.Data.List.DropRight
import LSU.Commands
import LSU.Numerals

/-! What the scripts use of Ruby's String. -/
namespace LSU.RubyString
open LSU.Commands LSU.Numerals LSU.Text

/-- The texts between line feeds, on which `^` and `$` match. -/
def lines (s : Str) : List Str := s.splitOn '\n'

/-- Empty parts at the end are dropped. -/
def split (s : Str) (c : Char) : List Str := (s.splitOn c).rdropWhile (· = [])

theorem mem_split {s part : Str} {c : Char} (h : part ∈ s.splitOn c) (hne : part ≠ []) :
    part ∈ split s c := by
  rw [← List.rdropWhile_append_rtakeWhile (p := (· = [])) (l := s.splitOn c)] at h
  refine (List.mem_append.mp h).resolve_right fun hlast => ?_
  simpa [hne] using List.mem_rtakeWhile_imp hlast

/-- `\s` of a regular expression, and what to_i skips. -/
def isSpace (c : Char) : Bool := c ∈ [' ', '\t', '\n', '\x0b', '\x0c', '\r']

/-- The digits behind a number already read, with at most one underscore between two. -/
def digitsBehind (n : Nat) : Str → Nat
  | [] => n
  | '_' :: c :: cs => if c.isDigit then digitsBehind (10 * n + (c.toNat - '0'.toNat)) cs else n
  | c :: cs => if c.isDigit then digitsBehind (10 * n + (c.toNat - '0'.toNat)) cs else n

/-- `0d` is the prefix of base 10. -/
def behindPrefix : Str → Str
  | '0' :: 'd' :: rest => rest
  | '0' :: 'D' :: rest => rest
  | s => s

def unsigned (s : Str) : Nat :=
  match behindPrefix s with
  | '_' :: _ => 0
  | digits => digitsBehind 0 digits

/-- Whatever cannot be read is 0. -/
def toI (s : Str) : Int :=
  match s.dropWhile isSpace with
  | '-' :: rest => -(unsigned rest : Int)
  | '+' :: rest => unsigned rest
  | rest => unsigned rest

theorem digitsBehind_digits {s : Str} (h : ∀ c ∈ s, c.isDigit = true) (n : Nat) :
    digitsBehind n s = Nat.ofDigitChars 10 s n := by
  induction s generalizing n with
  | nil => rfl
  | cons c cs ih =>
    have hc := h c List.mem_cons_self
    have hne : c ≠ '_' := by
      rintro rfl
      contradiction
    rw [digitsBehind, if_pos hc, ih fun d hd => h d (List.mem_cons_of_mem c hd),
      Nat.ofDigitChars_cons]
    simp [hne]

theorem behindPrefix_digits {s : Str} (h : ∀ c ∈ s, c.isDigit = true) : behindPrefix s = s := by
  have hsecond : ∀ d rest, s = '0' :: d :: rest → d.isDigit = true := by
    rintro d rest rfl
    apply h d
    simp
  unfold behindPrefix
  split
  · have hd := hsecond 'd' _ rfl
    contradiction
  · have hd := hsecond 'D' _ rfl
    contradiction
  · rfl

theorem unsigned_digits {s : Str} (h : ∀ c ∈ s, c.isDigit = true) : unsigned s = value s := by
  rw [unsigned, behindPrefix_digits h]
  split
  · have hdigit := h '_' List.mem_cons_self
    contradiction
  · apply digitsBehind_digits h

theorem isSpace_of_isDigit {c : Char} (h : c.isDigit = true) : isSpace c = false := by
  rw [Bool.eq_false_iff]
  intro hmem
  simp only [isSpace, List.mem_cons, List.not_mem_nil, or_false, decide_eq_true_eq] at hmem
  rcases hmem with rfl | rfl | rfl | rfl | rfl | rfl <;> contradiction

theorem toI_numeral {s : Str} (h : Numeral s) : toI s = value s := by
  have hdrop : s.dropWhile isSpace = s := by
    cases s with
    | nil => rfl
    | cons c cs =>
      rw [List.dropWhile_cons, isSpace_of_isDigit (h.2 c List.mem_cons_self)]
      rfl
  rw [toI, hdrop]
  split
  · have hdigit := h.2 '-' List.mem_cons_self
    contradiction
  · have hdigit := h.2 '+' List.mem_cons_self
    contradiction
  · rw [unsigned_digits h.2]

theorem lines_of_not_mem {s : Str} (h : '\n' ∉ s) : lines s = [s] := List.splitOn_eq_singleton h

end LSU.RubyString
