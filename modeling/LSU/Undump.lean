import LSU.RubyString

/-! String#undump of Ruby. A raise is `none`. A `\x` escape stands for a byte, here for the
character of its number. -/
namespace LSU.Undump
open LSU.Commands LSU.RubyString

/-- Which escapes have been met: those of Unicode and those of bytes do not mix. -/
structure Mode where
  utf8 : Bool
  binary : Bool
deriving DecidableEq

def isHex (c : Char) : Bool := c.isDigit || ('a' ≤ c && c ≤ 'f') || ('A' ≤ c && c ≤ 'F')

def hexDigit (c : Char) : Nat :=
  if c.isDigit then c.toNat - '0'.toNat else c.toLower.toNat - 'a'.toNat + 10

def hexValue (digits : Str) : Nat := digits.foldl (fun n c => 16 * n + hexDigit c) 0

/-- Neither a surrogate nor beyond Unicode. -/
def codepoint (digits : Str) : Option Char :=
  if (hexValue digits).isValidChar then some (Char.ofNat (hexValue digits)) else none

/-- Up to the brace that ends `\u{`, where `skip` digits belong to the last codepoint. -/
def codepoints : Nat → Str → Option (Str × Str)
  | _, [] => none
  | skip + 1, _ :: cs => codepoints skip cs
  | 0, c :: cs =>
    if c = '}' then some ([], cs)
    else if isSpace c = true then codepoints 0 cs
    else
      let digits := (c :: cs).takeWhile isHex
      if digits = [] ∨ 6 < digits.length then none
      else do
        let char ← codepoint digits
        let (chars, rest) ← codepoints (digits.length - 1) cs
        return (char :: chars, rest)

/-- An escape behind its backslash: what it stands for, and what is left. -/
def escape (mode : Mode) : Str → Option (Str × Mode × Str)
  | [] => none
  | c :: cs =>
    match c with
    | 'n' => some (['\n'], mode, cs)
    | 'r' => some (['\r'], mode, cs)
    | 't' => some (['\t'], mode, cs)
    | 'f' => some (['\x0c'], mode, cs)
    | 'v' => some (['\x0b'], mode, cs)
    | 'b' => some (['\x08'], mode, cs)
    | 'a' => some (['\x07'], mode, cs)
    | 'e' => some (['\x1b'], mode, cs)
    | 'u' =>
      if mode.binary = true then none
      else
        match cs with
        | '{' :: cs => do
          let (chars, rest) ← codepoints 0 cs
          return (chars, { mode with utf8 := true }, rest)
        | cs =>
          let digits := (cs.take 4).takeWhile isHex
          if digits.length = 4 then do
            let char ← codepoint digits
            return ([char], { mode with utf8 := true }, cs.drop 4)
          else none
    | 'x' =>
      if mode.utf8 = true then none
      else
        let digits := (cs.take 2).takeWhile isHex
        if digits.length = 2 then
          some ([Char.ofNat (hexValue digits)], { mode with binary := true }, cs.drop 2)
        else none
    | c => if c ∈ ['\\', '"', '#'] then some ([c], mode, cs) else some (['\\', c], mode, cs)

def dup : Str := ".dup".toList

def forceEncoding : Str := ".force_encoding(\"".toList

variable (known : Str → Bool)

/-- Behind the closing quote: nothing, or an encoding that Ruby knows. -/
def closes (mode : Mode) (rest : Str) : Bool :=
  if rest = [] then true
  else
    let rest := if dup <+: rest ∧ dup.length < rest.length then rest.drop dup.length else rest
    let named := rest.drop forceEncoding.length
    let name := named.takeWhile (· ≠ '"')
    decide (forceEncoding <+: rest) && !mode.utf8 && known name &&
      decide (named.drop name.length = "\")".toList)

/-- Behind the opening quote, where `skip` characters belong to the last escape. -/
def undumpBody : Nat → Mode → Str → Option Str
  | _, _, [] => none
  | skip + 1, mode, _ :: cs => undumpBody skip mode cs
  | 0, mode, c :: cs =>
    if c = '"' then
      if closes known mode cs = true then some [] else none
    else if c = '\\' then do
      let (chars, mode, rest) ← escape mode cs
      let tail ← undumpBody (cs.length - rest.length) mode cs
      return chars ++ tail
    else do
      let tail ← undumpBody 0 mode cs
      return c :: tail

/-- ASCII, but for NUL. -/
def plainByte (c : Char) : Bool := 0 < c.toNat && c.toNat < 128

/-- What stands behind the opening quote, which is not the whole text. -/
def opened : Str → Option Str
  | '"' :: c :: cs => some (c :: cs)
  | _ => none

def undump (s : Str) : Option Str :=
  if s.all plainByte = true then (opened s).bind (undumpBody known 0 ⟨false, false⟩) else none

variable {known}

theorem undumpBody_plain {text : Str} (h : ∀ c ∈ text, c ≠ '"' ∧ c ≠ '\\') (mode : Mode)
    (rest : Str) :
    undumpBody known 0 mode (text ++ rest) = (undumpBody known 0 mode rest).map (text ++ ·) := by
  induction text with
  | nil => simp
  | cons c text ih =>
    rw [List.forall_mem_cons] at h
    rw [List.cons_append, undumpBody, if_neg h.1.1, if_neg h.1.2, ih h.2]
    cases undumpBody known 0 mode rest with
    | none => rfl
    | some tail => rfl

/-- A text between quotes is read as it stands. -/
theorem undump_quoted {text : Str} (h : ∀ c ∈ text, c ≠ '"' ∧ c ≠ '\\')
    (hplain : ∀ c ∈ text, plainByte c = true) :
    undump known ('"' :: (text ++ ['"'])) = some text := by
  have hall : ('"' :: (text ++ ['"'])).all plainByte = true := by
    simpa [plainByte] using hplain
  have hbody : undumpBody known 0 ⟨false, false⟩ (text ++ ['"']) = some text := by
    rw [undumpBody_plain h]
    simp [undumpBody, closes]
  have hopen : opened ('"' :: (text ++ ['"'])) = some (text ++ ['"']) := by
    cases text with
    | nil => rfl
    | cons c text => rfl
  rw [undump, if_pos hall, hopen, Option.bind_some, hbody]

theorem undump_unclosed {text : Str} (h : ∀ c ∈ text, c ≠ '"' ∧ c ≠ '\\') :
    undump known ('"' :: text) = none := by
  have hbody : undumpBody known 0 ⟨false, false⟩ text = none := by
    have hplain := @undumpBody_plain known text h ⟨false, false⟩ []
    rw [List.append_nil] at hplain
    rw [hplain]
    rfl
  rw [undump]
  split
  · cases text with
    | nil => rfl
    | cons c text => exact hbody
  · rfl

theorem undump_unquoted {s : Str} (h : s.head? ≠ some '"') : undump known s = none := by
  have hopen : opened s = none := by
    unfold opened
    split
    · exact absurd rfl h
    · rfl
  rw [undump, hopen]
  split
  · rfl
  · rfl

theorem undump_special {s : Str} {c : Char} (hc : c ∈ s) (h : plainByte c = false) :
    undump known s = none := by
  rw [undump, if_neg]
  intro hall
  rw [List.all_eq_true.mp hall c hc] at h
  cases h

end LSU.Undump
