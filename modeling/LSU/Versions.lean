import Mathlib.Data.List.Basic
import LSU.RubyString

/-! VersionTuple and max_symbol_version of .utils.rb. A raise is an error with its text. -/
namespace LSU.Versions
open LSU.Commands LSU.Numerals LSU.RubyString

structure VersionTuple where
  major : Int
  minor : Int
  patch : Int
deriving DecidableEq

/-- What is left behind `\d+`. -/
def digits : Str → Option Str
  | [] => none
  | c :: cs => if c.isDigit then some (cs.dropWhile Char.isDigit) else none

/-- `\d+(?:\.\d+(?:\.\d+|)|)` up to the end of a line. -/
def looksLikeVersion (line : Str) : Bool :=
  match digits line with
  | some [] => true
  | some ('.' :: minor) =>
    match digits minor with
    | some [] => true
    | some ('.' :: patch) => digits patch = some []
    | _ => false
  | _ => false

/-- The expression matches on any line. What it matches has a digit, so the first part is
never missing. -/
def fromStr (str : Str) : Except Str VersionTuple :=
  if (lines str).any looksLikeVersion = true then
    let parts := (split str '.').map toI
    .ok { major := parts[0]?.getD 0
          minor := parts[1]?.getD 0
          patch := parts[2]?.getD 0 }
  else
    .error (str ++ " doesn't look like a version string".toList)

/-- Interpolation of an integer. -/
def integer (n : Int) : Str :=
  if n < 0 then '-' :: decimal n.natAbs else decimal n.natAbs

def VersionTuple.toS (v : VersionTuple) : Str :=
  integer v.major ++ '.' :: (integer v.minor ++ '.' :: integer v.patch)

/-- `<=>` -/
def VersionTuple.cmp (v other : VersionTuple) : Ordering :=
  let result := compare v.major other.major
  let result := result.then (compare v.minor other.minor)
  result.then (compare v.patch other.patch)

/-- Array#max: the first of several greatest elements stays. -/
def maximum : List VersionTuple → Option VersionTuple
  | [] => none
  | v :: vs => some (vs.foldl (fun best w => if w.cmp best = .gt then w else best) v)

def digitOrDot (c : Char) : Bool := c.isDigit || c == '.'

/-- `@#{prefix}_([\d.]+)(?:\s|$)` at the start of a text: the group, and what is left. -/
def symbolVersion (pre s : Str) : Option (Str × Str) :=
  if ('@' :: pre ++ ['_']) <+: s then
    let rest := s.drop (pre.length + 2)
    match rest.takeWhile digitOrDot, rest.dropWhile digitOrDot with
    | [], _ => none
    | group, [] => some (group, [])
    | group, c :: left => if isSpace c = true then some (group, left) else none
  else
    none

/-- scan: the groups of all matches from the left, where `skip` characters belong to the
last one. -/
def scan (pre : Str) : Nat → Str → List Str
  | _, [] => []
  | skip + 1, _ :: cs => scan pre skip cs
  | 0, c :: cs =>
    match symbolVersion pre (c :: cs) with
    | some (group, left) => group :: scan pre (cs.length - left.length) cs
    | none => scan pre 0 cs

/-- What `readelf -s` prints of a library, where there is one. -/
def maxSymbolVersion (readelf : Str → Option Str) (libraryPath pre : Str) :
    Except Str (Option VersionTuple) :=
  match readelf libraryPath with
  | some listing => do
    let versions ← (scan pre 0 listing).mapM fromStr
    pure (maximum versions)
  | none => .error (libraryPath ++ " doesn't exist".toList)

/-- One to three numerals with single dots between them. -/
def Version (str : Str) : Prop :=
  ∃ parts, 1 ≤ parts.length ∧ parts.length ≤ 3 ∧ (∀ part ∈ parts, Numeral part) ∧
    str = dotted parts

theorem digits_numeral {p : Str} (h : Numeral p) : digits p = some [] := by
  cases p with
  | nil => exact absurd rfl h.1
  | cons c cs =>
    have hdrop : cs.dropWhile Char.isDigit = [] := by
      rw [List.dropWhile_eq_nil_iff]
      exact fun d hd => h.2 d (List.mem_cons_of_mem c hd)
    rw [digits, if_pos (h.2 c List.mem_cons_self), hdrop]

theorem digits_numeral_dot {p : Str} (h : Numeral p) (rest : Str) :
    digits (p ++ '.' :: rest) = some ('.' :: rest) := by
  cases p with
  | nil => exact absurd rfl h.1
  | cons c cs =>
    have hcs : ∀ d ∈ cs, d.isDigit = true := fun d hd => h.2 d (List.mem_cons_of_mem c hd)
    rw [List.cons_append, digits, if_pos (h.2 c List.mem_cons_self),
      List.dropWhile_append_of_pos hcs]
    rfl

theorem numeral_of_digits {s rest : Str} (h : digits s = some rest) :
    ∃ p, Numeral p ∧ s = p ++ rest := by
  cases s with
  | nil => cases h
  | cons c cs =>
    rw [digits] at h
    split at h
    · rename_i hc
      obtain rfl := Option.some.inj h
      refine ⟨c :: cs.takeWhile Char.isDigit, ⟨List.cons_ne_nil _ _, ?_⟩, ?_⟩
      · rw [List.forall_mem_cons]
        exact ⟨hc, fun d hd => List.mem_takeWhile_imp hd⟩
      · rw [List.cons_append, List.takeWhile_append_dropWhile]
    · cases h

theorem looksLikeVersion_dotted {parts : List Str} (hmin : 1 ≤ parts.length)
    (hmax : parts.length ≤ 3) (h : ∀ part ∈ parts, Numeral part) :
    looksLikeVersion (dotted parts) = true := by
  match parts, hmin, hmax, h with
  | [p], _, _, h =>
    have hp := h p (by simp)
    simp [looksLikeVersion, dotted, digits_numeral hp]
  | [p, q], _, _, h =>
    have hp := h p (by simp)
    have hq := h q (by simp)
    simp [looksLikeVersion, dotted, digits_numeral_dot hp, digits_numeral hq]
  | [p, q, r], _, _, h =>
    have hp := h p (by simp)
    have hq := h q (by simp)
    have hr := h r (by simp)
    simp [looksLikeVersion, dotted, digits_numeral_dot hp, digits_numeral_dot hq,
      digits_numeral hr]

theorem version_of_looksLike {line : Str} (h : looksLikeVersion line = true) :
    Version line := by
  unfold looksLikeVersion at h
  split at h
  · rename_i hone
    obtain ⟨p, hp, rfl⟩ := numeral_of_digits hone
    exact ⟨[p], by simp, by simp, by simpa using hp, by simp [dotted]⟩
  · rename_i minor hone
    obtain ⟨p, hp, rfl⟩ := numeral_of_digits hone
    split at h
    · rename_i htwo
      obtain ⟨q, hq, rfl⟩ := numeral_of_digits htwo
      exact ⟨[p, q], by simp, by simp, by simp [hp, hq], by simp [dotted]⟩
    · rename_i patch htwo
      obtain ⟨q, hq, rfl⟩ := numeral_of_digits htwo
      obtain ⟨r, hr, rfl⟩ := numeral_of_digits (of_decide_eq_true h)
      exact ⟨[p, q, r], by simp, by simp, by simp [hp, hq, hr], by simp [dotted]⟩
    · cases h
  · cases h

theorem Version.digitOrDot {str : Str} (h : Version str) : ∀ c ∈ str, digitOrDot c = true := by
  obtain ⟨parts, _, _, hall, rfl⟩ := h
  clear * - hall
  induction parts with
  | nil => simp [dotted]
  | cons p parts ih =>
    have hp : ∀ c ∈ p, LSU.Versions.digitOrDot c = true := by
      intro c hc
      have hdigit := (hall p List.mem_cons_self).2 c hc
      simp [LSU.Versions.digitOrDot, hdigit]
    have hrest := ih fun q hq => hall q (List.mem_cons_of_mem p hq)
    cases parts with
    | nil => simpa [dotted] using hp
    | cons q parts =>
      intro c hc
      rw [dotted, List.intercalate_cons_cons, List.mem_append, List.mem_append] at hc
      rcases hc with (hc | hc) | hc
      · exact hp c hc
      · obtain rfl := List.mem_singleton.mp hc
        rfl
      · exact hrest c hc

theorem lines_of_digitOrDot {str : Str} (h : ∀ c ∈ str, digitOrDot c = true) :
    lines str = [str] := by
  apply lines_of_not_mem
  intro hmem
  have hnl := h '\n' hmem
  contradiction

theorem split_dotted {parts : List Str} (hne : parts ≠ [])
    (h : ∀ part ∈ parts, Numeral part) : split (dotted parts) '.' = parts := by
  rw [split, splitOn_dotted hne h]
  apply List.rdropWhile_eq_self_iff.mpr
  intro hlast
  have hnil := (h _ (List.getLast_mem hlast)).1
  simpa using hnil

/-- What the parts of a version are read as. -/
def ofNumbers (numbers : List Nat) : VersionTuple :=
  { major := (numbers[0]?.getD 0 : Nat)
    minor := (numbers[1]?.getD 0 : Nat)
    patch := (numbers[2]?.getD 0 : Nat) }

theorem fromStr_version {str : Str} (h : Version str) :
    fromStr str = .ok (ofNumbers (numbers str)) := by
  have hlines := lines_of_digitOrDot h.digitOrDot
  obtain ⟨parts, hmin, hmax, hall, rfl⟩ := h
  have hne : parts ≠ [] := List.ne_nil_of_length_pos hmin
  have hlike : (lines (dotted parts)).any looksLikeVersion = true := by
    rw [hlines]
    simp [looksLikeVersion_dotted hmin hmax hall]
  have hparts : parts.map toI = parts.map fun part => (value part : Int) := by
    apply List.map_congr_left
    exact fun part hpart => toI_numeral (hall part hpart)
  rw [fromStr, if_pos hlike, split_dotted hne hall, hparts, numbers, splitOn_dotted hne hall]
  have hcast (part : Option Str) :
      (part.map fun part => (value part : Int)).getD 0 = ((part.map value).getD 0 : Nat) := by
    cases part with
    | none => rfl
    | some part => rfl
  simp only [ofNumbers, List.getElem?_map, hcast]

/-- from_str accepts the versions, of all texts of digits and dots. -/
theorem fromStr_ok_iff {str : Str} (h : ∀ c ∈ str, digitOrDot c = true) :
    (∃ v, fromStr str = .ok v) ↔ Version str := by
  constructor
  · rintro ⟨v, hv⟩
    rw [fromStr, lines_of_digitOrDot h] at hv
    split at hv
    · rename_i hany
      apply version_of_looksLike
      simpa using hany
    · cases hv
  · intro hversion
    exact ⟨_, fromStr_version hversion⟩

theorem integer_natCast (n : Nat) : integer n = decimal n := by
  rw [integer, if_neg (by omega), Int.natAbs_natCast]

theorem toS_version (major minor patch : Nat) :
    VersionTuple.toS ⟨major, minor, patch⟩ =
      dotted [decimal major, decimal minor, decimal patch] := by
  simp [VersionTuple.toS, integer_natCast, dotted]

/-- A printed tuple is read back. -/
theorem fromStr_toS (major minor patch : Nat) :
    fromStr (VersionTuple.toS ⟨major, minor, patch⟩) = .ok ⟨major, minor, patch⟩ := by
  have hall : ∀ part ∈ [decimal major, decimal minor, decimal patch], Numeral part := by
    simp [decimal_numeral]
  have hversion : Version (dotted [decimal major, decimal minor, decimal patch]) :=
    ⟨_, by simp, by simp, hall, rfl⟩
  rw [toS_version, fromStr_version hversion, numbers, splitOn_dotted (List.cons_ne_nil _ _) hall]
  simp [ofNumbers]

theorem cmp_trans : Std.TransCmp VersionTuple.cmp :=
  inferInstanceAs (Std.TransCmp (compareLex
    (compareLex (compareOn VersionTuple.major) (compareOn VersionTuple.minor))
    (compareOn VersionTuple.patch)))

theorem cmp_eq_iff {v w : VersionTuple} : v.cmp w = .eq ↔ v = w := by
  cases v
  cases w
  simp [VersionTuple.cmp, Ordering.then_eq_eq, and_assoc]

theorem cmp_lawful : Std.LawfulEqCmp VersionTuple.cmp where
  compare_self := cmp_eq_iff.mpr rfl
  eq_of_compare := cmp_eq_iff.mp

theorem compare_natCast (a b : Nat) : compare (a : Int) (b : Int) = compare a b := by
  cases h : compare a b with
  | lt =>
    rw [Nat.compare_eq_lt] at h
    rw [Int.compare_eq_lt]
    omega
  | eq =>
    rw [Nat.compare_eq_eq] at h
    rw [Int.compare_eq_eq]
    omega
  | gt =>
    rw [Nat.compare_eq_gt] at h
    rw [Int.compare_eq_gt]
    omega

theorem ofNumbers_eq (l : List Nat) :
    ofNumbers l = ⟨l.headD 0, l.tail.headD 0, l.tail.tail.headD 0⟩ := by
  match l with
  | [] => rfl
  | [_] => rfl
  | [_, _] => rfl
  | _ :: _ :: _ :: _ => rfl

/-- The comparison of tuples is that of the numbers they come from, of which there are at
most three. -/
theorem cmp_ofNumbers {l m : List Nat} (hl : l.length ≤ 3) (hm : m.length ≤ 3) :
    (ofNumbers l).cmp (ofNumbers m) = compareNumbers l m := by
  have htails : l.tail.tail.tail = [] ∧ m.tail.tail.tail = [] := by
    constructor
    · apply List.eq_nil_of_length_eq_zero
      simp only [List.length_tail]
      omega
    · apply List.eq_nil_of_length_eq_zero
      simp only [List.length_tail]
      omega
  rw [compareNumbers_step l, compareNumbers_step l.tail, compareNumbers_step l.tail.tail,
    htails.1, htails.2, ofNumbers_eq, ofNumbers_eq]
  simp only [VersionTuple.cmp, compare_natCast, Ordering.then_assoc]
  cases compare (l.tail.tail.headD 0) (m.tail.tail.headD 0) <;> rfl

theorem Version.numbers_length {str : Str} (h : Version str) : (numbers str).length ≤ 3 := by
  obtain ⟨parts, hmin, hmax, hall, rfl⟩ := h
  rw [numbers, splitOn_dotted (List.ne_nil_of_length_pos hmin) hall, List.length_map]
  exact hmax

/-- `<=>` on what from_str reads is the comparison of the strings number by number. -/
theorem cmp_fromStr {s t : Str} {v w : VersionTuple} (hs : Version s) (ht : Version t)
    (hv : fromStr s = .ok v) (hw : fromStr t = .ok w) :
    v.cmp w = compareNumbers (numbers s) (numbers t) := by
  rw [fromStr_version hs, Except.ok.injEq] at hv
  rw [fromStr_version ht, Except.ok.injEq] at hw
  rw [← hv, ← hw]
  apply cmp_ofNumbers hs.numbers_length ht.numbers_length

def VersionTuple.Le (v w : VersionTuple) : Prop := (v.cmp w).isLE = true

theorem VersionTuple.Le.refl (v : VersionTuple) : v.Le v := by
  rw [VersionTuple.Le, cmp_eq_iff.mpr rfl]
  rfl

theorem VersionTuple.Le.trans {u v w : VersionTuple} (huv : u.Le v) (hvw : v.Le w) : u.Le w :=
  cmp_trans.isLE_trans huv hvw

theorem VersionTuple.Le.antisymm {v w : VersionTuple} (hvw : v.Le w) (hwv : w.Le v) : v = w := by
  have hcmp := cmp_trans
  apply cmp_eq_iff.mp
  apply Std.OrientedCmp.isLE_antisymm hvw hwv

theorem VersionTuple.Le.of_cmp {v w : VersionTuple} (h : v.cmp w = .gt) : w.Le v := by
  have hcmp := cmp_trans
  rw [VersionTuple.Le, Std.OrientedCmp.lt_of_gt h]
  rfl

/-- The fold ends with an element that none before it exceeds. -/
theorem foldl_max (vs : List VersionTuple) (v : VersionTuple) :
    let best := vs.foldl (fun best w => if w.cmp best = .gt then w else best) v
    best ∈ v :: vs ∧ ∀ w ∈ v :: vs, w.Le best := by
  induction vs generalizing v with
  | nil => simp [VersionTuple.Le.refl]
  | cons w vs ih =>
    rw [List.foldl_cons]
    by_cases hgt : w.cmp v = .gt
    · obtain ⟨hmem, hle⟩ := ih w
      rw [if_pos hgt]
      have hw := hle w List.mem_cons_self
      refine ⟨List.mem_cons_of_mem v hmem, ?_⟩
      rw [List.forall_mem_cons]
      exact ⟨(VersionTuple.Le.of_cmp hgt).trans hw, hle⟩
    · obtain ⟨hmem, hle⟩ := ih v
      rw [if_neg hgt]
      have hv := hle v List.mem_cons_self
      have hwv : w.Le v := Ordering.isLE_iff_ne_gt.mpr hgt
      rw [List.forall_mem_cons] at hle
      refine ⟨?_, ?_⟩
      · rw [List.mem_cons] at hmem
        rw [List.mem_cons, List.mem_cons]
        tauto
      · rw [List.forall_mem_cons, List.forall_mem_cons]
        exact ⟨hv, hwv.trans hv, hle.2⟩

/-- A greatest element of a list. -/
def Greatest (m : VersionTuple) (vs : List VersionTuple) : Prop := m ∈ vs ∧ ∀ v ∈ vs, v.Le m

theorem maximum_greatest {vs : List VersionTuple} (h : vs ≠ []) :
    ∃ m, maximum vs = some m ∧ Greatest m vs := by
  cases vs with
  | nil => exact absurd rfl h
  | cons v vs => exact ⟨_, rfl, foldl_max vs v⟩

theorem Greatest.unique {m n : VersionTuple} {vs ws : List VersionTuple} (hm : Greatest m vs)
    (hn : Greatest n ws) (h : ∀ v, v ∈ vs ↔ v ∈ ws) : m = n :=
  (hn.2 m ((h m).mp hm.1)).antisymm (hm.2 n ((h n).mpr hn.1))

theorem mapM_fromStr {groups : List Str} (h : ∀ group ∈ groups, Version group) :
    groups.mapM fromStr = .ok (groups.map fun group => ofNumbers (numbers group)) := by
  induction groups with
  | nil => rfl
  | cons group groups ih =>
    rw [List.forall_mem_cons] at h
    rw [List.mapM_cons, fromStr_version h.1, ih h.2]
    rfl

theorem maxSymbolVersion_greatest {readelf : Str → Option Str} {libraryPath pre listing : Str}
    (hlist : readelf libraryPath = some listing) (hne : scan pre 0 listing ≠ [])
    (h : ∀ group ∈ scan pre 0 listing, Version group) :
    ∃ m, maxSymbolVersion readelf libraryPath pre = .ok (some m) ∧
      Greatest m ((scan pre 0 listing).map fun group => ofNumbers (numbers group)) := by
  have hread := mapM_fromStr h
  obtain ⟨m, hm, hgreatest⟩ := maximum_greatest (List.map_eq_nil_iff.not.mpr hne)
  refine ⟨m, ?_, hgreatest⟩
  rw [maxSymbolVersion, hlist]
  simp only [hread]
  rw [← hm]
  rfl

/-! The lines of a listing are searched one by one. -/

theorem takeWhile_stop {p : Char → Bool} {x : Char} (hx : p x = false) (r rest : Str) :
    (r ++ x :: rest).takeWhile p = r.takeWhile p := by
  induction r with
  | nil => simp [hx]
  | cons c r ih =>
    rw [List.cons_append, List.takeWhile_cons, List.takeWhile_cons, ih]

theorem dropWhile_stop {p : Char → Bool} {x : Char} (hx : p x = false) (r rest : Str) :
    (r ++ x :: rest).dropWhile p = r.dropWhile p ++ x :: rest := by
  induction r with
  | nil => simp [hx]
  | cons c r ih =>
    rw [List.cons_append, List.dropWhile_cons, List.dropWhile_cons, ih]
    split
    · rfl
    · rfl

theorem prefix_before {lit l rest : Str} {x : Char} (hx : x ∉ lit) :
    lit <+: l ++ x :: rest ↔ lit <+: l := by
  constructor
  · intro h
    by_cases hlen : lit.length ≤ l.length
    · apply List.prefix_of_prefix_length_le h (List.prefix_append l _) hlen
    · have hpre : l ++ [x] <+: l ++ x :: rest := ⟨rest, by simp⟩
      have hlong : (l ++ [x]).length ≤ lit.length := by
        rw [List.length_append, List.length_singleton]
        omega
      have hin := (List.prefix_of_prefix_length_le hpre h hlong).subset
      exact absurd (hin (by simp)) hx
  · intro h
    exact h.trans (List.prefix_append l _)

theorem symbolVersion_newline {pre : Str} (hpre : '\n' ∉ pre) (l rest : Str) :
    (symbolVersion pre l = none → symbolVersion pre (l ++ '\n' :: rest) = none) ∧
      ∀ group left, symbolVersion pre l = some (group, left) →
        symbolVersion pre (l ++ '\n' :: rest) = some (group, left ++ '\n' :: rest) ∨
        left = [] ∧ symbolVersion pre (l ++ '\n' :: rest) = some (group, rest) := by
  have hlit : '\n' ∉ '@' :: pre ++ ['_'] := by simp [hpre]
  have hdot : digitOrDot '\n' = false := rfl
  have hspace : isSpace '\n' = true := rfl
  by_cases h : ('@' :: pre ++ ['_']) <+: l
  · have hlen : pre.length + 2 ≤ l.length := by
      have hle := h.length_le
      simp only [List.length_append, List.length_cons, List.length_nil] at hle
      omega
    rw [symbolVersion, symbolVersion, if_pos h, if_pos ((prefix_before hlit).mpr h),
      List.drop_append_of_le_length hlen]
    simp only [takeWhile_stop hdot, dropWhile_stop hdot]
    cases (l.drop (pre.length + 2)).takeWhile digitOrDot with
    | nil => simp
    | cons d ds =>
      cases (l.drop (pre.length + 2)).dropWhile digitOrDot with
      | nil => simp [hspace]
      | cons c left =>
        cases hc : isSpace c with
        | true => simp [hc]
        | false => simp [hc]
  · rw [symbolVersion, symbolVersion, if_neg h, if_neg fun hl => h ((prefix_before hlit).mp hl)]
    simp

theorem scan_skipped (pre : Str) {l : Str} {k : Nat} (h : l.length ≤ k) : scan pre k l = [] := by
  induction l generalizing k with
  | nil =>
    cases k with
    | zero => rfl
    | succ k => rfl
  | cons c l ih =>
    rw [List.length_cons] at h
    cases k with
    | zero => omega
    | succ k => exact ih (by omega)

theorem scan_newline {pre : Str} (hpre : '\n' ∉ pre) (rest : Str) {l : Str} {k : Nat}
    (h : k ≤ l.length + 1) :
    scan pre k (l ++ '\n' :: rest) = scan pre k l ++ scan pre 0 rest := by
  induction l generalizing k with
  | nil =>
    cases k with
    | zero =>
      have hnone := (symbolVersion_newline hpre [] rest).1 (by simp [symbolVersion])
      rw [List.nil_append] at hnone
      simp [scan, hnone]
    | succ k =>
      have hk : k = 0 := by
        rw [List.length_nil] at h
        omega
      subst hk
      simp [scan]
  | cons c l ih =>
    rw [List.length_cons] at h
    rw [List.cons_append]
    cases k with
    | succ k => exact ih (by omega)
    | zero =>
      obtain ⟨hnone, hsome⟩ := symbolVersion_newline hpre (c :: l) rest
      rw [List.cons_append] at hnone hsome
      rw [scan, scan]
      cases hl : symbolVersion pre (c :: l) with
      | none =>
        rw [hnone hl]
        exact ih (by omega)
      | some found =>
        obtain ⟨group, left⟩ := found
        rcases hsome group left hl with hboth | ⟨rfl, hend⟩
        · have hskip : (l ++ '\n' :: rest).length - (left ++ '\n' :: rest).length =
              l.length - left.length := by
            simp only [List.length_append, List.length_cons]
            omega
          rw [hboth]
          simp only [hskip, List.cons_append]
          rw [ih (by omega)]
        · -- the match takes the line feed with it
          have hskip : (l ++ '\n' :: rest).length - rest.length = l.length + 1 := by
            simp only [List.length_append, List.length_cons]
            omega
          rw [hend]
          simp only [hskip, List.cons_append, List.length_nil, Nat.sub_zero]
          rw [ih (Nat.le_refl _), scan_skipped pre (Nat.le_succ l.length),
            scan_skipped pre (Nat.le_refl l.length), List.nil_append]

theorem scan_lines {pre : Str} (hpre : '\n' ∉ pre) (listing : Str) :
    scan pre 0 listing = (lines listing).flatMap (scan pre 0) := by
  have hjoin : listing = ['\n'].intercalate (lines listing) :=
    (List.intercalate_splitOn '\n').symm
  generalize lines listing = ls at hjoin
  subst hjoin
  induction ls with
  | nil => rfl
  | cons l ls ih =>
    cases ls with
    | nil => simp
    | cons l' ls =>
      have hnext := scan_newline hpre (['\n'].intercalate (l' :: ls)) (Nat.zero_le (l.length + 1))
      rw [List.intercalate_cons_cons, List.append_assoc, List.singleton_append, hnext, ih]
      rfl

/-- The same lines in any order and number have the same groups. -/
theorem mem_scan_congr {pre : Str} (hpre : '\n' ∉ pre) {listing listing' : Str}
    (h : ∀ line, line ∈ lines listing ↔ line ∈ lines listing') (group : Str) :
    group ∈ scan pre 0 listing ↔ group ∈ scan pre 0 listing' := by
  rw [scan_lines hpre, scan_lines hpre, List.mem_flatMap, List.mem_flatMap]
  constructor
  · rintro ⟨line, hline, hgroup⟩
    exact ⟨line, (h line).mp hline, hgroup⟩
  · rintro ⟨line, hline, hgroup⟩
    exact ⟨line, (h line).mpr hline, hgroup⟩

/-- from_str reads the versions and no other text of digits and dots, it inverts to_s, `<=>`
is a total order that compares number by number, and the maximum of a listing is the greatest
version it has, whatever the order and repetition of its lines. -/
theorem versionTuple_ordered :
    (∀ str, (∀ c ∈ str, digitOrDot c = true) → ((∃ v, fromStr str = .ok v) ↔ Version str)) ∧
    (∀ major minor patch : Nat,
      fromStr (VersionTuple.toS ⟨major, minor, patch⟩) = .ok ⟨major, minor, patch⟩) ∧
    Std.TransCmp VersionTuple.cmp ∧ Std.LawfulEqCmp VersionTuple.cmp ∧
    (∀ s t v w, Version s → Version t → fromStr s = .ok v → fromStr t = .ok w →
      v.cmp w = compareNumbers (numbers s) (numbers t)) ∧
    ∀ (readelf : Str → Option Str) (libraryPath pre listing : Str),
      readelf libraryPath = some listing → scan pre 0 listing ≠ [] →
      (∀ group ∈ scan pre 0 listing, Version group) →
      ∃ m, maxSymbolVersion readelf libraryPath pre = .ok (some m) ∧
        (∃ group ∈ scan pre 0 listing, fromStr group = .ok m) ∧
        (∀ group ∈ scan pre 0 listing, ∀ v, fromStr group = .ok v → v.cmp m ≠ .gt) ∧
        ∀ (readelf' : Str → Option Str) (listing' : Str), '\n' ∉ pre →
          readelf' libraryPath = some listing' →
          (∀ line, line ∈ lines listing' ↔ line ∈ lines listing) →
          maxSymbolVersion readelf' libraryPath pre = .ok (some m) := by
  refine ⟨fun str h => fromStr_ok_iff h, fromStr_toS, cmp_trans, cmp_lawful,
    fun s t v w hs ht hv hw => cmp_fromStr hs ht hv hw, ?_⟩
  intro readelf libraryPath pre listing hlist hne hall
  obtain ⟨m, hmax, hgreatest⟩ := maxSymbolVersion_greatest hlist hne hall
  refine ⟨m, hmax, ?_, ?_, ?_⟩
  · obtain ⟨group, hgroup, hm⟩ := List.mem_map.mp hgreatest.1
    exact ⟨group, hgroup, by rw [fromStr_version (hall group hgroup), hm]⟩
  · intro group hgroup v hv
    rw [fromStr_version (hall group hgroup), Except.ok.injEq] at hv
    have hle := hgreatest.2 v (List.mem_map.mpr ⟨group, hgroup, hv⟩)
    exact Ordering.isLE_iff_ne_gt.mp hle
  · intro readelf' listing' hpre hlist' hlines
    have hgroups := mem_scan_congr hpre hlines
    have hne' : scan pre 0 listing' ≠ [] := by
      obtain ⟨group, hgroup⟩ := List.exists_mem_of_ne_nil _ hne
      exact List.ne_nil_of_mem ((hgroups group).mpr hgroup)
    obtain ⟨m', hmax', hgreatest'⟩ := maxSymbolVersion_greatest hlist' hne'
      fun group hgroup => hall group ((hgroups group).mp hgroup)
    have hsame : m' = m := by
      apply hgreatest'.unique hgreatest
      intro v
      simp only [List.mem_map, hgroups]
    rw [hmax', hsame]

def glibcListing : Str := "a@GLIBC_2.9 (2)\nb@@GLIBC_2.34.0\nc@GLIBC_2.34\n".toList

/-- In a listing that has 2.34 with and without its last part, 2.9 is not the maximum. -/
theorem versionTuple_ordered_glibc :
    ∃ m, maxSymbolVersion (fun _ => some glibcListing) "libc.so.6".toList "GLIBC".toList =
        .ok (some m) ∧
      ∀ v, fromStr "2.34".toList = .ok v → v.cmp m ≠ .gt := by
  have hscan : scan "GLIBC".toList 0 glibcListing =
      ["2.9".toList, "2.34.0".toList, "2.34".toList] := by decide +kernel
  have hversions : ∀ group ∈ scan "GLIBC".toList 0 glibcListing, Version group := by
    intro group hgroup
    rw [hscan] at hgroup
    simp only [List.mem_cons, List.not_mem_nil, or_false] at hgroup
    rcases hgroup with rfl | rfl | rfl
    · exact (versionTuple_ordered.1 _ (List.all_eq_true.mp (by decide))).mp ⟨_, rfl⟩
    · exact (versionTuple_ordered.1 _ (List.all_eq_true.mp (by decide))).mp ⟨_, rfl⟩
    · exact (versionTuple_ordered.1 _ (List.all_eq_true.mp (by decide))).mp ⟨_, rfl⟩
  obtain ⟨m, hm, _, hmax, _⟩ := versionTuple_ordered.2.2.2.2.2 (fun _ => some glibcListing)
    "libc.so.6".toList "GLIBC".toList glibcListing rfl (by rw [hscan]; simp) hversions
  refine ⟨m, hm, fun v hv => hmax "2.34".toList ?_ v hv⟩
  rw [hscan]
  simp

end LSU.Versions
