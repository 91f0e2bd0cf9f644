import Mathlib.Data.List.Basic

/-! Searching and splicing in lists of characters, over any alphabet. -/
namespace LSU.Text
variable {α : Type*} [DecidableEq α]

/-- The position of the first occurrence of `needle`. -/
def firstOccurrence (needle : List α) : List α → Option Nat
  | [] => if needle = [] then some 0 else none
  | c :: cs =>
    if needle <+: c :: cs then some 0 else (firstOccurrence needle cs).map (· + 1)

theorem firstOccurrence_isSome {needle hay : List α} :
    (firstOccurrence needle hay).isSome ↔ needle <:+: hay := by
  induction hay with
  | nil => simp [firstOccurrence]
  | cons c cs ih =>
    rw [firstOccurrence, List.infix_cons_iff]
    split
    · simp_all
    · rename_i hpre
      simpa [hpre] using ih

theorem firstOccurrence_eq_none {needle hay : List α} :
    firstOccurrence needle hay = none ↔ ¬ needle <:+: hay := by
  rw [← firstOccurrence_isSome]
  cases firstOccurrence needle hay <;> simp

theorem firstOccurrence_prefix {needle hay : List α} {i : Nat}
    (h : firstOccurrence needle hay = some i) : needle <+: hay.drop i := by
  induction hay generalizing i with
  | nil => simp_all [firstOccurrence]
  | cons c cs ih =>
    rw [firstOccurrence] at h
    split at h
    · rename_i hpre
      obtain rfl := Option.some.inj h
      exact hpre
    · obtain ⟨j, hj, rfl⟩ := Option.map_eq_some_iff.mp h
      simpa using ih hj

/-- `needle` stands at `i` and nowhere before. -/
structure FirstAt (needle hay : List α) (i : Nat) : Prop where
  here : needle <+: hay.drop i
  before : ∀ j, j < i → ¬ needle <+: hay.drop j

omit [DecidableEq α] in
theorem FirstAt.unique {needle hay : List α} {i j : Nat} (hi : FirstAt needle hay i)
    (hj : FirstAt needle hay j) : i = j := by
  obtain hlt | heq | hlt := Nat.lt_trichotomy i j
  · exact absurd hi.here (hj.before i hlt)
  · exact heq
  · exact absurd hj.here (hi.before j hlt)

theorem firstOccurrence_firstAt {needle hay : List α} {i : Nat}
    (h : firstOccurrence needle hay = some i) : FirstAt needle hay i := by
  have hpre := firstOccurrence_prefix h
  refine ⟨hpre, ?_⟩
  clear hpre
  induction hay generalizing i with
  | nil =>
    have hi : i = 0 := by simp_all [firstOccurrence]
    exact fun j hj => by omega
  | cons c cs ih =>
    rw [firstOccurrence] at h
    split at h
    · obtain rfl := Option.some.inj h
      exact fun j hj => by omega
    · rename_i hpre
      obtain ⟨k, hk, rfl⟩ := Option.map_eq_some_iff.mp h
      intro j hj
      cases j with
      | zero => exact hpre
      | succ j => exact ih hk j (by omega)

theorem firstOccurrence_eq_some {needle hay : List α} {i : Nat} :
    firstOccurrence needle hay = some i ↔ FirstAt needle hay i := by
  refine ⟨firstOccurrence_firstAt, fun h => ?_⟩
  have hocc : needle <:+: hay := h.here.isInfix.trans (List.drop_suffix i hay).isInfix
  obtain ⟨k, hk⟩ := Option.isSome_iff_exists.mp (firstOccurrence_isSome.mpr hocc)
  rw [hk, (firstOccurrence_firstAt hk).unique h]

/-- The characters of an occurrence, read from the text. -/
theorem firstOccurrence_getElem {needle hay : List α} {i k : Nat} {c : α}
    (h : firstOccurrence needle hay = some i) (hk : needle[k]? = some c) :
    hay[i + k]? = some c := by
  obtain ⟨rest, hrest⟩ := firstOccurrence_prefix h
  have hk' := (List.getElem?_eq_some_iff.mp hk).1
  rw [← List.getElem?_drop, ← hrest, List.getElem?_append_left hk', hk]

/-- Writes `src` over what stands from position `i` on. -/
def overwrite (s : List α) (i : Nat) (src : List α) : List α :=
  s.take i ++ src ++ s.drop (i + src.length)

/-- The words of a text between blanks, as a shell without quoting takes them. -/
def words (blank : α) (s : List α) : List (List α) :=
  (s.splitOn blank).filter (· ≠ [])

theorem words_append_cons (blank : α) (u v : List α) :
    words blank (u ++ blank :: v) = words blank u ++ words blank v := by
  simp [words, List.splitOn_append_cons_self]

theorem words_append_blanks (blank : α) (u v : List α) (n : Nat) :
    words blank (u ++ List.replicate (n + 1) blank ++ v) = words blank u ++ words blank v := by
  have hlead : ∀ n, words blank (List.replicate n blank ++ v) = words blank v := by
    intro n
    induction n with
    | zero => rfl
    | succ n ih =>
      have hnil : words blank ([] : List α) = [] := rfl
      simpa [List.replicate_succ, hnil, ih] using
        words_append_cons blank [] (List.replicate n blank ++ v)
  rw [List.append_assoc, List.replicate_succ, List.cons_append, words_append_cons, hlead]

/-- Substitution of `rep` for each `c` behind which `look` finds what it wants. -/
def gsubAhead (c : α) (look : List α → Bool) (rep : List α) : List α → List α
  | [] => []
  | x :: xs =>
    if x = c ∧ look xs = true then rep ++ gsubAhead c look rep xs
    else x :: gsubAhead c look rep xs

theorem gsubAhead_skip {c : α} {look : List α → Bool} {rep w : List α} (hw : c ∉ w)
    (xs : List α) : gsubAhead c look rep (w ++ xs) = w ++ gsubAhead c look rep xs := by
  induction w with
  | nil => rfl
  | cons x w ih =>
    have hx : x ≠ c := fun h => hw (h ▸ List.mem_cons_self)
    have hnext := ih fun h => hw (List.mem_cons_of_mem x h)
    simp [gsubAhead, hx, hnext]

theorem gsubAhead_other {c x : α} {look : List α → Bool} {rep : List α} (hx : x ≠ c)
    (xs : List α) : gsubAhead c look rep (x :: xs) = x :: gsubAhead c look rep xs := by
  simp [gsubAhead, hx]

theorem gsubAhead_hit {c : α} {look : List α → Bool} {rep xs : List α} (h : look xs = true) :
    gsubAhead c look rep (c :: xs) = rep ++ gsubAhead c look rep xs := by
  simp [gsubAhead, h]

theorem gsubAhead_miss {c : α} {look : List α → Bool} {rep xs : List α} (h : look xs = false) :
    gsubAhead c look rep (c :: xs) = c :: gsubAhead c look rep xs := by
  simp [gsubAhead, h]

/-- A text none of whose positions `look` accepts stays. -/
theorem gsubAhead_stay {c : α} {look : List α → Bool} {rep w xs : List α}
    (h : ∀ u v, w = u ++ v → look (v ++ xs) = false) :
    gsubAhead c look rep (w ++ xs) = w ++ gsubAhead c look rep xs := by
  induction w with
  | nil => rfl
  | cons x w ih =>
    have hx : look (w ++ xs) = false := h [x] w rfl
    have hnext := ih fun u v huv => h (x :: u) v (by simp [huv])
    simp [gsubAhead, hx, hnext]

/-- Lookahead for one or more characters of a class and then `c`. -/
def ahead (p : α → Bool) (c : α) : List α → Bool
  | [] => false
  | x :: xs => p x && (xs.dropWhile p).head? = some c

theorem ahead_false {p : α → Bool} {c x : α} (hx : p x = false) (xs : List α) :
    ahead p c (x :: xs) = false := by
  simp [ahead, hx]

/-- The first character outside of the class decides. -/
theorem ahead_class {p : α → Bool} {c x y : α} {w : List α} (hw : ∀ x ∈ w, p x = true)
    (hx : p x = true) (hy : p y = false) (xs : List α) :
    ahead p c (x :: (w ++ y :: xs)) = decide (y = c) := by
  simp [ahead, hx, List.dropWhile_append_of_pos hw, hy]

section Words
variable {b : α} {needle hay : List α}

end Words

end LSU.Text
