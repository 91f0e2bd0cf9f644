import Mathlib.Data.List.Perm.Subperm
import Mathlib.Data.List.Sort
import Mathlib.Order.Lattice

/-! The two greatest elements of a list, over any linear order. -/
namespace LSU.TopTwo
variable {α : Type*} [LinearOrder α]

/-- All but the two greatest. -/
def below (l : List α) : List α := (l.insertionSort (· ≤ ·)).dropLast.dropLast

/-- How many elements are greater. -/
def above (l : List α) (x : α) : Nat := l.countP fun y => x < y

theorem above_descending {r : List α} (h : r.Pairwise fun x y => y < x) {x : α} (hx : x ∈ r) :
    x ∈ r.tail.tail ↔ 2 ≤ above r x := by
  cases r with
  | nil => cases hx
  | cons a r =>
    rw [List.pairwise_cons] at h
    obtain ⟨ha, h⟩ := h
    cases r with
    | nil =>
      obtain rfl := List.mem_singleton.mp hx
      simp [above]
    | cons b r =>
      rw [List.pairwise_cons] at h
      have hab : b < a := ha b List.mem_cons_self
      have hcount : above (a :: b :: r) x =
          above r x + (if x < b then 1 else 0) + (if x < a then 1 else 0) := by
        simp [above, List.countP_cons]
      rw [List.mem_cons, List.mem_cons] at hx
      show x ∈ r ↔ _
      rcases hx with rfl | rfl | hx
      · have hnot : x ∉ r := fun hin => lt_irrefl x (ha x (List.mem_cons_of_mem b hin))
        have hzero : above r x = 0 := by
          rw [above, List.countP_eq_zero]
          intro y hy
          simpa using (ha y (List.mem_cons_of_mem b hy)).le
        rw [hcount, hzero, if_neg hab.not_gt, if_neg (lt_irrefl x)]
        simp [hnot]
      · have hnot : x ∉ r := fun hin => lt_irrefl x (h.1 x hin)
        have hzero : above r x = 0 := by
          rw [above, List.countP_eq_zero]
          intro y hy
          simpa using (h.1 y hy).le
        rw [hcount, hzero, if_neg (lt_irrefl x), if_pos hab]
        simp [hnot]
      · have hb := h.1 x hx
        rw [hcount, if_pos hb, if_pos (hb.trans hab)]
        simp [hx]

/-- What is below the two greatest has at least two above it. -/
theorem mem_below {l : List α} (hl : l.Nodup) {x : α} :
    x ∈ below l ↔ x ∈ l ∧ 2 ≤ above l x := by
  have hperm := List.perm_insertionSort (· ≤ ·) l
  have hsorted : (l.insertionSort (· ≤ ·)).Pairwise fun x y => x < y := by
    have hne : (l.insertionSort (· ≤ ·)).Pairwise fun x y => x ≠ y := hperm.nodup_iff.mpr hl
    have hle := List.pairwise_insertionSort (· ≤ ·) l
    exact (hle.and hne).imp fun h => lt_of_le_of_ne h.1 h.2
  have hreverse : (l.insertionSort (· ≤ ·)).reverse.tail.tail = (below l).reverse := by
    rw [List.tail_reverse, List.tail_reverse, below]
  have habove : above (l.insertionSort (· ≤ ·)).reverse x = above l x := by
    rw [above, List.countP_reverse]
    exact hperm.countP_eq _
  constructor
  · intro hx
    have hin : x ∈ (l.insertionSort (· ≤ ·)).reverse := by
      rw [List.mem_reverse]
      exact (List.dropLast_sublist _).subset ((List.dropLast_sublist _).subset hx)
    have hiff := above_descending (List.pairwise_reverse.mpr hsorted) hin
    rw [hreverse, List.mem_reverse, habove] at hiff
    exact ⟨hperm.mem_iff.mp (List.mem_reverse.mp hin), hiff.mp hx⟩
  · rintro ⟨hx, htwo⟩
    have hin := List.mem_reverse.mpr (hperm.mem_iff.mpr hx)
    have hiff := above_descending (List.pairwise_reverse.mpr hsorted) hin
    rw [hreverse, List.mem_reverse, habove] at hiff
    exact hiff.mpr htwo

theorem below_nodup {l : List α} (hl : l.Nodup) : (below l).Nodup := by
  have hsorted := (List.perm_insertionSort (· ≤ ·) l).nodup_iff.mpr hl
  exact (hsorted.sublist (List.dropLast_sublist _)).sublist (List.dropLast_sublist _)

/-- What has fewer than two above it. -/
def top (l : List α) : List α := l.filter fun x => above l x < 2

theorem mem_top {l : List α} {x : α} : x ∈ top l ↔ x ∈ l ∧ above l x < 2 := by
  rw [top, List.mem_filter, decide_eq_true_eq]

theorem top_length {l : List α} (hl : l.Nodup) : (top l).length = min 2 l.length := by
  have hrest : (l.filter fun x => !decide (above l x < 2)).Perm (below l) := by
    rw [List.perm_ext_iff_of_nodup (hl.filter _) (below_nodup hl)]
    intro x
    rw [List.mem_filter, mem_below hl, Bool.not_eq_true', decide_eq_false_iff_not, not_lt]
  have hlen : (below l).length = l.length - 2 := by
    rw [below, List.length_dropLast, List.length_dropLast, List.length_insertionSort]
    omega
  have hsum : l.length = (l.filter fun x => decide (above l x < 2)).length +
      (l.filter fun x => !decide (above l x < 2)).length := List.length_eq_length_filter_add _
  rw [hrest.length_eq, hlen] at hsum
  rw [top]
  omega

/-- Lists of one length without repetition that agree on all elements but one agree on that
one too. -/
theorem mem_iff_of_agree {l m : List α} (hl : l.Nodup) (hm : m.Nodup)
    (hlen : l.length = m.length) {x : α} (h : ∀ y, y ≠ x → (y ∈ l ↔ y ∈ m)) :
    x ∈ l ↔ x ∈ m := by
  have hgrow : ∀ {l m : List α}, l.Nodup → l.length = m.length →
      (∀ y, y ≠ x → (y ∈ l ↔ y ∈ m)) → x ∈ m → m.Nodup → x ∈ l := by
    intro l m hl hlen h hx hm
    by_contra hnot
    have hsub : l ⊆ m.erase x := by
      intro y hy
      have hne : y ≠ x := fun heq => hnot (heq ▸ hy)
      exact (List.mem_erase_of_ne hne).mpr ((h y hne).mp hy)
    have hle := (List.subperm_of_subset hl hsub).length_le
    have hpos := List.length_pos_of_mem hx
    rw [List.length_erase_of_mem hx] at hle
    omega
  constructor
  · intro hx
    exact hgrow hm hlen.symm (fun y hy => (h y hy).symm) hx hl
  · intro hx
    exact hgrow hl hlen h hx hm

end LSU.TopTwo
