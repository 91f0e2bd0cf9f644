import Mathlib.Data.List.Lex
import Mathlib.Order.Lattice

/-! Elements sorted by a text key, some of which cover all those whose key continues their own.
In a sorted list such keys follow each other, so that one running key tells what is covered.
Elements and alphabet are arbitrary. -/
namespace LSU.PrefixCover
variable {α β : Type*} [LinearOrder α]

theorem cons_le_cons {a b : α} {u v : List α} :
    a :: u ≤ b :: v ↔ a < b ∨ a = b ∧ u ≤ v := by
  have hlt : b :: v < a :: u ↔ b < a ∨ b = a ∧ v < u := List.cons_lt_cons_iff
  rw [← not_lt, ← not_lt, hlt]
  constructor
  · intro hn
    obtain hab | hab | hab := lt_trichotomy a b
    · exact Or.inl hab
    · exact Or.inr ⟨hab, fun hvu => hn (Or.inr ⟨hab.symm, hvu⟩)⟩
    · exact absurd (Or.inl hab) hn
  · intro h hn
    obtain hab | ⟨rfl, hvu⟩ := h
    · obtain hba | ⟨rfl, -⟩ := hn
      · exact absurd hab (lt_asymm hba)
      · exact absurd hab (lt_irrefl _)
    · obtain hba | ⟨-, h⟩ := hn
      · exact absurd hba (lt_irrefl _)
      · exact hvu h

theorem nil_le (v : List α) : [] ≤ v := by
  rw [← not_lt]
  intro h
  cases h

theorem not_cons_le_nil (a : α) (u : List α) : ¬ a :: u ≤ [] :=
  not_le.mpr List.Lex.nil

theorem le_of_isPrefix {u v : List α} (h : u <+: v) : u ≤ v := by
  induction u generalizing v with
  | nil => exact nil_le v
  | cons a u ih =>
    obtain ⟨w, rfl⟩ := h
    exact cons_le_cons.mpr (Or.inr ⟨rfl, ih (List.prefix_append u w)⟩)

/-- What lies between a text and a continuation of it continues it too. -/
theorem isPrefix_of_between {u v w : List α} (huv : u ≤ v) (hvw : v ≤ w) (h : u <+: w) :
    u <+: v := by
  induction u generalizing v w with
  | nil => exact List.nil_prefix
  | cons a u ih =>
    obtain ⟨x, rfl⟩ := h
    cases v with
    | nil => exact absurd huv (not_cons_le_nil a u)
    | cons b v =>
      rw [List.cons_append] at hvw
      obtain hab | ⟨rfl, hleft⟩ := cons_le_cons.mp huv
      · obtain hba | ⟨heq, -⟩ := cons_le_cons.mp hvw
        · exact absurd hab (lt_asymm hba)
        · exact absurd heq (ne_of_gt hab)
      · obtain hlt | ⟨-, hright⟩ := cons_le_cons.mp hvw
        · exact absurd hlt (lt_irrefl a)
        · exact List.cons_prefix_cons.mpr ⟨rfl, ih hleft hright (List.prefix_append u x)⟩

variable (key : β → List α) (covers : β → Prop)

/-- An element of `u` covers what has the key `k`. -/
def Covered (u : List β) (k : List α) : Prop := ∃ b ∈ u, covers b ∧ key b <+: k

variable {key covers} {u : List β} {x : β} {k : List α}

omit [LinearOrder α] in
/-- A covered element covers nothing new. -/
theorem covered_append_of_covered (hx : Covered key covers u (key x)) :
    Covered key covers (u ++ [x]) k ↔ Covered key covers u k := by
  constructor
  · intro ⟨b, hb, hcovers, hk⟩
    obtain hb | hb := List.mem_append.mp hb
    · exact ⟨b, hb, hcovers, hk⟩
    · obtain ⟨b', hb', hcovers', hx'⟩ := hx
      rw [List.mem_singleton.mp hb] at hk
      exact ⟨b', hb', hcovers', hx'.trans hk⟩
  · intro ⟨b, hb, h⟩
    exact ⟨b, List.mem_append_left [x] hb, h⟩

/-- Once an element is not covered, nothing before it covers anything after it. -/
theorem covered_append_of_not_covered (hu : ∀ b ∈ u, key b ≤ key x) (hk : key x ≤ k)
    (hx : ¬ Covered key covers u (key x)) :
    Covered key covers (u ++ [x]) k ↔ covers x ∧ key x <+: k := by
  constructor
  · intro ⟨b, hb, hcovers, hbk⟩
    obtain hb | hb := List.mem_append.mp hb
    · exact absurd ⟨b, hb, hcovers, isPrefix_of_between (hu b hb) hk hbk⟩ hx
    · rw [List.mem_singleton.mp hb] at hcovers hbk
      exact ⟨hcovers, hbk⟩
  · intro ⟨hcovers, hxk⟩
    exact ⟨x, List.mem_append_right u (List.mem_singleton_self x), hcovers, hxk⟩

end LSU.PrefixCover
