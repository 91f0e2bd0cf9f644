import Mathlib.Data.List.Basic

/-! Absolute paths as texts: components with a separator before each of them. What is a prefix
of the text, and what of the path; and the lines of such a text. Over any alphabet. -/
namespace LSU.Paths
variable {α : Type*} {sep nl : α}

/-- A component: a text, not empty, without the separator. -/
@[ext] structure Component (sep : α) where
  text : List α
  nonempty : text ≠ []
  plain : sep ∉ text

/-- The text of a path that is not the root. -/
def slashed (path : List (Component sep)) : List α := path.flatMap fun c => sep :: c.text

@[simp] theorem slashed_nil : slashed ([] : List (Component sep)) = [] := rfl

@[simp] theorem slashed_cons (c : Component sep) (path : List (Component sep)) :
    slashed (c :: path) = sep :: (c.text ++ slashed path) := by
  simp [slashed]

theorem slashed_append (a b : List (Component sep)) :
    slashed (a ++ b) = slashed a ++ slashed b := by
  simp [slashed]

theorem slashed_head? {path : List (Component sep)} (h : path ≠ []) :
    (slashed path).head? = some sep := by
  cases path with
  | nil => exact absurd rfl h
  | cons c path => simp

theorem slashed_eq_nil {path : List (Component sep)} : slashed path = [] ↔ path = [] := by
  cases path <;> simp

theorem Component.head?_ne (c : Component sep) (w : List α) :
    ∃ x, (c.text ++ w).head? = some x ∧ x ≠ sep := by
  obtain ⟨x, t, ht⟩ := List.exists_cons_of_ne_nil c.nonempty
  refine ⟨x, by simp [ht], fun h => c.plain ?_⟩
  simp [ht, h]

/-- What can stand behind a component. -/
def Boundary (sep : α) (w : List α) : Prop := w = [] ∨ w.head? = some sep

theorem slashed_boundary (path : List (Component sep)) : Boundary sep (slashed path) := by
  cases path with
  | nil => exact Or.inl rfl
  | cons c path => exact Or.inr (slashed_head? (List.cons_ne_nil c path))

/-- A text without the separator ends at the boundary. -/
theorem append_boundary_inj {u v w x : List α} (hu : sep ∉ u) (hv : sep ∉ v)
    (hw : Boundary sep w) (hx : Boundary sep x) (h : u ++ w = v ++ x) : u = v ∧ w = x := by
  induction u generalizing v with
  | nil =>
    cases v with
    | nil => exact ⟨rfl, h⟩
    | cons b v =>
      obtain hnil | hhead := hw
      · simp [hnil] at h
      · rw [List.nil_append] at h
        have hb : b = sep := by simpa [h] using hhead
        simp [hb] at hv
  | cons a u ih =>
    cases v with
    | nil =>
      obtain hnil | hhead := hx
      · simp [hnil] at h
      · rw [List.nil_append] at h
        have ha : a = sep := by simpa [← h] using hhead
        simp [ha] at hu
    | cons b v =>
      obtain ⟨hab, hrest⟩ := List.cons.inj h
      obtain ⟨huv, hwx⟩ := ih (fun hm => hu (List.mem_cons_of_mem a hm))
        (fun hm => hv (List.mem_cons_of_mem b hm)) hrest
      exact ⟨by rw [hab, huv], hwx⟩

theorem slashed_injective : Function.Injective (slashed : List (Component sep) → List α) := by
  intro a
  induction a with
  | nil => exact fun b h => (slashed_eq_nil.mp h.symm).symm
  | cons c a ih =>
    intro b h
    cases b with
    | nil => exact absurd h (by simp)
    | cons d b =>
      simp only [slashed_cons, List.cons.injEq, true_and] at h
      obtain ⟨htext, hrest⟩ := append_boundary_inj c.plain d.plain (slashed_boundary a)
        (slashed_boundary b) h
      rw [Component.ext htext, ih hrest]

/-- With a separator behind it, a path's text is a prefix of the texts of the paths below. -/
theorem slashed_below {a b : List (Component sep)} :
    slashed a ++ [sep] <+: slashed b ↔ ∃ c rest, b = a ++ c :: rest := by
  constructor
  · induction a generalizing b with
    | nil =>
      intro h
      cases b with
      | nil => simp at h
      | cons c rest => exact ⟨c, rest, rfl⟩
    | cons d a ih =>
      intro ⟨w, hw⟩
      cases b with
      | nil => simp at hw
      | cons e b =>
        simp only [slashed_cons, List.cons_append, List.append_assoc, List.cons.injEq,
          true_and] at hw
        have hbound : Boundary sep (slashed a ++ ([sep] ++ w)) := by
          cases a with
          | nil => exact Or.inr rfl
          | cons c a => exact Or.inr rfl
        obtain ⟨htext, hrest⟩ := append_boundary_inj d.plain e.plain hbound
          (slashed_boundary b) hw
        obtain ⟨c, rest, hb⟩ := ih ⟨w, by rw [List.append_assoc]; exact hrest⟩
        exact ⟨c, rest, by rw [hb, Component.ext htext, List.cons_append]⟩
  · intro ⟨c, rest, hb⟩
    refine ⟨c.text ++ slashed rest, ?_⟩
    simp [hb, slashed_append]

variable [DecidableEq α]

/-- What stands behind each line break of a text. -/
def tailsAfter (nl : α) : List α → List (List α)
  | [] => []
  | a :: w => if a = nl then w :: tailsAfter nl w else tailsAfter nl w

/-- The ends of a path that stand behind a component with a line break at its end. -/
def later (nl : α) : List (Component sep) → List (List (Component sep))
  | [] => []
  | c :: path => if c.text.getLast? = some nl then path :: later nl path else later nl path

/-- Of the lines that start within a component none starts with the separator. -/
theorem mem_tailsAfter_append {u w t : List α} (hu : sep ∉ u) (ht : t.head? = some sep) :
    t ∈ tailsAfter nl (u ++ w) ↔ u.getLast? = some nl ∧ t = w ∨ t ∈ tailsAfter nl w := by
  induction u with
  | nil => simp
  | cons a u ih =>
    have hrest := ih fun hm => hu (List.mem_cons_of_mem a hm)
    rw [List.cons_append, tailsAfter]
    cases u with
    | nil =>
      by_cases ha : a = nl
      · simp [ha]
      · simp [ha]
    | cons b u =>
      have hb : t ≠ b :: u ++ w := by
        intro h
        have hsep : b = sep := by simpa [h] using ht
        simp [hsep] at hu
      by_cases ha : a = nl
      · rw [if_pos ha, List.mem_cons, hrest, List.getLast?_cons_cons]
        simp only [hb, false_or]
      · rw [if_neg ha, hrest, List.getLast?_cons_cons]

/-- The lines of a path that start with the separator are the paths at which they start. -/
theorem mem_tailsAfter_slashed {path : List (Component sep)} {t : List α} (hne : sep ≠ nl)
    (ht : t.head? = some sep) :
    t ∈ tailsAfter nl (slashed path) ↔ ∃ v ∈ later nl path, t = slashed v := by
  induction path with
  | nil => simp [tailsAfter, later]
  | cons c path ih =>
    rw [slashed_cons, tailsAfter, if_neg hne, mem_tailsAfter_append c.plain ht, ih, later]
    by_cases hc : c.text.getLast? = some nl
    · simp [hc]
    · simp [hc]

end LSU.Paths
