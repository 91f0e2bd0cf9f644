import Mathlib.Data.List.Perm.Subperm
import Mathlib.Order.Basic

/-! A table of entries in the order they were put there, each at a key. An entry may rest on
one that was there before, at the same key or at a key within; the last entry at a key can
always be taken away by its owner when nothing rests on it. A sweep tries to take away entries of
one owner, key by key, and this is what it leaves. -/
namespace LSU.Sweep
variable {α κ : Type*}

/-- `bears m u`: an entry `u` put later rests on `m`. -/
structure Nesting [Preorder κ] (key : α → κ) (bears : α → α → Bool) : Prop where
  same : ∀ m u, key u = key m → bears m u = true
  le : ∀ m u, bears m u = true → key m ≤ key u
  trans : ∀ m u w, bears m u = true → bears u w = true → bears m w = true

section Table
variable (key : α → κ) (bears : α → α → Bool) (mine sel : α → Bool)

/-- Whether an entry with these behind it goes: it is selected, and no foreign entry rests
on it. -/
def goes (m : α) (later : List α) : Bool := sel m && later.all fun u => mine u || !bears m u

def going : List α → List α
  | [] => []
  | m :: later => if goes bears mine sel m later = true then m :: going later else going later

def leftBehind : List α → List α
  | [] => []
  | m :: later =>
    if goes bears mine sel m later = true then leftBehind later else m :: leftBehind later

/-- A try at a key. The last entry there goes, if it is `mine`, or nothing does; it never stays
when nothing rests on it. `gentle` is that it does not go when something does. -/
inductive Tried (gentle : Prop) (k : κ) : List α → List α → Prop
  | taken (u : List α) (m : α) (v : List α) (hkey : key m = k) (hmine : mine m = true)
      (hlast : ∀ w ∈ v, key w ≠ k) (hbare : gentle → ∀ w ∈ v, bears m w = false) :
      Tried gentle k (u ++ m :: v) (u ++ v)
  | stuck (t : List α) (hheld : ∀ u m v, t = u ++ m :: v → key m = k → mine m = true →
      ∃ w ∈ v, bears m w = true) : Tried gentle k t t

inductive Swept (gentle : Prop) : List κ → List α → List α → Prop
  | nil (t : List α) : Swept gentle [] t t
  | cons {k : κ} {ks : List κ} {t t' t'' : List α} (htried : Tried key bears mine gentle k t t')
      (hrest : Swept gentle ks t' t'') : Swept gentle (k :: ks) t t''

end Table

section Laws
variable {key : α → κ} {bears : α → α → Bool} {mine sel : α → Bool} {t t' : List α} {k : κ}

theorem goes_iff {m : α} {later : List α} :
    goes bears mine sel m later = true ↔
      sel m = true ∧ ∀ u ∈ later, bears m u = true → mine u = true := by
  simp only [goes, Bool.and_eq_true, List.all_eq_true, Bool.or_eq_true, Bool.not_eq_true']
  refine and_congr_right fun _ => forall₂_congr fun u _ => ?_
  cases bears m u <;> simp

/-- An occurrence in a list is the head or one in the tail. -/
theorem split_cons_iff {P : List α → Prop} {x y : α} {later : List α} :
    (∃ u v, y :: later = u ++ x :: v ∧ P v) ↔
      (y = x ∧ P later) ∨ ∃ u v, later = u ++ x :: v ∧ P v := by
  constructor
  · rintro ⟨u, v, h, hv⟩
    cases u with
    | nil =>
      obtain ⟨hy, hlater⟩ := List.cons.inj h
      exact Or.inl ⟨hy, hlater ▸ hv⟩
    | cons z u => exact Or.inr ⟨u, v, (List.cons.inj h).2, hv⟩
  · rintro (⟨rfl, hlater⟩ | ⟨u, v, h, hv⟩)
    · exact ⟨[], later, rfl, hlater⟩
    · exact ⟨y :: u, v, by rw [h, List.cons_append], hv⟩

theorem mem_going_iff {x : α} : x ∈ going bears mine sel t ↔
    ∃ u v, t = u ++ x :: v ∧ goes bears mine sel x v = true := by
  induction t with
  | nil => simp [going]
  | cons y later ih =>
    rw [split_cons_iff, ← ih, going]
    split
    · rename_i hgoes
      rw [List.mem_cons, eq_comm (a := x)]
      refine or_congr_left ⟨?_, And.left⟩
      rintro rfl
      exact ⟨rfl, hgoes⟩
    · rename_i hstays
      refine ⟨Or.inr, Or.rec ?_ id⟩
      rintro ⟨rfl, hgoes⟩
      exact absurd hgoes hstays

theorem going_sublist : (going bears mine sel t).Sublist t := by
  induction t with
  | nil => exact List.Sublist.refl _
  | cons m later ih =>
    rw [going]
    split
    · exact ih.cons_cons m
    · exact ih.cons m

theorem sel_of_mem_going {m : α} (h : m ∈ going bears mine sel t) : sel m = true := by
  obtain ⟨u, v, -, hgoes⟩ := mem_going_iff.mp h
  exact (goes_iff.mp hgoes).1

theorem going_sublist_filter : (going bears mine sel t).Sublist (t.filter sel) := by
  have hsub : (going bears mine sel t).Sublist t := going_sublist
  have hall : (going bears mine sel t).filter sel = going bears mine sel t :=
    List.filter_eq_self.mpr fun m hm => sel_of_mem_going hm
  rw [← hall]
  exact hsub.filter sel

theorem leftBehind_eq_of_going (h : going bears mine sel t = []) :
    leftBehind bears mine sel t = t := by
  induction t with
  | nil => rfl
  | cons m later ih =>
    rw [going] at h
    split at h
    · cases h
    · rename_i hstays
      rw [leftBehind, if_neg hstays, ih h]

/-- With no foreign entry on one that is selected, the selected ones go. -/
theorem going_eq_filter
    (h : ∀ m ∈ t, sel m = true → ∀ u ∈ t, bears m u = true → mine u = true) :
    going bears mine sel t = t.filter sel ∧
      leftBehind bears mine sel t = t.filter fun m => !sel m := by
  induction t with
  | nil => exact ⟨rfl, rfl⟩
  | cons m later ih =>
    obtain ⟨hgoing, hleft⟩ := ih fun u hu hsel w hw =>
      h u (List.mem_cons_of_mem m hu) hsel w (List.mem_cons_of_mem m hw)
    rw [going, leftBehind, List.filter_cons, List.filter_cons]
    by_cases hsel : sel m = true
    · have hgoes : goes bears mine sel m later = true :=
        goes_iff.mpr ⟨hsel, fun u hu =>
          h m List.mem_cons_self hsel u (List.mem_cons_of_mem m hu)⟩
      simp [hgoes, hsel, hgoing, hleft]
    · have hstays : ¬ goes bears mine sel m later = true := fun hg => hsel (goes_iff.mp hg).1
      simp [hstays, hsel, hgoing, hleft]

section Rests
variable [PartialOrder κ] (hn : Nesting key bears)
  (hup : ∀ m u, bears m u = true → sel m = true → mine u = true → sel u = true)

include hn hup in
/-- What rests on an entry that goes, goes too. -/
theorem mem_going_of_bears {m u : α} {later : List α} (hsel : sel m = true)
    (hfree : ∀ w ∈ later, bears m w = true → mine w = true) (hu : u ∈ later)
    (hbears : bears m u = true) : u ∈ going bears mine sel later := by
  induction later with
  | nil => cases hu
  | cons w later ih =>
    have hrest : ∀ w ∈ later, bears m w = true → mine w = true :=
      fun w hw => hfree w (List.mem_cons_of_mem _ hw)
    rw [going]
    obtain rfl | hu := List.mem_cons.mp hu
    · have hgoes : goes bears mine sel u later = true := by
        refine goes_iff.mpr ⟨hup m u hbears hsel (hfree u List.mem_cons_self hbears), ?_⟩
        exact fun v hv huv => hrest v hv (hn.trans m u v hbears huv)
      rw [if_pos hgoes]
      exact List.mem_cons_self
    · split
      · exact List.mem_cons_of_mem _ (ih hrest hu)
      · exact ih hrest hu

end Rests

section Taken
variable {u v : List α} {m : α}

/-- What is `mine` keeps nothing from going. -/
theorem goes_taken (hm : mine m = true) (x : α) :
    goes bears mine sel x (u ++ m :: v) = goes bears mine sel x (u ++ v) := by
  simp [goes, hm]

/-- When an entry is taken away that was to go, what is left behind does not change. -/
theorem taken_goes (hm : mine m = true) (hgoes : goes bears mine sel m v = true) :
    leftBehind bears mine sel (u ++ v) = leftBehind bears mine sel (u ++ m :: v) ∧
      (going bears mine sel (u ++ m :: v)).Perm (m :: going bears mine sel (u ++ v)) := by
  induction u with
  | nil => simp [leftBehind, going, hgoes]
  | cons x u ih =>
    obtain ⟨hleft, hperm⟩ := ih
    simp only [List.cons_append, leftBehind, going, goes_taken hm, hleft]
    refine ⟨trivial, ?_⟩
    split
    · exact (hperm.cons x).trans (List.Perm.swap m x _)
    · exact hperm

/-- When one is taken away that was not to go, the others go as before. -/
theorem taken_stays (hm : mine m = true) (hstays : ¬ goes bears mine sel m v = true) :
    (leftBehind bears mine sel (u ++ v)).Sublist (leftBehind bears mine sel (u ++ m :: v)) ∧
      going bears mine sel (u ++ m :: v) = going bears mine sel (u ++ v) := by
  induction u with
  | nil => simp [leftBehind, going, hstays]
  | cons x u ih =>
    obtain ⟨hleft, hgoing⟩ := ih
    simp only [List.cons_append, leftBehind, going, goes_taken hm, hgoing]
    refine ⟨?_, trivial⟩
    split
    · exact hleft
    · exact hleft.cons_cons x

end Taken

section Attempts
variable {gentle : Prop}

theorem Tried.sublist (h : Tried key bears mine gentle k t t') : t'.Sublist t := by
  cases h with
  | taken u m v => exact (List.sublist_cons_self m v).append_left u
  | stuck => exact .refl t

/-- What is not selected is not touched. -/
theorem Tried.filter (h : Tried key bears mine gentle k t t')
    (hkey : ∀ m, key m = k → mine m = true → sel m = true) :
    t'.filter (fun m => !sel m) = t.filter fun m => !sel m := by
  cases h with
  | taken u m v hk hm => simp [hkey m hk hm]
  | stuck => rfl

variable [PartialOrder κ] (hn : Nesting key bears) (hmine : ∀ m, sel m = true → mine m = true)
  (hup : ∀ m u, bears m u = true → sel m = true → mine u = true → sel u = true)

include hn hup in
/-- Where an entry at a key is to go and none with a key behind is, there is one with nothing
on it. -/
theorem exists_bare (hlast : ∀ m ∈ going bears mine sel t, key m ≤ k)
    (hk : ∃ m ∈ going bears mine sel t, key m = k) :
    ∃ u m v, t = u ++ m :: v ∧ key m = k ∧ sel m = true ∧ ∀ w ∈ v, bears m w = false := by
  induction t with
  | nil => simp [going] at hk
  | cons m later ih =>
    have hsub : ∀ u ∈ going bears mine sel later, u ∈ going bears mine sel (m :: later) := by
      intro u hu
      rw [going]
      split
      · exact List.mem_cons_of_mem m hu
      · exact hu
    by_cases hlater : ∃ u ∈ going bears mine sel later, key u = k
    · obtain ⟨u, x, v, rfl, hx⟩ := ih (fun u hu => hlast u (hsub u hu)) hlater
      exact ⟨m :: u, x, v, rfl, hx⟩
    · obtain ⟨g, hg, hgk⟩ := hk
      rw [going] at hg
      split at hg
      · rename_i hgoes
        have hgm : g = m := (List.mem_cons.mp hg).resolve_right fun h => hlater ⟨g, h, hgk⟩
        subst hgm
        obtain ⟨hsel, hfree⟩ := goes_iff.mp hgoes
        refine ⟨[], g, later, rfl, hgk, hsel, fun w hw => ?_⟩
        -- what rests on it would go too, and no earlier
        by_contra hbears
        have hbears : bears g w = true := by simpa using hbears
        have hgo := mem_going_of_bears hn hup hsel hfree hw hbears
        refine hlater ⟨w, hgo, le_antisymm (hlast w (hsub w hgo)) ?_⟩
        exact hgk ▸ hn.le g w hbears
      · exact absurd ⟨g, hg, hgk⟩ hlater

include hn in
/-- Behind the last entry at a key, if it does not go, none there does. -/
theorem going_ne {u v : List α} {m : α} (hkey : key m = k) (hlast : ∀ w ∈ v, key w ≠ k)
    (hsel : sel m = true) (hstays : ¬ goes bears mine sel m v = true) :
    ∀ x ∈ going bears mine sel (u ++ m :: v), key x ≠ k := by
  obtain ⟨w, hw, hbears, hforeign⟩ : ∃ w ∈ v, bears m w = true ∧ ¬ mine w = true := by
    simpa [goes_iff, hsel] using hstays
  intro x hx hxk
  obtain ⟨u', v', hsplit, hgoes⟩ := mem_going_iff.mp hx
  obtain ⟨-, hfree⟩ := goes_iff.mp hgoes
  obtain ⟨a, rfl, hv⟩ | ⟨a, rfl, hv⟩ := List.append_eq_append_iff.mp hsplit
  · cases a with
    | nil =>
      obtain ⟨rfl, rfl⟩ := List.cons.inj hv
      exact hforeign (hfree w hw hbears)
    | cons y a =>
      obtain ⟨rfl, rfl⟩ := List.cons.inj hv
      exact hlast x (List.mem_append_right a List.mem_cons_self) hxk
  · cases a with
    | nil =>
      obtain ⟨rfl, rfl⟩ := List.cons.inj hv
      exact hforeign (hfree w hw hbears)
    | cons y a =>
      obtain ⟨rfl, rfl⟩ := List.cons.inj hv
      have hxw := hn.trans x m w (hn.same x m (hkey.trans hxk.symm)) hbears
      exact hforeign (hfree w (by simp [hw]) hxw)

include hn hmine hup in
/-- A try at the last key takes away one of those that are to go, if there are any. -/
theorem Tried.takes (h : Tried key bears mine gentle k t t')
    (hkey : ∀ m, key m = k → mine m = true → sel m = true)
    (hlast : ∀ m ∈ going bears mine sel t, key m ≤ k) :
    (leftBehind bears mine sel t').Sublist (leftBehind bears mine sel t) ∧
      (gentle → leftBehind bears mine sel t' = leftBehind bears mine sel t) ∧
      ((∃ m, key m = k ∧
          (going bears mine sel t).Perm (m :: going bears mine sel t')) ∨
        going bears mine sel t' = going bears mine sel t ∧
          ∀ m ∈ going bears mine sel t, key m ≠ k) := by
  cases h with
  | taken u m v hk hm hend hbare =>
    by_cases hgoes : goes bears mine sel m v = true
    · obtain ⟨hleft, hperm⟩ := taken_goes (u := u) hm hgoes
      exact ⟨hleft ▸ .refl _, fun _ => hleft, Or.inl ⟨m, hk, hperm⟩⟩
    · obtain ⟨hleft, hgoing⟩ := taken_stays (u := u) hm hgoes
      refine ⟨hleft, fun hgentle => absurd ?_ hgoes, Or.inr ⟨hgoing.symm, ?_⟩⟩
      · refine goes_iff.mpr ⟨hkey m hk hm, fun w hw hbears => ?_⟩
        simp [hbare hgentle w hw] at hbears
      · exact going_ne hn hk hend (hkey m hk hm) hgoes
  | stuck _ hheld =>
    refine ⟨.refl _, fun _ => rfl, Or.inr ⟨rfl, fun m hm hk => ?_⟩⟩
    obtain ⟨u, x, v, rfl, hx, hsel, hfree⟩ := exists_bare hn hup hlast ⟨m, hm, hk⟩
    obtain ⟨w, hw, hbears⟩ := hheld u x v rfl hx (hmine x hsel)
    simp [hfree w hw] at hbears

include hn hmine hup in
/-- Where all that is tried is to go, it does. -/
theorem Tried.rest {ks : List κ} (h : Tried key bears mine gentle k t t')
    (hkey : ∀ m, key m = k → mine m = true → sel m = true)
    (hks : (k :: ks).Pairwise fun p q => q ≤ p)
    (hperm : ((going bears mine sel t).map key).Perm (k :: ks)) :
    ((going bears mine sel t').map key).Perm ks := by
  have hlast : ∀ m ∈ going bears mine sel t, key m ≤ k := fun m hm =>
    (List.mem_cons.mp (hperm.mem_iff.mp (List.mem_map_of_mem hm))).elim (fun h => h.le)
      ((List.pairwise_cons.mp hks).1 (key m))
  obtain ⟨-, -, ⟨m, hm, hgoing⟩ | ⟨-, hno⟩⟩ := h.takes hn hmine hup hkey hlast
  · have h := (hgoing.map key).symm.trans hperm
    rw [List.map_cons, hm] at h
    exact h.cons_inv
  · obtain ⟨m, hm, hk⟩ := List.mem_map.mp (hperm.mem_iff.mpr List.mem_cons_self)
    exact absurd hk (hno m hm)

include hn hmine hup in
/-- A sweep of the keys from the last on takes away all that is to go, and nothing that is not
selected; and when nothing goes on which something rests, that is all it takes away. -/
theorem Swept.leaves {ks : List κ} (h : Swept key bears mine gentle ks t t')
    (hks : ks.Pairwise fun p q => q ≤ p) (hkey : ∀ m, key m ∈ ks → mine m = true → sel m = true)
    (hsub : ((going bears mine sel t).map key).Subperm ks) :
    t'.Sublist (leftBehind bears mine sel t) ∧
      t'.filter (fun m => !sel m) = t.filter (fun m => !sel m) ∧
      (gentle → t' = leftBehind bears mine sel t) := by
  induction h with
  | nil t =>
    have hnone : going bears mine sel t = [] := by
      simpa using List.subperm_nil.mp hsub
    rw [leftBehind_eq_of_going hnone]
    exact ⟨.refl t, rfl, fun _ => rfl⟩
  | @cons k ks t u t' htried hrest ih =>
    obtain ⟨hle, hks'⟩ := List.pairwise_cons.mp hks
    have hhere : ∀ m, key m = k → mine m = true → sel m = true :=
      fun m hm => hkey m (List.mem_cons.mpr (Or.inl hm))
    have hlast : ∀ m ∈ going bears mine sel t, key m ≤ k := fun m hm =>
      (List.mem_cons.mp (hsub.subset (List.mem_map_of_mem hm))).elim (fun h => h.le) (hle (key m))
    obtain ⟨hleft, hexact, hgoing⟩ := htried.takes hn hmine hup hhere hlast
    have hsub' : ((going bears mine sel u).map key).Subperm ks := by
      obtain ⟨m, hm, hperm⟩ | ⟨hsame, hno⟩ := hgoing
      · rw [(hperm.map key).subperm_right, List.map_cons, hm] at hsub
        exact (List.subperm_cons k).mp hsub
      · obtain ⟨l, hl, hlks⟩ := hsub
        rw [hsame]
        cases hlks with
        | cons _ hlks => exact ⟨l, hl, hlks⟩
        | cons_cons _ hlks =>
          obtain ⟨m, hm, hk⟩ := List.mem_map.mp (hl.mem_iff.mp List.mem_cons_self)
          exact absurd hk (hno m hm)
    obtain ⟨hsubl, hfilter, heq⟩ :=
      ih hks' (fun m hm => hkey m (List.mem_cons_of_mem k hm)) hsub'
    refine ⟨hsubl.trans hleft, hfilter.trans (htried.filter hhere), fun hgentle => ?_⟩
    rw [heq hgentle, hexact hgentle]

end Attempts

end Laws
end LSU.Sweep
