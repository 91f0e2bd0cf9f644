import Mathlib.Data.Set.Basic
import Mathlib.Data.List.Nodup
import Mathlib.Data.List.Perm.Subperm

/-! Working lists that grow while a pass over candidates goes on: each candidate that the
list admits by then, and that is not in it yet, is appended at once. Passes are repeated
until one appends nothing. Candidates and keys are arbitrary types. -/
namespace LSU.Closure
variable {α β : Type*} [DecidableEq α] (admits : List α → β → Bool) (key : β → α)

def visit (known : List α) (b : β) : List α :=
  if admits known b ∧ key b ∉ known then known ++ [key b] else known

def scan (known : List α) (items : List β) : List α := items.foldl (visit admits key) known

/-- Passes until nothing changes; `none` is fuel run out. -/
def saturate (items : List β) : Nat → List α → Option (List α)
  | 0, _ => none
  | fuel + 1, known =>
    if (scan admits key known items).length = known.length then some known
    else saturate items fuel (scan admits key known items)

/-- `S` takes in every candidate that a list within it admits. -/
def Closed (items : List β) (S : Set α) : Prop :=
  ∀ known b, (∀ a ∈ known, a ∈ S) → b ∈ items → admits known b = true → key b ∈ S

variable {admits key} {items : List β} {known : List α}

theorem visit_extends (b : β) : known <+: visit admits key known b := by
  rw [visit]
  split
  · exact List.prefix_append known [key b]
  · exact List.prefix_refl known

theorem scan_extends (items : List β) (known : List α) :
    known <+: scan admits key known items := by
  induction items generalizing known with
  | nil => exact List.prefix_refl known
  | cons b items ih => exact (visit_extends b).trans (ih (visit admits key known b))

theorem visit_nodup (h : known.Nodup) (b : β) : (visit admits key known b).Nodup := by
  rw [visit]
  split
  · rename_i hb
    rw [List.nodup_append]
    refine ⟨h, List.nodup_singleton (key b), fun a ha c hc heq => hb.2 ?_⟩
    rwa [← List.mem_singleton.mp hc, ← heq]
  · exact h

theorem scan_nodup (items : List β) (h : known.Nodup) :
    (scan admits key known items).Nodup := by
  induction items generalizing known with
  | nil => exact h
  | cons b items ih => exact ih (visit_nodup h b)

/-- A pass stays within every closed set it starts in. -/
theorem scan_within {S : Set α} {all : List β} (hS : Closed admits key all S)
    (hitems : ∀ b ∈ items, b ∈ all) (h : ∀ a ∈ known, a ∈ S) :
    ∀ a ∈ scan admits key known items, a ∈ S := by
  induction items generalizing known with
  | nil => exact h
  | cons b items ih =>
    refine ih (fun c hc => hitems c (List.mem_cons_of_mem b hc)) ?_
    intro a ha
    rw [visit] at ha
    split at ha
    · rename_i hb
      obtain ha | ha := List.mem_append.mp ha
      · exact h a ha
      · rw [List.mem_singleton.mp ha]
        exact hS known b h (hitems b List.mem_cons_self) hb.1
    · exact h a ha

/-- A pass that appends nothing has found nothing to append. -/
theorem admitted_of_scan_eq (h : (scan admits key known items).length = known.length) {b : β}
    (hb : b ∈ items) (hadm : admits known b = true) : key b ∈ known := by
  induction items with
  | nil => cases hb
  | cons c items ih =>
    have hvisit : visit admits key known c = known := by
      have hfirst : known <+: visit admits key known c := visit_extends c
      have hrest : visit admits key known c <+: scan admits key known (c :: items) :=
        scan_extends items (visit admits key known c)
      have hlen := hrest.length_le
      exact (hfirst.eq_of_length (by have := hfirst.length_le; omega)).symm
    obtain hbc | hb := List.mem_cons.mp hb
    · subst hbc
      by_contra hnot
      rw [visit, if_pos ⟨hadm, hnot⟩] at hvisit
      simp at hvisit
    · have hscan : scan admits key known (c :: items) = scan admits key known items := by
        rw [scan, List.foldl_cons, hvisit, scan]
      exact ih (hscan ▸ h) hb

/-- What a pass appends belongs to a candidate. -/
theorem scan_origin {a : α} (h : a ∈ scan admits key known items) :
    a ∈ known ∨ ∃ b ∈ items, key b = a := by
  have hclosed : Closed admits key items {a | a ∈ known ∨ ∃ b ∈ items, key b = a} :=
    fun _ b _ hb _ => Or.inr ⟨b, hb, rfl⟩
  exact scan_within hclosed (fun b hb => hb) (fun a ha => Or.inl ha) a h

/-- Each pass but the last lengthens the list, which has room for one key of each candidate. -/
theorem saturate_completes {start : List α} (hn : known.Nodup)
    (hin : ∀ a ∈ known, a ∈ start ++ items.map key) {fuel : Nat}
    (hfuel : start.length + items.length < known.length + fuel) :
    ∃ out, saturate admits key items fuel known = some out := by
  induction fuel generalizing known with
  | zero =>
    have hlen := (List.subperm_of_subset hn hin).length_le
    simp only [List.length_append, List.length_map] at hlen
    omega
  | succ fuel ih =>
    rw [saturate]
    split
    · exact ⟨known, rfl⟩
    · rename_i hgrows
      have hpre : known <+: scan admits key known items := scan_extends items known
      have hle := hpre.length_le
      refine ih (scan_nodup items hn) ?_ (by omega)
      intro a ha
      obtain hold | ⟨b, hb, hkey⟩ := scan_origin ha
      · exact hin a hold
      · exact List.mem_append_right start (List.mem_map.mpr ⟨b, hb, hkey⟩)

/-- The list at the end extends the one at the start, without repetition, is closed, and lies
within every closed set around the start. -/
structure Saturated (admits : List α → β → Bool) (key : β → α) (items : List β)
    (start out : List α) : Prop where
  extends_start : start <+: out
  nodup : out.Nodup
  closed : ∀ b ∈ items, admits out b = true → key b ∈ out
  least : ∀ S, Closed admits key items S → (∀ a ∈ start, a ∈ S) → ∀ a ∈ out, a ∈ S

theorem saturate_saturated {fuel : Nat} {out : List α} (hn : known.Nodup)
    (h : saturate admits key items fuel known = some out) :
    Saturated admits key items known out := by
  induction fuel generalizing known with
  | zero => cases h
  | succ fuel ih =>
    rw [saturate] at h
    split at h
    · rename_i hstable
      obtain rfl := Option.some.inj h
      exact ⟨List.prefix_refl known, hn, fun b => admitted_of_scan_eq hstable, fun S _ h => h⟩
    · obtain ⟨hpre, hnodup, hclosed, hleast⟩ := ih (scan_nodup items hn) h
      refine ⟨(scan_extends items known).trans hpre, hnodup, hclosed, fun S hS hstart => ?_⟩
      exact hleast S hS (scan_within hS (fun b hb => hb) hstart)

/-- More fuel changes nothing. -/
theorem saturate_mono {fuel more : Nat} {out : List α} (hle : fuel ≤ more)
    (h : saturate admits key items fuel known = some out) :
    saturate admits key items more known = some out := by
  induction fuel generalizing known more with
  | zero => cases h
  | succ fuel ih =>
    obtain ⟨n, rfl⟩ : ∃ n, more = n + 1 := ⟨more - 1, by omega⟩
    rw [saturate] at h ⊢
    split
    · rename_i hstable
      rwa [if_pos hstable] at h
    · rename_i hgrows
      rw [if_neg hgrows] at h
      exact ih (by omega) h

omit [DecidableEq α] in
/-- The order of the candidates plays no part in the set. -/
theorem Saturated.perm {items' : List β} {start out out' : List α}
    (hmono : ∀ k k' b, (∀ a ∈ k, a ∈ k') → admits k b = true → admits k' b = true)
    (hperm : items.Perm items') (h : Saturated admits key items start out)
    (h' : Saturated admits key items' start out') : out.Perm out' := by
  have hwithin : ∀ {l l' : List β} {o o' : List α}, l.Perm l' →
      Saturated admits key l start o → Saturated admits key l' start o' →
      ∀ a ∈ o, a ∈ o' := by
    intro l l' o o' hp ho ho'
    refine ho.least {a | a ∈ o'} ?_ fun a ha => ho'.extends_start.subset ha
    intro k b hk hb hadm
    exact ho'.closed b (hp.mem_iff.mp hb) (hmono k o' b hk hadm)
  apply (List.perm_ext_iff_of_nodup h.nodup h'.nodup).mpr
  exact fun a => ⟨hwithin hperm h h' a, hwithin hperm.symm h' h a⟩

end LSU.Closure
