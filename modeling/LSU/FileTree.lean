import Mathlib.Data.List.Infix
import Mathlib.Logic.Function.Basic
import LSU.Resume

/-! Trees of directories, files and links that lead out of the tree, with the operations on
them, and the jobs that are made of these. Names, contents, modes and link targets are
arbitrary. -/
namespace LSU.FileTree
open LSU.Resume LSU.Resume.Job
variable {N C M L α : Type}

inductive Node (C M L : Type) where
  | dir
  | file (content : List C) (mode : M)
  | link (target : L)
deriving DecidableEq

def isDir : Option (Node C M L) → Bool
  | some .dir => true
  | _ => false

theorem isDir_iff {n : Option (Node C M L)} : isDir n = true ↔ n = some .dir := by
  obtain _ | n := n
  · simp [isDir]
  · cases n <;> simp [isDir]

/-- What is below something is in a directory. -/
@[ext] structure Tree (N C M L : Type) where
  node : List N → Option (Node C M L)
  rooted : isDir (node []) = true
  parent : ∀ p n, (node (p ++ [n])).isSome → isDir (node p) = true

/-- A directory without entries. -/
def Tree.empty : Tree N C M L where
  node p := if p.isEmpty then some .dir else none
  rooted := rfl
  parent := by
    intro p n h
    simp at h

theorem Tree.isDir_of_prefix {t : Tree N C M L} {p w : List N} {n : N}
    (h : (t.node (p ++ n :: w)).isSome) : isDir (t.node p) = true := by
  induction w using List.reverseRecOn with
  | nil => exact t.parent p n h
  | append_singleton w m ih =>
    rw [← List.cons_append, ← List.append_assoc] at h
    apply ih
    rw [isDir_iff.mp (t.parent _ m h)]
    rfl

theorem Tree.node_eq_none {t : Tree N C M L} {p q : List N} (hp : t.node p = none)
    (hpq : p <+: q) : t.node q = none := by
  obtain ⟨w, rfl⟩ := hpq
  cases w with
  | nil => rwa [List.append_nil]
  | cons n w =>
    by_contra h
    have hdir := t.isDir_of_prefix (Option.isSome_iff_ne_none.mpr h)
    rw [hp] at hdir
    cases hdir

/-- What is outside of the tree, seen from the targets of links. -/
structure Outside (N L : Type) where
  exist : L → List N → Bool
  directory : L → List N → Bool

/-- The path leads through a link, to something outside that satisfies a test. -/
def Tree.through (t : Tree N C M L) (p : List N) (test : L → List N → Bool) : Bool :=
  p.inits.any fun q => match t.node q with
    | some (.link target) => test target (p.drop q.length)
    | _ => false

/-- File.exist? -/
def Tree.exist (t : Tree N C M L) (out : Outside N L) (p : List N) : Bool :=
  (match t.node p with
    | some .dir => true
    | some (.file _ _) => true
    | _ => false) || t.through p out.exist

/-- File.directory? -/
def Tree.directory (t : Tree N C M L) (out : Outside N L) (p : List N) : Bool :=
  isDir (t.node p) || t.through p out.directory

variable [DecidableEq N]

/-- Puts a node where there is no directory. -/
def Tree.set (t : Tree N C M L) (p : List N) (n : Node C M L)
    (hparent : isDir (t.node p.dropLast) = true) (hfree : isDir (t.node p) = false) :
    Tree N C M L where
  node := Function.update t.node p (some n)
  rooted := by
    have hp : [] ≠ p := by
      rintro rfl
      rw [t.rooted] at hfree
      cases hfree
    rw [Function.update_of_ne hp]
    exact t.rooted
  parent := by
    intro q m h
    have hq : q ≠ p := by
      rintro rfl
      have hne : q ++ [m] ≠ q := by simp
      rw [Function.update_of_ne hne] at h
      rw [t.parent q m h] at hfree
      cases hfree
    rw [Function.update_of_ne hq]
    by_cases hp : q ++ [m] = p
    · rw [← hp, List.dropLast_concat] at hparent
      exact hparent
    · rw [Function.update_of_ne hp] at h
      exact t.parent q m h

/-- mkdir(2) and symlink(2), which want the place to be free. -/
def place (p : List N) (n : Node C M L) (t : Tree N C M L) : Option (Tree N C M L) :=
  if h : isDir (t.node p.dropLast) = true ∧ (t.node p).isNone = true then
    some (t.set p n h.1 (by rw [Option.isNone_iff_eq_none.mp h.2]; rfl))
  else none

/-- Changes a file. -/
def edit (p : List N) (f : List C → M → List C × M) (t : Tree N C M L) :
    Option (Tree N C M L) :=
  match t.node p with
  | some (.file content mode) =>
    if h : isDir (t.node p.dropLast) = true ∧ isDir (t.node p) = false then
      some (t.set p (.file (f content mode).1 (f content mode).2) h.1 h.2)
    else none
  | _ => none

/-- open(2) for writing. The mode is for a new file. -/
def openFile (p : List N) (mode : M) (t : Tree N C M L) : Option (Tree N C M L) :=
  match t.node p with
  | none => place p (.file [] mode) t
  | some _ => edit p (fun _ mode => ([], mode)) t

/-- The nodes after what was below `dir ++ [a]` has gone to `dir ++ [b]`. -/
def moved (t : Tree N C M L) (dir : List N) (a b : N) (q : List N) : Option (Node C M L) :=
  if dir ++ [b] <+: q then t.node (dir ++ a :: q.drop (dir.length + 1))
  else if dir ++ [a] <+: q then none
  else t.node q

theorem moved_below (t : Tree N C M L) (dir : List N) (a b : N) (w : List N) :
    moved t dir a b (dir ++ b :: w) = t.node (dir ++ a :: w) := by
  have hpre : dir ++ [b] <+: dir ++ b :: w := ⟨w, by simp⟩
  have hdrop : (dir ++ b :: w).drop (dir.length + 1) = w := by
    rw [List.append_cons, List.drop_left']
    simp
  rw [moved, if_pos hpre, hdrop]

theorem moved_other {t : Tree N C M L} {dir q : List N} {a b : N} (hb : ¬ dir ++ [b] <+: q)
    (ha : ¬ dir ++ [a] <+: q) : moved t dir a b q = t.node q := by
  rw [moved, if_neg hb, if_neg ha]

omit [DecidableEq N] in
theorem not_prefix_self (dir : List N) (a : N) : ¬ dir ++ [a] <+: dir := by
  intro h
  have hlength := h.length_le
  rw [List.length_append, List.length_singleton] at hlength
  omega

theorem moved_parent {t : Tree N C M L} {dir : List N} {a b : N}
    (ha : isDir (t.node (dir ++ [a])) = true) (q : List N) (n : N)
    (h : (moved t dir a b (q ++ [n])).isSome) : isDir (moved t dir a b q) = true := by
  by_cases hb : dir ++ [b] <+: q
  · obtain ⟨w, rfl⟩ := hb
    have hchild : dir ++ [b] ++ w ++ [n] = dir ++ b :: (w ++ [n]) := by simp
    have hpath : dir ++ [b] ++ w = dir ++ b :: w := by simp
    rw [hchild, moved_below, ← List.cons_append, ← List.append_assoc] at h
    rw [hpath, moved_below]
    exact t.parent _ n h
  · by_cases hq : q = dir
    · rw [hq, moved_other (not_prefix_self dir b) (not_prefix_self dir a)]
      apply t.parent dir a
      rw [isDir_iff.mp ha]
      rfl
    · have hb' : ¬ dir ++ [b] <+: q ++ [n] := by
        intro hpre
        obtain heq | hpre := List.prefix_concat_iff.mp hpre
        · exact hq (List.append_inj' heq rfl).1.symm
        · exact hb hpre
      have ha' : ¬ dir ++ [a] <+: q ++ [n] := by
        intro hpre
        rw [moved, if_neg hb', if_pos hpre] at h
        cases h
      rw [moved_other hb' ha'] at h
      rw [moved_other hb fun hpre => ha' (hpre.trans (List.prefix_append q [n]))]
      exact t.parent q n h

/-- rename(2) of a directory, to a name next to it that is free. -/
def rename (dir : List N) (a b : N) (t : Tree N C M L) : Option (Tree N C M L) :=
  if h : isDir (t.node (dir ++ [a])) = true ∧ (t.node (dir ++ [b])).isNone = true then
    some {
      node := moved t dir a b
      rooted := by
        rw [moved_other (by simp) (by simp)]
        exact t.rooted
      parent := moved_parent h.1 }
  else none

theorem rename_eq {dir : List N} {a b : N} {t u : Tree N C M L} :
    rename dir a b t = some u ↔ isDir (t.node (dir ++ [a])) = true ∧
      t.node (dir ++ [b]) = none ∧ u.node = moved t dir a b := by
  rw [rename]
  by_cases h : isDir (t.node (dir ++ [a])) = true ∧ (t.node (dir ++ [b])).isNone = true
  · rw [dif_pos h, Option.some_inj]
    constructor
    · rintro rfl
      exact ⟨h.1, Option.isNone_iff_eq_none.mp h.2, rfl⟩
    · intro ⟨_, _, hu⟩
      exact Tree.ext hu.symm
  · rw [dif_neg h]
    constructor
    · intro hu
      cases hu
    · intro ⟨hdir, hnone, _⟩
      exact absurd ⟨hdir, Option.isNone_iff_eq_none.mpr hnone⟩ h

theorem place_eq {p : List N} {n : Node C M L} {t u : Tree N C M L} :
    place p n t = some u ↔ isDir (t.node p.dropLast) = true ∧ t.node p = none ∧
      u.node = Function.update t.node p (some n) := by
  rw [place]
  by_cases h : isDir (t.node p.dropLast) = true ∧ (t.node p).isNone = true
  · rw [dif_pos h, Option.some_inj]
    constructor
    · rintro rfl
      exact ⟨h.1, Option.isNone_iff_eq_none.mp h.2, rfl⟩
    · intro ⟨_, _, hu⟩
      exact Tree.ext hu.symm
  · rw [dif_neg h]
    constructor
    · intro hu
      cases hu
    · intro ⟨hdir, hnone, _⟩
      exact absurd ⟨hdir, Option.isNone_iff_eq_none.mpr hnone⟩ h

theorem place_free {p : List N} {t : Tree N C M L} (n : Node C M L)
    (hdir : isDir (t.node p.dropLast) = true) (hnone : t.node p = none) :
    ∃ u, place p n t = some u ∧ u.node = Function.update t.node p (some n) := by
  refine ⟨t.set p n hdir (by rw [hnone]; rfl), ?_, rfl⟩
  rw [place, dif_pos ⟨hdir, Option.isNone_iff_eq_none.mpr hnone⟩]

theorem edit_file {p : List N} {f : List C → M → List C × M} {t : Tree N C M L}
    {content : List C} {mode : M} (h : t.node p = some (.file content mode)) :
    ∃ u, edit p f t = some u ∧ u.node = Function.update t.node p
      (some (.file (f content mode).1 (f content mode).2)) := by
  have hparent : isDir (t.node p.dropLast) = true := by
    obtain rfl | ⟨q, n, rfl⟩ := List.eq_nil_or_concat' p
    · exact t.rooted
    · rw [List.dropLast_concat]
      apply t.parent q n
      rw [h]
      rfl
  have hfree : isDir (t.node p) = false := by
    rw [h]
    rfl
  refine ⟨t.set p (.file (f content mode).1 (f content mode).2) hparent hfree, ?_, rfl⟩
  rw [edit]
  split
  · rename_i content' mode' h'
    obtain ⟨rfl, rfl⟩ := Node.file.inj (Option.some.inj (h.symm.trans h'))
    rw [dif_pos ⟨hparent, hfree⟩]
  · rename_i hno
    exact absurd h (hno content mode)

theorem edit_eq {p : List N} {f : List C → M → List C × M} {t u : Tree N C M L} :
    edit p f t = some u ↔ ∃ content mode, t.node p = some (.file content mode) ∧
      u.node = Function.update t.node p
        (some (.file (f content mode).1 (f content mode).2)) := by
  constructor
  · intro h
    have hfile : ∃ content mode, t.node p = some (.file content mode) := by
      rw [edit] at h
      split at h
      · rename_i content mode hfile
        exact ⟨content, mode, hfile⟩
      · cases h
    obtain ⟨content, mode, hfile⟩ := hfile
    obtain ⟨u', hu', hnode⟩ := edit_file (f := f) hfile
    rw [h] at hu'
    obtain rfl := Option.some.inj hu'
    exact ⟨content, mode, hfile, hnode⟩
  · intro ⟨content, mode, hfile, hnode⟩
    obtain ⟨u', hu', hnode'⟩ := edit_file (f := f) hfile
    rw [hu', Tree.ext (hnode.trans hnode'.symm)]

/-! What the operations keep. -/

/-- The same kind of thing, with the same target if it is a link. -/
def Node.SameKind : Node C M L → Node C M L → Prop
  | .dir, .dir => True
  | .file _ _, .file _ _ => True
  | .link a, .link b => a = b
  | _, _ => False

theorem Node.SameKind.refl (n : Node C M L) : n.SameKind n := by
  cases n <;> simp [SameKind]

theorem Node.SameKind.trans {a b c : Node C M L} (hab : a.SameKind b) (hbc : b.SameKind c) :
    a.SameKind c := by
  cases a <;> cases b <;> cases c <;> simp_all [SameKind]

/-- Everything on the paths of `K` stays, and stays what it is. -/
def Grows (K : List N → Prop) (s t : Tree N C M L) : Prop :=
  ∀ p n, K p → s.node p = some n → ∃ n', t.node p = some n' ∧ n.SameKind n'

/-- The paths of `K` stay as they are. -/
def Leaves (K : List N → Prop) (s t : Tree N C M L) : Prop := ∀ p, K p → t.node p = s.node p

def NoLink (n : Option (Node C M L)) : Prop := ∀ target, n ≠ some (.link target)

/-- Changes are on the paths of `D` only, where there is no link before and after. -/
def Changes (D : List N → Prop) (s t : Tree N C M L) : Prop :=
  ∀ p, t.node p = s.node p ∨ D p ∧ NoLink (s.node p) ∧ NoLink (t.node p)

section Relations
variable {K D : List N → Prop} {s t : Tree N C M L}

omit [DecidableEq N] in
theorem Grows.refl (K : List N → Prop) (s : Tree N C M L) : Grows K s s :=
  fun _ n _ hn => ⟨n, hn, .refl n⟩

instance : Std.Refl (Grows (C := C) (M := M) (L := L) K) := ⟨Grows.refl K⟩

instance : IsTrans (Tree N C M L) (Grows K) where
  trans s t u hst htu := by
    intro p n hp hn
    obtain ⟨n', hn', hkind⟩ := hst p n hp hn
    obtain ⟨n'', hn'', hkind'⟩ := htu p n' hp hn'
    exact ⟨n'', hn'', hkind.trans hkind'⟩

instance : Std.Refl (Leaves (C := C) (M := M) (L := L) K) := ⟨fun _ _ _ => rfl⟩

instance : IsTrans (Tree N C M L) (Leaves K) where
  trans s t u hst htu := by
    intro p hp
    rw [htu p hp, hst p hp]

instance : Std.Refl (Changes (C := C) (M := M) (L := L) D) := ⟨fun _ _ => Or.inl rfl⟩

instance : IsTrans (Tree N C M L) (Changes D) where
  trans s t u hst htu := by
    intro p
    obtain hu | ⟨hD, hnt, hnu⟩ := htu p
    · rw [hu]
      exact hst p
    · obtain ht | ⟨_, hns, _⟩ := hst p
      · rw [ht] at hnt
        exact Or.inr ⟨hD, hnt, hnu⟩
      · exact Or.inr ⟨hD, hns, hnu⟩

omit [DecidableEq N] in
theorem through_mono {p : List N} {test : L → List N → Bool} (hK : ∀ q, q <+: p → K q)
    (h : Grows K s t) (hs : s.through p test = true) : t.through p test = true := by
  obtain ⟨q, hq, htest⟩ := List.any_eq_true.mp hs
  apply List.any_eq_true.mpr
  refine ⟨q, hq, ?_⟩
  cases hnode : s.node q with
  | none => simp [hnode] at htest
  | some n =>
    obtain ⟨n', hn', hkind⟩ := h q n (hK q ((List.mem_inits q p).mp hq)) hnode
    cases n with
    | dir => simp [hnode] at htest
    | file _ _ => simp [hnode] at htest
    | link target =>
      cases n' with
      | link target' =>
        obtain rfl : target = target' := hkind
        simpa [hnode, hn'] using htest
      | dir => exact absurd hkind id
      | file _ _ => exact absurd hkind id

omit [DecidableEq N] in
theorem exist_mono {out : Outside N L} {p : List N} (hK : ∀ q, q <+: p → K q)
    (h : Grows K s t) (hs : s.exist out p = true) : t.exist out p = true := by
  rw [Tree.exist, Bool.or_eq_true] at hs ⊢
  obtain hs | hs := hs
  · left
    cases hnode : s.node p with
    | none => simp [hnode] at hs
    | some n =>
      obtain ⟨n', hn', hkind⟩ := h p n (hK p (List.prefix_refl p)) hnode
      cases n <;> cases n' <;> simp_all [Node.SameKind]
  · exact Or.inr (through_mono hK h hs)

omit [DecidableEq N] in
theorem directory_mono {out : Outside N L} {p : List N} (hK : ∀ q, q <+: p → K q)
    (h : Grows K s t) (hs : s.directory out p = true) : t.directory out p = true := by
  rw [Tree.directory, Bool.or_eq_true] at hs ⊢
  obtain hs | hs := hs
  · left
    obtain ⟨n', hn', hkind⟩ := h p .dir (hK p (List.prefix_refl p)) (isDir_iff.mp hs)
    cases n' <;> simp_all [Node.SameKind, isDir]
  · exact Or.inr (through_mono hK h hs)

omit [DecidableEq N] in
theorem Leaves.grows (h : Leaves K s t) : Grows K s t ∧ Grows K t s := by
  constructor
  · intro p n hp hn
    exact ⟨n, by rw [h p hp, hn], .refl n⟩
  · intro p n hp hn
    exact ⟨n, by rw [← h p hp, hn], .refl n⟩

omit [DecidableEq N] in
theorem Leaves.exist_eq {out : Outside N L} {p : List N} (h : Leaves K s t)
    (hK : ∀ q, q <+: p → K q) : t.exist out p = s.exist out p := by
  rw [Bool.eq_iff_iff]
  exact ⟨exist_mono hK h.grows.2, exist_mono hK h.grows.1⟩

omit [DecidableEq N] in
/-- A change elsewhere makes and breaks nothing. -/
theorem Changes.exist_eq {out : Outside N L} {p : List N} (h : Changes D s t) (hp : ¬ D p) :
    t.exist out p = s.exist out p := by
  have hnode : t.node p = s.node p := by
    obtain hsame | ⟨hD, _⟩ := h p
    · exact hsame
    · exact absurd hD hp
  have hthrough : t.through p out.exist = s.through p out.exist := by
    rw [Tree.through, Tree.through]
    congr 1
    funext q
    obtain hsame | ⟨_, hs, ht⟩ := h q
    · rw [hsame]
    · cases hsq : s.node q with
      | none =>
        cases htq : t.node q with
        | none => rfl
        | some n => cases n <;> simp_all [NoLink]
      | some n =>
        cases htq : t.node q with
        | none => cases n <;> simp_all [NoLink]
        | some n' => cases n <;> cases n' <;> simp_all [NoLink]
  rw [Tree.exist, Tree.exist, hnode, hthrough]

theorem place_grows {p : List N} {n : Node C M L} (h : place p n s = some t) : Grows K s t := by
  obtain ⟨_, hnone, ht⟩ := place_eq.mp h
  intro q m _ hm
  have hq : q ≠ p := by
    rintro rfl
    rw [hnone] at hm
    cases hm
  rw [ht, Function.update_of_ne hq]
  exact ⟨m, hm, .refl m⟩

theorem edit_grows {p : List N} {f : List C → M → List C × M} (h : edit p f s = some t) :
    Grows K s t := by
  obtain ⟨content, mode, hfile, ht⟩ := edit_eq.mp h
  intro q m _ hm
  rw [ht]
  by_cases hq : q = p
  · rw [hq, Function.update_self]
    rw [hq, hfile] at hm
    obtain rfl := Option.some.inj hm
    exact ⟨_, rfl, trivial⟩
  · rw [Function.update_of_ne hq]
    exact ⟨m, hm, .refl m⟩

/-- What is renamed is not on the paths. -/
theorem rename_grows {dir : List N} {a b : N} (h : rename dir a b s = some t)
    (hK : ∀ q, K q → ¬ dir ++ [a] <+: q) : Grows K s t := by
  obtain ⟨_, hfree, ht⟩ := rename_eq.mp h
  intro q m hq hm
  have hb : ¬ dir ++ [b] <+: q := by
    intro hpre
    rw [s.node_eq_none hfree hpre] at hm
    cases hm
  rw [ht, moved_other hb (hK q hq)]
  exact ⟨m, hm, .refl m⟩

theorem leaves_of_update {p : List N} {n : Option (Node C M L)}
    (ht : t.node = Function.update s.node p n) (hp : ¬ K p) : Leaves K s t := by
  intro q hq
  have hne : q ≠ p := by
    rintro rfl
    exact hp hq
  rw [ht, Function.update_of_ne hne]

theorem changes_of_update {p : List N} {n : Option (Node C M L)}
    (ht : t.node = Function.update s.node p n) (hp : D p) (hs : NoLink (s.node p))
    (hn : NoLink n) : Changes D s t := by
  intro q
  by_cases hq : q = p
  · rw [hq, ht, Function.update_self]
    exact Or.inr ⟨hp, hs, hn⟩
  · rw [ht, Function.update_of_ne hq]
    exact Or.inl rfl

end Relations

end LSU.FileTree
