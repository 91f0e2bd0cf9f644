import Mathlib.Data.List.Count
import LSU.MirrorMounts

/-! lsu-umount: which mounts it tries to unmount, and in what order. Nodes are paths, as the
kernel keeps them. -/
namespace LSU.Umount
open LSU.Mounts LSU.Paths LSU.UserDirs LSU.MirrorMounts LSU.PrefixCover

/-- An entry of `mount --libxo json`. -/
structure Mounted where
  mounter : Str
  path : List Component

def Mounted.node (m : Mounted) : Str := pathText m.path

/-- An umount of the path, with or without -f. -/
structure Attempt where
  force : Bool
  path : Str
deriving DecidableEq

/-- `m['mounter'] == user && m['node'].start_with?(tmpdir)` -/
def selected (user tmpdir : Str) (m : Mounted) : Bool :=
  decide (m.mounter = user) && tmpdir.isPrefixOf m.node

def paths (table : List Mounted) (user tmpdir : Str) : List Str :=
  (((table.filter (selected user tmpdir)).map Mounted.node).insertionSort (· ≤ ·)).reverse

/-- The loop behind the attempts `done`; `works` may answer by what has been tried so far. -/
def umountLoop (works : List Attempt → Attempt → Bool) : List Attempt → List Str → List Attempt
  | done, [] => done
  | done, path :: rest =>
    if works done ⟨false, path⟩ = true then
      umountLoop works (done ++ [⟨false, path⟩]) rest
    else
      umountLoop works (done ++ [⟨false, path⟩, ⟨true, path⟩]) rest

/-- The attempts of a run. `tmpdir` is the real path of LSU_TMPDIR_PATH, if that exists. -/
def lsuUmount (works : List Attempt → Attempt → Bool) (table : List Mounted) (user : Str)
    (tmpdir : Option (List Component)) : List Attempt :=
  match tmpdir with
  | none => []
  | some dir => umountLoop works [] (paths table user (pathText dir))

variable {works : List Attempt → Attempt → Bool} {table : List Mounted} {user tmpdir : Str}

theorem mem_paths {path : Str} :
    path ∈ paths table user tmpdir ↔
      ∃ m ∈ table, m.mounter = user ∧ tmpdir <+: m.node ∧ m.node = path := by
  rw [paths, List.mem_reverse, List.mem_insertionSort, List.mem_map]
  simp only [List.mem_filter, selected, Bool.and_eq_true, decide_eq_true_eq,
    List.isPrefixOf_iff_prefix, and_assoc]

/-- The list is sorted backwards. -/
theorem paths_descend : (paths table user tmpdir).Pairwise fun p q => q ≤ p := by
  rw [paths, List.pairwise_reverse]
  exact List.pairwise_insertionSort (· ≤ ·) _

/-- Every path is tried once without -f, whatever becomes of the attempts. -/
theorem umountLoop_plain (done : List Attempt) (ps : List Str) :
    (umountLoop works done ps).filter (fun a => !a.force) =
      done.filter (fun a => !a.force) ++ ps.map (⟨false, ·⟩) := by
  induction ps generalizing done with
  | nil => simp [umountLoop]
  | cons p ps ih =>
    rw [umountLoop]
    split
    · rw [ih]
      simp
    · rw [ih]
      simp

/-- Whatever holds of the attempts so far and of both attempts at each path holds of all. -/
theorem umountLoop_forall {P : Str → Prop} {done : List Attempt} {ps : List Str}
    (hdone : ∀ a ∈ done, P a.path) (hps : ∀ p ∈ ps, P p) :
    ∀ a ∈ umountLoop works done ps, P a.path := by
  induction ps generalizing done with
  | nil => exact hdone
  | cons p ps ih =>
    have hp := hps p List.mem_cons_self
    have hrest : ∀ q ∈ ps, P q := fun q hq => hps q (List.mem_cons_of_mem p hq)
    rw [umountLoop]
    split
    · refine ih (fun a ha => ?_) hrest
      obtain hold | hnew := List.mem_append.mp ha
      · exact hdone a hold
      · rw [List.mem_singleton.mp hnew]
        exact hp
    · refine ih (fun a ha => ?_) hrest
      obtain hold | hnew := List.mem_append.mp ha
      · exact hdone a hold
      · have hpath : a.path = p := by
          simp only [List.mem_cons, List.not_mem_nil, or_false] at hnew
          obtain rfl | rfl := hnew <;> rfl
        rw [hpath]
        exact hp

theorem umountLoop_descends {done : List Attempt} {ps : List Str}
    (hdone : done.Pairwise fun a b => b.path ≤ a.path)
    (hps : ps.Pairwise fun p q => q ≤ p) (hboth : ∀ a ∈ done, ∀ p ∈ ps, p ≤ a.path) :
    (umountLoop works done ps).Pairwise fun a b => b.path ≤ a.path := by
  induction ps generalizing done with
  | nil => exact hdone
  | cons p ps ih =>
    obtain ⟨hp, hps⟩ := List.pairwise_cons.mp hps
    have hdonep : ∀ a ∈ done, p ≤ a.path := fun a ha => hboth a ha p List.mem_cons_self
    have hrest : ∀ a ∈ done, ∀ q ∈ ps, q ≤ a.path :=
      fun a ha q hq => hboth a ha q (List.mem_cons_of_mem p hq)
    rw [umountLoop]
    split
    · refine ih ?_ hps ?_
      · simpa [List.pairwise_append] using ⟨hdone, hdonep⟩
      · simpa [or_imp, forall_and] using ⟨hrest, hp⟩
    · refine ih ?_ hps ?_
      · simpa [List.pairwise_append] using ⟨hdone, hdonep⟩
      · simpa [or_imp, forall_and] using ⟨hrest, hp⟩

/-! What is below the directory, and what only looks like it. -/

/-- Behind the text of a directory that is not the root, a separator leads below it. -/
theorem below_iff_slash {dir path : List Component} (hdir : dir ≠ []) :
    Below dir path ↔ ∃ rest, pathText path = pathText dir ++ '/' :: rest := by
  have hpath : path ≠ [] → ((∃ rest, pathText path = pathText dir ++ '/' :: rest) ↔
      slashed dir ++ ['/'] <+: slashed path) := by
    intro hne
    rw [pathText, pathText, if_neg hdir, if_neg hne]
    constructor
    · rintro ⟨rest, h⟩
      exact ⟨rest, by simp [h]⟩
    · rintro ⟨rest, h⟩
      exact ⟨rest, by simp [← h]⟩
  by_cases hne : path = []
  · constructor
    · intro h
      have := h.length_lt
      simp [hne] at this
    · rintro ⟨rest, h⟩
      have hlen := congrArg List.length h
      have hpos := List.length_pos_of_ne_nil (mt slashed_eq_nil.mp hdir)
      simp only [pathText, if_neg hdir, hne, if_true, List.length_append, List.length_cons,
        List.length_nil] at hlen
      omega
  · rw [hpath hne, slashed_below]
    rfl

/-- The directory itself and what is below it. -/
def AtOrBelow (dir path : List Component) : Prop := path = dir ∨ Below dir path

theorem AtOrBelow.isPrefix {dir path : List Component} (h : AtOrBelow dir path) :
    pathText dir <+: pathText path := by
  obtain rfl | hbelow := h
  · exact List.prefix_refl _
  · exact hbelow.isPrefix

/-- A character behind the text of the directory is a separator. -/
theorem AtOrBelow.next {dir path : List Component} (h : AtOrBelow dir path) (hdir : dir ≠ [])
    {c : Char} {rest : Str} (htext : pathText path = pathText dir ++ c :: rest) : c = '/' := by
  obtain rfl | hbelow := h
  · simp at htext
  · obtain ⟨rest', h⟩ := (below_iff_slash hdir).mp hbelow
    exact (List.cons.inj (List.append_cancel_left (htext.symm.trans h))).1

theorem atOrBelow_of_next {dir path : List Component} (hdir : dir ≠ [])
    (hpre : pathText dir <+: pathText path)
    (hnext : ∀ c rest, pathText path = pathText dir ++ c :: rest → c = '/') :
    AtOrBelow dir path := by
  obtain ⟨w, hw⟩ := hpre
  cases w with
  | nil => exact Or.inl (pathText_injective (by rw [← hw, List.append_nil]))
  | cons c rest =>
    apply Or.inr
    rw [below_iff_slash hdir, ← hw, hnext c rest hw.symm]
    exact ⟨rest, rfl⟩

theorem atOrBelow_root (path : List Component) : AtOrBelow [] path := by
  cases path with
  | nil => exact Or.inl rfl
  | cons c rest => exact Or.inr ⟨c, rest, rfl⟩

theorem plain_attempt {path : Str} {dir : List Component}
    (h : path ∈ paths table user (pathText dir)) :
    (⟨false, path⟩ : Attempt) ∈ lsuUmount works table user (some dir) := by
  have hplain := @umountLoop_plain works [] (paths table user (pathText dir))
  have hmem : (⟨false, path⟩ : Attempt) ∈
      (lsuUmount works table user (some dir)).filter (fun a => !a.force) := by
    rw [lsuUmount, hplain]
    simpa using h
  exact List.mem_of_mem_filter hmem

/-- Every attempt is at a mount of the user in LSU_TMPDIR_PATH, if and only if that is the root
or no mount of the user continues its text but with a separator. -/
theorem umounts_within_iff (works : List Attempt → Attempt → Bool) (table : List Mounted)
    (user : Str) (tmpdir : Option (List Component)) :
    (∀ a ∈ lsuUmount works table user tmpdir, ∃ dir, tmpdir = some dir ∧
        ∃ m ∈ table, m.mounter = user ∧ m.node = a.path ∧ AtOrBelow dir m.path) ↔
      ∀ dir, tmpdir = some dir → dir ≠ [] → ∀ m ∈ table, m.mounter = user →
        ∀ c rest, m.node = pathText dir ++ c :: rest → c = '/' := by
  constructor
  · rintro h dir rfl hdir m hm huser c rest hnode
    have hpath : m.node ∈ paths table user (pathText dir) :=
      mem_paths.mpr ⟨m, hm, huser, ⟨c :: rest, hnode.symm⟩, rfl⟩
    obtain ⟨dir', hdir', m', -, -, hnode', hbelow⟩ := h _ (plain_attempt hpath)
    obtain rfl := Option.some.inj hdir'
    rw [pathText_injective hnode'] at hbelow
    exact hbelow.next hdir hnode
  · intro h a ha
    cases tmpdir with
    | none => cases ha
    | some dir =>
      refine ⟨dir, rfl, ?_⟩
      refine umountLoop_forall (P := fun path => ∃ m ∈ table, m.mounter = user ∧
        m.node = path ∧ AtOrBelow dir m.path) (by simp) (fun p hp => ?_) a ha
      obtain ⟨m, hm, huser, hpre, hnode⟩ := mem_paths.mp hp
      refine ⟨m, hm, huser, hnode, ?_⟩
      by_cases hdir : dir = []
      · rw [hdir]
        exact atOrBelow_root m.path
      · exact atOrBelow_of_next hdir hpre (h dir rfl hdir m hm huser)

def component (name : String) (h : name.toList ≠ [] ∧ '/' ∉ name.toList) : Component :=
  ⟨name.toList, h.1, h.2⟩

def steamTmp : List Component := [component "steam" (by decide), component "tmp" (by decide)]

/-- A mount next to the directory whose name goes on. -/
def siblingTable : List Mounted :=
  [⟨"user".toList, [component "steam" (by decide), component "tmp2" (by decide)]⟩]

theorem sibling_unmounted :
    ⟨false, "/steam/tmp2".toList⟩ ∈
        lsuUmount (fun _ _ => true) siblingTable "user".toList (some steamTmp) ∧
      ∀ m ∈ siblingTable, ¬ AtOrBelow steamTmp m.path := by
  refine ⟨by decide, fun m hm hin => ?_⟩
  obtain rfl := List.mem_singleton.mp hm
  have htext : "/steam/tmp2".toList = pathText steamTmp ++ '2' :: [] := by decide
  have hslash := hin.next (by decide) htext
  exact absurd hslash (by decide)

/-! The order of the attempts. -/

theorem count_attempts (works : List Attempt → Attempt → Bool) (table : List Mounted) (user : Str)
    {dir path : List Component} (h : AtOrBelow dir path) :
    (lsuUmount works table user (some dir)).count ⟨false, pathText path⟩ =
      table.countP fun m => decide (m.mounter = user ∧ m.node = pathText path) := by
  have hplain := @umountLoop_plain works [] (paths table user (pathText dir))
  have hinj : Function.Injective (fun p => (⟨false, p⟩ : Attempt)) := by
    intro p q hpq
    exact (Attempt.mk.inj hpq).2
  calc
    (lsuUmount works table user (some dir)).count ⟨false, pathText path⟩
        = ((lsuUmount works table user (some dir)).filter (fun a => !a.force)).count
            ⟨false, pathText path⟩ := (List.count_filter rfl).symm
    _ = (paths table user (pathText dir)).count (pathText path) := by
        rw [lsuUmount, hplain, List.filter_nil, List.nil_append]
        exact List.count_map_of_injective _ _ hinj _
    _ = ((table.filter (selected user (pathText dir))).map Mounted.node).count
          (pathText path) := by
        rw [paths, List.count_reverse]
        exact (List.perm_insertionSort (· ≤ ·) _).count_eq _
    _ = table.countP fun m => decide (m.mounter = user ∧ m.node = pathText path) := by
        rw [List.count, List.countP_map, List.countP_filter]
        apply List.countP_congr
        intro m _
        have hpre : m.node = pathText path → pathText dir <+: m.node := fun heq => heq ▸ h.isPrefix
        simp only [Function.comp, selected, Bool.and_eq_true, beq_iff_eq, decide_eq_true_eq,
          List.isPrefixOf_iff_prefix]
        constructor
        · rintro ⟨hnode, huser, -⟩
          exact ⟨huser, hnode⟩
        · rintro ⟨huser, hnode⟩
          exact ⟨hnode, huser, hpre hnode⟩

/-- Each mount of the user in the directory is tried as often as it is in the table, whatever
becomes of the attempts, and never before one below it. -/
theorem umounts_children_first (works : List Attempt → Attempt → Bool) (table : List Mounted)
    (user : Str) (dir : List Component) :
    (∀ path, AtOrBelow dir path →
        (lsuUmount works table user (some dir)).count ⟨false, pathText path⟩ =
          table.countP fun m => decide (m.mounter = user ∧ m.node = pathText path)) ∧
      ∀ u a v, lsuUmount works table user (some dir) = u ++ a :: v → ∀ b ∈ v, ∀ p q,
        a.path = pathText p → b.path = pathText q → ¬ Below p q := by
  refine ⟨fun path h => count_attempts works table user h, ?_⟩
  intro u a v hattempts b hb p q hp hq hbelow
  have hdescends : (lsuUmount works table user (some dir)).Pairwise
      fun a b => b.path ≤ a.path :=
    umountLoop_descends .nil paths_descend (by simp)
  rw [hattempts] at hdescends
  have hle := (List.pairwise_cons.mp (List.pairwise_append.mp hdescends).2.1).1 b hb
  rw [hp, hq] at hle
  exact hbelow.not_le hle

/-- Two mounts on one node, and one below it with a character that sorts before the separator. -/
def stackedTable : List Mounted :=
  let sys := steamTmp ++ [component "sys" (by decide)]
  [⟨"user".toList, sys⟩, ⟨"user".toList, sys ++ [component "-" (by decide)]⟩,
    ⟨"root".toList, sys⟩, ⟨"user".toList, sys⟩]

theorem umounts_children_first_stacked :
    (lsuUmount (fun _ _ => false) stackedTable "user".toList (some steamTmp)).count
      ⟨false, "/steam/tmp/sys".toList⟩ = 2 := by
  have hbelow : AtOrBelow steamTmp (steamTmp ++ [component "sys" (by decide)]) :=
    Or.inr ⟨_, [], rfl⟩
  have hcount := (umounts_children_first (fun _ _ => false) stackedTable "user".toList
    steamTmp).1 _ hbelow
  exact hcount.trans (by decide)

end LSU.Umount
