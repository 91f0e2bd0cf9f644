import LSU.Sweep
import LSU.Umount

/-! What lsu-umount leaves of the mount table, with the kernel behind its umount commands. -/
namespace LSU.Umount
open LSU.Mounts LSU.Paths LSU.UserDirs LSU.MirrorMounts LSU.Sweep

instance : DecidableEq Component := fun a b =>
  decidable_of_iff (a.text = b.text) ⟨Component.ext, congrArg Component.text⟩

/-- Whether the mount point of `u` is that of `m` or below it. -/
def bears (m u : Mounted) : Bool := m.path.isPrefixOf u.path

def mine (user : Str) (m : Mounted) : Bool := decide (m.mounter = user)

/-- umount(8) and the kernel behind it, at any time: the place in the table of the mount that an
attempt takes away. -/
abbrev Kernel := Nat → Attempt → List Mounted → Option Nat

/-- What is relied on for a user without privileges. umount takes the last of the mounts at the
path, and he may have only what he has mounted himself; with -f he gets it also when files are in
use, if only nothing has been mounted on or in it since. -/
structure Kernel.Obeys (kernel : Kernel) (user : Str) : Prop where
  takes : ∀ now a table place, kernel now a table = some place →
    ∃ u m v, table = u ++ m :: v ∧ u.length = place ∧ m.node = a.path ∧ m.mounter = user ∧
      ∀ w ∈ v, w.node ≠ a.path
  force : ∀ now u m v, m.mounter = user → (∀ w ∈ v, ¬ AtOrBelow m.path w.path) →
    (kernel now ⟨true, m.node⟩ (u ++ m :: v)).isSome = true

/-- With -f too, a mount on or in which something has been mounted since is busy. -/
def Kernel.Refuses (kernel : Kernel) : Prop :=
  ∀ now a u m v, kernel now a (u ++ m :: v) = some u.length →
    ∀ w ∈ v, ¬ AtOrBelow m.path w.path

/-- A mount in which no file is in use goes without -f. -/
def Kernel.Idles (kernel : Kernel) (user : Str) (inUse : Mounted → Bool) : Prop :=
  ∀ now u m v, m.mounter = user → (∀ w ∈ v, ¬ AtOrBelow m.path w.path) → inUse m = false →
    (kernel now ⟨false, m.node⟩ (u ++ m :: v)).isSome = true

def taken {β : Type*} (table : List β) : Option Nat → List β
  | none => table
  | some place => table.eraseIdx place

def tableAfter (kernel : Kernel) : Nat → List Mounted → List Attempt → List Mounted
  | _, table, [] => table
  | now, table, a :: rest => tableAfter kernel (now + 1) (taken table (kernel now a table)) rest

/-- The answers that lsu-umount gets. -/
def works (kernel : Kernel) (table : List Mounted) (done : List Attempt) (a : Attempt) : Bool :=
  (kernel done.length a (tableAfter kernel 0 table done)).isSome

variable {kernel : Kernel} {user tmpdir : Str} {inUse : Mounted → Bool} {table : List Mounted}

theorem bears_iff {m u : Mounted} : bears m u = true ↔ AtOrBelow m.path u.path := by
  rw [bears, List.isPrefixOf_iff_prefix]
  constructor
  · rintro ⟨w, hw⟩
    cases w with
    | nil => exact Or.inl (by rw [← hw, List.append_nil])
    | cons c rest => exact Or.inr ⟨c, rest, hw.symm⟩
  · rintro (heq | ⟨c, rest, hbelow⟩)
    · exact ⟨[], by rw [heq, List.append_nil]⟩
    · exact ⟨c :: rest, hbelow.symm⟩

theorem nesting : Nesting Mounted.node bears where
  same m u h := bears_iff.mpr (Or.inl (pathText_injective h))
  le m u h := PrefixCover.le_of_isPrefix (bears_iff.mp h).isPrefix
  trans m u w hmu huw := by
    rw [bears, List.isPrefixOf_iff_prefix] at hmu huw ⊢
    exact hmu.trans huw

theorem selected_iff {m : Mounted} :
    selected user tmpdir m = true ↔ m.mounter = user ∧ tmpdir <+: m.node := by
  simp [selected, List.isPrefixOf_iff_prefix]

theorem selected_bears {m u : Mounted} (h : bears m u = true) (hm : selected user tmpdir m = true)
    (hu : mine user u = true) : selected user tmpdir u = true :=
  selected_iff.mpr ⟨of_decide_eq_true hu,
    (selected_iff.mp hm).2.trans (bears_iff.mp h).isPrefix⟩

theorem selected_mine {m : Mounted} (h : selected user tmpdir m = true) : mine user m = true :=
  decide_eq_true (selected_iff.mp h).1

theorem tableAfter_append (now : Nat) (done rest : List Attempt) :
    tableAfter kernel now table (done ++ rest) =
      tableAfter kernel (now + done.length) (tableAfter kernel now table done) rest := by
  induction done generalizing now table with
  | nil => rfl
  | cons a done ih =>
    rw [List.cons_append, tableAfter, tableAfter, ih, List.length_cons, Nat.add_assoc,
      Nat.add_comm 1]

/-! One path. The entries of the table may be more than their mounts. -/

section Tries
variable {β : Type*} {f : β → Mounted} {xs : List β} {now place : Nat} {path : Str} {force : Bool}

/-- A try at a path, in a table whose entries have mounts. -/
abbrev TriedAt (kernel : Kernel) (user : Str) (f : β → Mounted) (path : Str) :
    List β → List β → Prop :=
  Tried (fun x => (f x).node) (fun x y => bears (f x) (f y)) (fun x => mine user (f x))
    kernel.Refuses path

theorem Kernel.Obeys.taken (h : kernel.Obeys user)
    (hplace : kernel now ⟨force, path⟩ (xs.map f) = some place) :
    ∃ u x v, xs = u ++ x :: v ∧ xs.eraseIdx place = u ++ v ∧ (f x).node = path ∧
      (f x).mounter = user ∧ (∀ w ∈ v, (f w).node ≠ path) ∧
      (kernel.Refuses → ∀ w ∈ v, bears (f x) (f w) = false) := by
  obtain ⟨mu, m, mv, hmap, rfl, hnode, hown, hlast⟩ := h.takes now _ _ place hplace
  obtain ⟨u, xv, rfl, rfl, hxv⟩ := List.map_eq_append_iff.mp hmap
  obtain ⟨x, v, rfl, rfl, rfl⟩ := List.map_eq_cons_iff.mp hxv
  refine ⟨u, x, v, rfl, ?_, hnode, hown, fun w hw => hlast _ (List.mem_map_of_mem hw),
    fun hrefuses w hw => ?_⟩
  · rw [List.length_map, List.eraseIdx_append_of_length_le (Nat.le_refl _), Nat.sub_self]
    rfl
  · rw [hmap] at hplace
    have hfree := hrefuses now _ _ _ _ hplace (f w) (List.mem_map_of_mem hw)
    rw [← bears_iff] at hfree
    simpa using hfree

/-- An attempt that works. -/
theorem Kernel.Obeys.tried (h : kernel.Obeys user)
    (hplace : kernel now ⟨force, path⟩ (xs.map f) = some place) :
    TriedAt kernel user f path xs (xs.eraseIdx place) := by
  obtain ⟨u, x, v, rfl, herase, hnode, hown, hlast, hbare⟩ := h.taken hplace
  rw [herase]
  exact .taken u x v hnode (decide_eq_true hown) hlast hbare

/-- The attempt with -f does not work. -/
theorem Kernel.Obeys.stuck (h : kernel.Obeys user)
    (hplace : kernel now ⟨true, path⟩ (xs.map f) = none) : TriedAt kernel user f path xs xs := by
  refine .stuck xs fun u x v hsplit hnode hown => ?_
  by_contra hfree
  have hbare : ∀ w ∈ v.map f, ¬ AtOrBelow (f x).path w.path := by
    refine List.forall_mem_map.mpr fun w hw hin => hfree ⟨w, hw, bears_iff.mpr hin⟩
  have hworks := h.force now (u.map f) (f x) (v.map f) (of_decide_eq_true hown) hbare
  rw [hnode, ← List.map_cons, ← List.map_append, ← hsplit, hplace] at hworks
  cases hworks

end Tries

/-- The attempts of the loop are a sweep of its paths. -/
theorem umountLoop_swept (h : kernel.Obeys user) (table : List Mounted) (done : List Attempt)
    (ps : List Str) :
    Swept Mounted.node bears (mine user) kernel.Refuses ps (tableAfter kernel 0 table done)
      (tableAfter kernel 0 table (umountLoop (works kernel table) done ps)) := by
  induction ps generalizing done with
  | nil => exact .nil _
  | cons p ps ih =>
    rw [umountLoop]
    have hid : (tableAfter kernel 0 table done).map id = tableAfter kernel 0 table done :=
      List.map_id _
    cases hplain : kernel done.length ⟨false, p⟩ (tableAfter kernel 0 table done) with
    | some place =>
      have hworks : works kernel table done ⟨false, p⟩ = true := by rw [works, hplain]; rfl
      rw [if_pos hworks]
      refine .cons ?_ (ih _)
      rw [tableAfter_append, Nat.zero_add, tableAfter, hplain]
      rw [← hid] at hplain
      exact h.tried hplain
    | none =>
      have hworks : ¬ works kernel table done ⟨false, p⟩ = true := by
        rw [works, hplain]
        simp
      rw [if_neg hworks]
      refine .cons ?_ (ih _)
      rw [tableAfter_append, Nat.zero_add, tableAfter, hplain, taken, tableAfter]
      cases hforce : kernel (done.length + 1) ⟨true, p⟩ (tableAfter kernel 0 table done) with
      | some place =>
        rw [← hid] at hforce
        exact h.tried hforce
      | none =>
        rw [← hid] at hforce
        exact h.stuck hforce

theorem key_paths {m : Mounted} (h : m.node ∈ paths table user tmpdir) (hm : mine user m = true) :
    selected user tmpdir m = true := by
  obtain ⟨u, _, _, hpre, hnode⟩ := mem_paths.mp h
  exact selected_iff.mpr ⟨of_decide_eq_true hm, hnode ▸ hpre⟩

theorem paths_perm :
    (paths table user tmpdir).Perm ((table.filter (selected user tmpdir)).map Mounted.node) := by
  rw [paths]
  exact (List.reverse_perm _).trans (List.perm_insertionSort (· ≤ ·) _)

theorem umountLoop_leaves (h : kernel.Obeys user) (table : List Mounted) (tmpdir : Str) :
    let rest := tableAfter kernel 0 table
      (umountLoop (works kernel table) [] (paths table user tmpdir))
    rest.Sublist (leftBehind bears (mine user) (selected user tmpdir) table) ∧
      rest.filter (fun m => !selected user tmpdir m) =
        table.filter (fun m => !selected user tmpdir m) ∧
      (kernel.Refuses → rest = leftBehind bears (mine user) (selected user tmpdir) table) :=
  (umountLoop_swept h table [] (paths table user tmpdir)).leaves nesting (fun _ => selected_mine)
    (fun _ _ => selected_bears) paths_descend (fun _ hm => key_paths hm)
    ((going_sublist_filter.map Mounted.node).subperm.trans paths_perm.symm.subperm)

def selectedIn (user : Str) (tmpdir : Option (List Component)) (m : Mounted) : Bool :=
  tmpdir.any fun dir => selected user (pathText dir) m

/-- The mounts that are not selected, and those on or in which another user has mounted something
since. -/
def leaves (user : Str) (tmpdir : Option (List Component)) (table : List Mounted) : List Mounted :=
  leftBehind bears (mine user) (selectedIn user tmpdir) table

/-- lsu-umount leaves what is not its own, and of its own at most what is held by a mount of
another user on or in it; just that, where umount never takes such a mount. -/
theorem umount_leaves (kernel : Kernel) (user : Str) (table : List Mounted)
    (tmpdir : Option (List Component)) (hkernel : kernel.Obeys user) :
    let rest := tableAfter kernel 0 table (lsuUmount (works kernel table) table user tmpdir)
    rest.Sublist (leaves user tmpdir table) ∧
      rest.filter (fun m => !selectedIn user tmpdir m) =
        table.filter (fun m => !selectedIn user tmpdir m) ∧
      (kernel.Refuses → rest = leaves user tmpdir table) := by
  cases tmpdir with
  | none =>
    have hnone : leaves user none table = table := by
      refine leftBehind_eq_of_going (List.eq_nil_iff_forall_not_mem.mpr fun m hm => ?_)
      cases sel_of_mem_going hm
    rw [hnone]
    exact ⟨.refl table, rfl, fun _ => rfl⟩
  | some dir =>
    exact umountLoop_leaves hkernel table (pathText dir)

theorem umountLoop_plainly (h : kernel.Obeys user) (hidle : kernel.Idles user inUse)
    (table : List Mounted) (done : List Attempt) {ps : List Str} (hps : ps.Pairwise fun p q => q ≤ p)
    (hkey : ∀ m : Mounted, m.node ∈ ps → mine user m = true → selected user tmpdir m = true)
    (hperm : ((going bears (mine user) (selected user tmpdir)
      (tableAfter kernel 0 table done)).map Mounted.node).Perm ps)
    (hfree : ∀ m ∈ tableAfter kernel 0 table done, selected user tmpdir m = true →
      inUse m = false) :
    umountLoop (works kernel table) done ps = done ++ ps.map (⟨false, ·⟩) := by
  induction ps generalizing done with
  | nil => simp [umountLoop]
  | cons p ps ih =>
    obtain ⟨hle, hps'⟩ := List.pairwise_cons.mp hps
    have hlast : ∀ m ∈ going bears (mine user) (selected user tmpdir)
        (tableAfter kernel 0 table done), m.node ≤ p := fun m hm =>
      (List.mem_cons.mp (hperm.mem_iff.mp (List.mem_map_of_mem hm))).elim (fun h => h.le)
        (hle m.node)
    have hgoes : ∃ m ∈ going bears (mine user) (selected user tmpdir)
        (tableAfter kernel 0 table done), m.node = p :=
      List.mem_map.mp (hperm.mem_iff.mpr List.mem_cons_self)
    obtain ⟨u, m, v, htable, hnode, hsel, hbare⟩ :=
      exists_bare nesting (fun m u => selected_bears) hlast hgoes
    have hmem : m ∈ tableAfter kernel 0 table done := by simp [htable]
    have hworks : works kernel table done ⟨false, p⟩ = true := by
      rw [works, htable, ← hnode]
      refine hidle _ u m v (selected_iff.mp hsel).1 (fun w hw hin => ?_) (hfree m hmem hsel)
      have hno := hbare w hw
      rw [bears_iff.mpr hin] at hno
      cases hno
    obtain ⟨place, hplace⟩ := Option.isSome_iff_exists.mp hworks
    have hnext : tableAfter kernel 0 table (done ++ [⟨false, p⟩]) =
        (tableAfter kernel 0 table done).eraseIdx place := by
      rw [tableAfter_append, Nat.zero_add, tableAfter, hplace]
      rfl
    have htried : TriedAt kernel user id p (tableAfter kernel 0 table done)
        ((tableAfter kernel 0 table done).eraseIdx place) := by
      rw [← List.map_id (tableAfter kernel 0 table done)] at hplace
      exact h.tried hplace
    have hhere : ∀ m : Mounted, m.node = p → mine user m = true → selected user tmpdir m = true :=
      fun m hm => hkey m (List.mem_cons.mpr (Or.inl hm))
    rw [umountLoop, if_pos hworks, ih _ hps' (fun m hm => hkey m (List.mem_cons_of_mem p hm))]
    · simp
    · rw [hnext]
      exact htried.rest nesting (fun _ => selected_mine) (fun m u => selected_bears) hhere hps hperm
    · rw [hnext]
      exact fun m hm => hfree m (htried.sublist.mem hm)

/-- With nothing of another user on or in its mounts and no file in use there, each of them
goes at the first attempt, without -f, and nothing else does. -/
theorem umount_clears (kernel : Kernel) (user : Str) (inUse : Mounted → Bool)
    (table : List Mounted) (dir : List Component) (hkernel : kernel.Obeys user)
    (hidle : kernel.Idles user inUse)
    (halone : ∀ m ∈ table, selected user (pathText dir) m = true →
      ∀ u ∈ table, AtOrBelow m.path u.path → u.mounter = user)
    (hfree : ∀ m ∈ table, selected user (pathText dir) m = true → inUse m = false) :
    lsuUmount (works kernel table) table user (some dir) =
        (paths table user (pathText dir)).map (⟨false, ·⟩) ∧
      tableAfter kernel 0 table (lsuUmount (works kernel table) table user (some dir)) =
        table.filter fun m => !selected user (pathText dir) m := by
  have halone' : ∀ m ∈ table, selected user (pathText dir) m = true → ∀ u ∈ table,
      bears m u = true → mine user u = true :=
    fun m hm hsel u hu hbears => decide_eq_true (halone m hm hsel u hu (bears_iff.mp hbears))
  obtain ⟨hgoing, hleft⟩ := going_eq_filter halone'
  obtain ⟨hsub, hfilter, -⟩ := umountLoop_leaves hkernel table (pathText dir)
  constructor
  · have hperm : ((going bears (mine user) (selected user (pathText dir))
        (tableAfter kernel 0 table [])).map Mounted.node).Perm
        (paths table user (pathText dir)) := by
      rw [tableAfter, hgoing]
      exact paths_perm.symm
    exact umountLoop_plainly hkernel hidle table [] paths_descend (fun m hm => key_paths hm)
      hperm hfree
  · rw [hleft] at hsub
    rw [lsuUmount, ← hfilter, List.filter_eq_self.mpr]
    exact fun m hm => (List.mem_filter.mp (hsub.mem hm)).2

/-! A kernel that refuses to unmount what something else has been mounted on or in. -/

def grants (user : Str) (inUse : Mounted → Bool) (a : Attempt) : List Mounted → Option Nat
  | [] => none
  | m :: later =>
    if later.any (fun u => decide (u.node = a.path)) = true then
      (grants user inUse a later).map (· + 1)
    else if m.node = a.path ∧ m.mounter = user ∧ (a.force || !inUse m) = true ∧
        later.any (bears m) = false then
      some 0
    else none

def strict (user : Str) (inUse : Mounted → Bool) : Kernel := fun _ a table =>
  grants user inUse a table

theorem grants_split {a : Attempt} {place : Nat} (h : grants user inUse a table = some place) :
    ∃ u m v, table = u ++ m :: v ∧ u.length = place ∧ m.node = a.path ∧ m.mounter = user ∧
      (∀ w ∈ v, w.node ≠ a.path) ∧ ∀ w ∈ v, bears m w = false := by
  induction table generalizing place with
  | nil => cases h
  | cons m later ih =>
    rw [grants] at h
    split at h
    · obtain ⟨rest, hrest, rfl⟩ := Option.map_eq_some_iff.mp h
      obtain ⟨u, x, v, rfl, rfl, hx⟩ := ih hrest
      exact ⟨m :: u, x, v, rfl, rfl, hx⟩
    · rename_i hlast
      obtain ⟨⟨hnode, hown, -, hbare⟩, hplace⟩ := Option.ite_none_right_eq_some.mp h
      refine ⟨[], m, later, rfl, Option.some.inj hplace, hnode, hown, fun w hw heq => ?_,
        fun w hw => ?_⟩
      · exact hlast (List.any_eq_true.mpr ⟨w, hw, decide_eq_true heq⟩)
      · simpa using List.any_eq_false.mp hbare w hw

theorem grants_bare {m : Mounted} {force : Bool} {u v : List Mounted} (hown : m.mounter = user)
    (hbare : ∀ w ∈ v, ¬ AtOrBelow m.path w.path) (hfree : (force || !inUse m) = true) :
    (grants user inUse ⟨force, m.node⟩ (u ++ m :: v)).isSome = true := by
  induction u with
  | nil =>
    have hnone : ¬ v.any (fun w => decide (w.node = m.node)) = true := by
      rw [List.any_eq_true]
      rintro ⟨w, hw, hnode⟩
      have hpath : w.path = m.path := pathText_injective (of_decide_eq_true hnode)
      exact hbare w hw (Or.inl hpath)
    have hany : v.any (bears m) = false :=
      List.any_eq_false.mpr fun w hw hbears => hbare w hw (bears_iff.mp hbears)
    rw [List.nil_append, grants, if_neg hnone, if_pos ⟨rfl, hown, hfree, hany⟩]
    rfl
  | cons x u ih =>
    have hsome : (u ++ m :: v).any (fun w => decide (w.node = m.node)) = true :=
      List.any_eq_true.mpr ⟨m, by simp, decide_eq_true rfl⟩
    rw [List.cons_append, grants, if_pos hsome, Option.isSome_map]
    exact ih

theorem strict_obeys (user : Str) (inUse : Mounted → Bool) : (strict user inUse).Obeys user where
  takes _ _ _ _ h := by
    obtain ⟨u, m, v, htable, hplace, hnode, hown, hlast, -⟩ := grants_split h
    exact ⟨u, m, v, htable, hplace, hnode, hown, hlast⟩
  force _ _ _ _ hown hbare := grants_bare hown hbare rfl

theorem strict_idles (user : Str) (inUse : Mounted → Bool) :
    (strict user inUse).Idles user inUse := by
  intro _ u m v hown hbare hidle
  exact grants_bare hown hbare (by rw [hidle]; rfl)

theorem strict_refuses (user : Str) (inUse : Mounted → Bool) : (strict user inUse).Refuses := by
  intro _ a u m v hplace w hw hin
  obtain ⟨u', m', v', htable, hlength, -, -, -, hbare⟩ := grants_split hplace
  obtain ⟨-, hmv⟩ := List.append_inj htable hlength.symm
  obtain ⟨rfl, rfl⟩ := List.cons.inj hmv
  have hno := hbare w hw
  rw [bears_iff.mpr hin] at hno
  cases hno

/-- A tmpfs and a runtime in it, and the home directory of the user, which root mounted. -/
def ownTable : List Mounted :=
  [⟨"user".toList, steamTmp⟩, ⟨"root".toList, [component "home" (by decide)]⟩,
    ⟨"user".toList, steamTmp ++ [component "sniper" (by decide)]⟩]

/-- Root has mounted something in the runtime. -/
def heldTable : List Mounted :=
  ownTable ++ [⟨"root".toList, steamTmp ++ [component "sniper" (by decide),
    component "files" (by decide)]⟩]

theorem umount_leaves_held :
    tableAfter (strict "user".toList fun _ => true) 0 heldTable
      (lsuUmount (works (strict "user".toList fun _ => true) heldTable) heldTable "user".toList
        (some steamTmp)) = heldTable := by
  obtain ⟨-, -, hexact⟩ := umount_leaves (strict "user".toList fun _ => true) "user".toList
    heldTable (some steamTmp) (strict_obeys _ _)
  exact (hexact (strict_refuses _ _)).trans rfl

theorem umount_clears_own :
    lsuUmount (works (strict "user".toList fun _ => false) ownTable) ownTable "user".toList
        (some steamTmp) =
      [⟨false, "/steam/tmp/sniper".toList⟩, ⟨false, "/steam/tmp".toList⟩] := by
  refine (umount_clears (strict "user".toList fun _ => false) "user".toList (fun _ => false)
    ownTable steamTmp (strict_obeys _ _) (strict_idles _ _) ?_ fun _ _ _ => rfl).1.trans (by decide)
  have hin : ∀ u ∈ ownTable, u.mounter = "user".toList ∨ ¬ steamTmp <+: u.path := by decide
  intro m hm hsel u hu hbelow
  obtain huser | hout := hin u hu
  · exact huser
  · have hdir : bears ⟨[], steamTmp⟩ m = true := by
      have hall : ∀ m ∈ ownTable, selected "user".toList (pathText steamTmp) m = true →
          bears ⟨[], steamTmp⟩ m = true := by decide
      exact hall m hm hsel
    have htrans := nesting.trans ⟨[], steamTmp⟩ m u hdir (bears_iff.mpr hbelow)
    rw [bears, List.isPrefixOf_iff_prefix] at htrans
    exact absurd htrans hout

end LSU.Umount
