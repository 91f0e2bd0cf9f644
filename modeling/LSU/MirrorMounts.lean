import LSU.MountRuntime
import LSU.PrefixCover
import LSU.UserDirs

/-! The loop of mirror_mounts over mounts whose outcomes are given: what try_mount_user_dir
makes of each of them if it is asked to mount it. -/
namespace LSU.MirrorMounts
open LSU.Program LSU.Program.Script LSU.Mounts LSU.MountRuntime LSU.Paths LSU.UserDirs
open LSU.PrefixCover

/-- A line of the mount table. -/
structure Entry where
  path : List Component
  fstype : Str

def Entry.node (e : Entry) : Str := pathText e.path

def Entry.info (e : Entry) : MountInfo := ⟨e.node, e.fstype⟩

/-- `outcome` is what try_mount_user_dir returns for the node, the target or nil. -/
structure Mount extends Entry where
  outcome : Option Str

/-- The mounts that are passed to try_mount_user_dir, in order. -/
def mirror : List Mount → Option Str → List Mount
  | [], _ => []
  | m :: rest, nodeToSkip =>
    if nodeToSkip.any (·.isPrefixOf m.node) = true then
      mirror rest nodeToSkip
    else if skippedFstype m.fstype = true then
      mirror rest (some m.node)
    else
      m :: mirror rest (if m.outcome.isSome then none else some m.node)

/-- `node_to_skip` behind the turn of a mount. -/
def nodeToSkipAfter (nodeToSkip : Option Str) (m : Mount) : Option Str :=
  if nodeToSkip.any (·.isPrefixOf m.node) = true then nodeToSkip
  else if skippedFstype m.fstype = true then some m.node
  else if m.outcome.isSome then none else some m.node

theorem mirror_append (u v : List Mount) (nodeToSkip : Option Str) :
    mirror (u ++ v) nodeToSkip =
      mirror u nodeToSkip ++ mirror v (u.foldl nodeToSkipAfter nodeToSkip) := by
  induction u generalizing nodeToSkip with
  | nil => rfl
  | cons m u ih =>
    rw [List.cons_append, mirror, mirror, List.foldl_cons, nodeToSkipAfter, ih, ih, ih]
    split_ifs <;> rfl

/-- Of a type that is skipped, or not to be had. -/
def Barred (m : Mount) : Prop := skippedFstype m.fstype = true ∨ m.outcome = none

/-- `node_to_skip` tells at each turn what the mounts before it bar. -/
theorem nodeToSkip_iff {u : List Mount} {k : Str}
    (hsorted : u.Pairwise fun m m' => m.node ≤ m'.node) (hk : ∀ m ∈ u, m.node ≤ k) :
    (u.foldl nodeToSkipAfter none).any (·.isPrefixOf k) = true ↔
      Covered (fun m : Mount => m.node) Barred u k := by
  induction u using List.reverseRecOn generalizing k with
  | nil => simp [Covered]
  | append_singleton u x ih =>
    have hu : ∀ m ∈ u, m.node ≤ x.node := by
      intro m hm
      exact (List.pairwise_append.mp hsorted).2.2 m hm x (List.mem_singleton_self x)
    have hu' := (List.pairwise_append.mp hsorted).1
    have hxk := hk x (by simp)
    have hx := ih hu' hu
    have hrest := ih hu' fun m hm => hk m (List.mem_append_left [x] hm)
    rw [List.foldl_append, List.foldl_cons, List.foldl_nil, nodeToSkipAfter]
    by_cases hcov : Covered (fun m : Mount => m.node) Barred u x.node
    · rw [if_pos (hx.mpr hcov), hrest, covered_append_of_covered hcov]
    · rw [if_neg (mt hx.mp hcov), covered_append_of_not_covered hu hxk hcov, Barred]
      cases hout : x.outcome with
      | none => by_cases hskip : skippedFstype x.fstype = true <;> simp [hskip]
      | some target => by_cases hskip : skippedFstype x.fstype = true <;> simp [hskip]

/-- Strictly below a directory, as a path. -/
def Below (dir path : List Component) : Prop := ∃ c rest, path = dir ++ c :: rest

theorem Below.trans {a b c : List Component} (hab : Below a b) (hbc : Below b c) : Below a c := by
  obtain ⟨d, u, rfl⟩ := hab
  obtain ⟨e, v, rfl⟩ := hbc
  exact ⟨d, u ++ e :: v, by simp⟩

theorem Below.length_lt {a b : List Component} (h : Below a b) : a.length < b.length := by
  obtain ⟨c, rest, rfl⟩ := h
  simp

theorem pathText_injective : Function.Injective pathText := by
  have hroot : ∀ (c : Component) rest, pathText (c :: rest) ≠ pathText [] := by
    intro c rest h
    rw [pathText, if_neg (List.cons_ne_nil c rest), slashed_cons] at h
    obtain ⟨x, hx, -⟩ := c.head?_ne (slashed rest)
    rw [(List.cons.inj h).2] at hx
    cases hx
  intro a b h
  cases a with
  | nil =>
    cases b with
    | nil => rfl
    | cons c b => exact absurd h.symm (hroot c b)
  | cons c a =>
    cases b with
    | nil => exact absurd h (hroot c a)
    | cons d b =>
      rw [pathText, pathText, if_neg (List.cons_ne_nil c a), if_neg (List.cons_ne_nil d b)] at h
      exact slashed_injective h

/-- Ancestors have shorter texts that are prefixes. -/
theorem Below.isPrefix {a b : List Component} (h : Below a b) : pathText a <+: pathText b := by
  obtain ⟨c, rest, rfl⟩ := h
  rw [pathText, pathText, if_neg (show a ++ c :: rest ≠ [] by simp), slashed_append]
  by_cases ha : a = []
  · rw [if_pos ha, ha, slashed_nil, List.nil_append, slashed_cons]
    exact ⟨c.text ++ slashed rest, rfl⟩
  · rw [if_neg ha]
    exact List.prefix_append _ _

theorem Below.not_le {a b : List Component} (h : Below a b) : ¬ pathText b ≤ pathText a := by
  intro hle
  have heq := le_antisymm hle (le_of_isPrefix h.isPrefix)
  have hlen := h.length_lt
  rw [pathText_injective heq] at hlen
  exact absurd hlen (Nat.lt_irrefl _)

/-- A text of the directory, maybe with separators at its end. -/
def DirText (text : Str) (dir : List Component) : Prop :=
  text.rdropWhile (· = '/') = slashed dir

theorem dirText_pathText (dir : List Component) : DirText (pathText dir) dir := by
  have hend : ∀ d : List Component, (slashed d).rdropWhile (· = '/') = slashed d := by
    intro d
    induction d using List.reverseRecOn with
    | nil => rfl
    | append_singleton d c _ =>
      obtain hnil | ⟨w, x, hw⟩ := List.eq_nil_or_concat' c.text
      · exact absurd hnil c.nonempty
      · have hx : ¬ decide (x = '/') = true := by
          intro h
          apply c.plain
          simp [hw, of_decide_eq_true h]
        have htext : slashed (d ++ [c]) = (slashed d ++ '/' :: w) ++ [x] := by
          simp [slashed_append, hw]
        rw [htext]
        exact List.rdropWhile_concat_neg (fun c => decide (c = '/')) _ x hx
  rw [DirText, pathText]
  by_cases hdir : dir = []
  · rw [if_pos hdir, hdir]
    rfl
  · rw [if_neg hdir, hend dir]

/-- `File.join(dir, '/')` -/
theorem fileJoin_dir {text : Str} {dir : List Component} (h : DirText text dir) :
    fileJoin text ['/'] = slashed dir ++ ['/'] := by
  have hhead : ['/'].head? = some '/' := rfl
  rw [fileJoin, if_pos hhead, h]

/-- `m['node'].start_with?(File.join(dir, '/'))` -/
def inDir (dir : List Component) (e : Entry) : Bool :=
  (fileJoin (pathText dir) ['/']).isPrefixOf e.node

/-- For the root directory the node `/` is among those it takes for nodes below. -/
theorem inDir_iff {dir : List Component} {e : Entry} :
    inDir dir e = true ↔ Below dir e.path ∨ dir = [] ∧ e.path = [] := by
  rw [inDir, fileJoin_dir (dirText_pathText dir), List.isPrefixOf_iff_prefix, Entry.node, pathText]
  by_cases hpath : e.path = []
  · rw [if_pos hpath, hpath]
    have hno : ¬ Below dir [] := by
      rintro ⟨c, rest, h⟩
      simp at h
    cases dir with
    | nil => simp
    | cons c dir =>
      simp [hno]
  · rw [if_neg hpath, slashed_below]
    simp [hpath, Below]

/-- The mounts of the table in the directory, in an order the sort can give them, each with an
outcome. The sort is free to choose among lines with the same node. -/
structure Arranged (dir : List Component) (table : List Entry) (source : List Mount) : Prop where
  perm : (source.map Mount.toEntry).Perm (table.filter (inDir dir))
  sorted : source.Pairwise fun m m' => m.node ≤ m'.node

theorem mirror_one (m : Mount) (nodeToSkip : Option Str) :
    mirror [m] nodeToSkip =
      if nodeToSkip.any (·.isPrefixOf m.node) = true ∨ skippedFstype m.fstype = true then []
      else [m] := by
  rw [mirror]
  by_cases hcov : nodeToSkip.any (·.isPrefixOf m.node) = true
  · rw [if_pos hcov, if_pos (Or.inl hcov)]
    rfl
  · by_cases hskip : skippedFstype m.fstype = true
    · rw [if_neg hcov, if_pos hskip, if_pos (Or.inr hskip)]
      rfl
    · rw [if_neg hcov, if_neg hskip, if_neg (not_or.mpr ⟨hcov, hskip⟩)]
      rfl

/-- In its turn, behind the mounts of `u`, the mount is passed to try_mount_user_dir. -/
def PassedOn (u : List Mount) (m : Mount) : Prop := mirror (u ++ [m]) none = mirror u none ++ [m]

theorem passedOn_mirror {u : List Mount} {m : Mount} :
    PassedOn u m ↔ mirror [m] (u.foldl nodeToSkipAfter none) = [m] := by
  rw [PassedOn, mirror_append, List.append_cancel_left_eq]

theorem passedOn_iff {u v : List Mount} {m : Mount}
    (hsorted : (u ++ m :: v).Pairwise fun m m' => m.node ≤ m'.node) :
    PassedOn u m ↔ ¬ Covered (fun m : Mount => m.node) Barred u m.node ∧
      skippedFstype m.fstype = false := by
  have hcov := nodeToSkip_iff (List.pairwise_append.mp hsorted).1 fun m' hm' =>
    (List.pairwise_append.mp hsorted).2.2 m' hm' m List.mem_cons_self
  rw [passedOn_mirror, mirror_one, ← hcov]
  by_cases hc : (u.foldl nodeToSkipAfter none).any (·.isPrefixOf m.node) = true
  · simp [hc]
  · by_cases hskip : skippedFstype m.fstype = true
    · simp [hskip]
    · simp [hc, hskip]

/-- The attempts are the mounts that are passed on in their turns. -/
theorem mem_mirror {source : List Mount} {m : Mount} :
    m ∈ mirror source none ↔ ∃ u v, source = u ++ m :: v ∧ PassedOn u m := by
  induction source using List.reverseRecOn with
  | nil => simp [mirror]
  | append_singleton u x ih =>
    have hlast : m ∈ mirror [x] (u.foldl nodeToSkipAfter none) ↔ m = x ∧ PassedOn u x := by
      rw [passedOn_mirror, mirror_one]
      split_ifs <;> simp
    rw [mirror_append, List.mem_append, ih, hlast]
    constructor
    · intro h
      obtain ⟨u', v, rfl, hpass⟩ | ⟨rfl, hpass⟩ := h
      · exact ⟨u', v ++ [x], by simp, hpass⟩
      · exact ⟨u, [], rfl, hpass⟩
    · intro ⟨u', v, hsplit, hpass⟩
      obtain rfl | ⟨v', y, rfl⟩ := List.eq_nil_or_concat' v
      · obtain ⟨rfl, hx⟩ := List.append_inj' hsplit rfl
        obtain rfl : x = m := by simpa using hx
        exact Or.inr ⟨rfl, hpass⟩
      · rw [← List.cons_append, ← List.append_assoc] at hsplit
        exact Or.inl ⟨u', v', (List.append_inj' hsplit rfl).1, hpass⟩

theorem mirror_sublist (source : List Mount) (nodeToSkip : Option Str) :
    (mirror source nodeToSkip).Sublist source := by
  induction source generalizing nodeToSkip with
  | nil => exact .slnil
  | cons m rest ih =>
    rw [mirror]
    split_ifs
    · exact .cons m (ih nodeToSkip)
    · exact .cons m (ih (some m.node))
    · exact .cons_cons m (ih none)
    · exact .cons_cons m (ih (some m.node))

/-- In a sorted list everything below a barred mount comes behind it and is covered by it. -/
theorem not_passedOn_below {u v : List Mount} {m b : Mount}
    (hsorted : (u ++ m :: v).Pairwise fun m m' => m.node ≤ m'.node) (hb : b ∈ u ++ m :: v)
    (hbarred : Barred b) (hbelow : Below b.path m.path) : ¬ PassedOn u m := by
  have hparts := List.pairwise_append.mp hsorted
  rw [passedOn_iff hsorted]
  intro h
  have hbu : b ∈ u := by
    obtain hb | hb := List.mem_append.mp hb
    · exact hb
    · obtain rfl | hb := List.mem_cons.mp hb
      · exact absurd hbelow.length_lt (Nat.lt_irrefl _)
      · have hle := (List.pairwise_cons.mp hparts.2.1).1 b hb
        exact absurd hle hbelow.not_le
  exact h.1 ⟨b, hbu, hbarred, hbelow.isPrefix⟩

/-! The loop over outcomes is what the script does. -/

/-- The calls of try_mount_user_dir, one after the other, with what becomes of the variables. -/
inductive Tries (mroot : Str) : List Mount → Vars → List (Turn Op.Answer) → Vars → Prop
  | nil (v : Vars) : Tries mroot [] v [] v
  | mounted {m : Mount} {ms : List Mount} {v u w : Vars} {tr tr' : List (Turn Op.Answer)}
      {target : Str} (htry : Ends (tryMountUserDir mroot m.node) v tr (.ok (some target)) u)
      (hout : m.outcome = some target)
      (hrest : Tries mroot ms { u with mirrored := u.mirrored ++ [target] } tr' w) :
      Tries mroot (m :: ms) v (tr ++ tr') w
  | refused {m : Mount} {ms : List Mount} {v u w : Vars} {tr tr' : List (Turn Op.Answer)}
      (htry : Ends (tryMountUserDir mroot m.node) v tr (.ok none) u) (hout : m.outcome = none)
      (hrest : Tries mroot ms u tr' w) : Tries mroot (m :: ms) v (tr ++ tr') w

/-- try_mount_user_dir leaves the variables alone. -/
theorem tryMountUserDir_keeps {mroot path : Str} {v w : Vars} {tr : List (Turn Op.Answer)}
    {r : Except Err (Option Str)} (h : Ends (tryMountUserDir mroot path) v tr r w) : w = v := by
  have hreal : ∀ path, Triple (fun w _ => w = v) (fileRealpath path) (fun _ w _ => w = v)
      (fun _ w _ => w = v) := by
    intro path
    refine .bind (Q := fun _ w _ => w = v) (.ask _ fun _ _ _ h => h) fun answer => ?_
    cases answer with
    | some resolved => exact .pure _ fun _ _ h => h
    | none => exact .raise _ fun _ _ h => h
  have hmount : ∀ fs src dst options, Triple (fun w _ => w = v) (tryMount fs src dst options)
      (fun _ w _ => w = v) (fun _ w _ => w = v) := by
    intro fs src dst options
    have hrun : Triple (fun w _ => w = v) (runMount fs src dst options) (fun _ w _ => w = v)
        (fun _ w _ => w = v) := by
      refine .bind (Q := fun _ w _ => w = v) (.ask _ fun _ _ _ h => h) fun answer => ?_
      cases answer with
      | true => exact hreal dst
      | false => exact .raise _ fun _ _ h => h
    have hall : Triple (fun w _ => w = v) (Mounts.mount fs src dst options) (fun _ w _ => w = v)
        (fun _ w _ => w = v) := by
      refine .bind (triple_makeMountPoint (fun h _ => h) fs src dst) fun errno => ?_
      split
      · exact .raise _ fun _ _ h => h
      · exact hrun
    refine .bind (.attempt (S := fun _ w _ => w = v) hall) fun out => ?_
    split
    · exact .pure _ fun _ _ h => h
    · exact .pure _ fun _ _ h => h
    · exact .raise _ fun _ _ h => h
  have hkeeps : Triple (fun w _ => w = v) (tryMountUserDir mroot path) (fun _ w _ => w = v)
      (fun _ w _ => w = v) := by
    unfold tryMountUserDir
    split
    · refine .bind (hreal path) fun path => ?_
      split
      · exact hmount _ _ _ _
      · exact .pure _ fun _ _ h => h
    · exact .pure _ fun _ _ h => h
  have hpost := hkeeps v [] rfl tr r w h
  cases r with
  | ok out => exact hpost
  | error e => exact hpost

theorem Tries.mirrored {mroot : Str} {ms : List Mount} {v w : Vars} {tr : List (Turn Op.Answer)}
    (h : Tries mroot ms v tr w) : w.mirrored = v.mirrored ++ ms.filterMap Mount.outcome := by
  induction h with
  | nil v => simp
  | mounted htry hout hrest ih =>
    rw [ih, tryMountUserDir_keeps htry, List.filterMap_cons, hout]
    simp
  | refused htry hout hrest ih =>
    rw [ih, tryMountUserDir_keeps htry, List.filterMap_cons, hout]

theorem mirrorLoop_allMounts {mroot : Str} {ms : List MountInfo} {nodeToSkip : Option Str}
    {v w : Vars} {tr : List (Turn Op.Answer)}
    (h : Ends (mirrorLoop mroot ms nodeToSkip) v tr (.ok ()) w) : w.allMounts = v.allMounts := by
  induction ms generalizing nodeToSkip v tr with
  | nil =>
    obtain ⟨-, -, hw⟩ := ends_pure.mp h
    rw [hw]
  | cons m ms ih =>
    rw [mirrorLoop] at h
    split at h
    · exact ih h
    · split at h
      · exact ih h
      · obtain ⟨_, _, out, x, _, htry, hrest⟩ := ends_bind_ok h
        have hx := tryMountUserDir_keeps htry
        cases out with
        | none => rw [ih hrest, hx]
        | some target =>
          obtain ⟨_, _, _, y, _, hmodify, hloop⟩ := ends_bind_ok hrest
          obtain ⟨-, -, hy⟩ := ends_modify.mp hmodify
          rw [ih hloop, hy, hx]

/-- A normal end of the loop is that of the loop over some outcomes. -/
theorem mirrorLoop_tries {mroot : Str} {entries : List Entry} {nodeToSkip : Option Str}
    {v w : Vars} {tr : List (Turn Op.Answer)}
    (h : Ends (mirrorLoop mroot (entries.map Entry.info) nodeToSkip) v tr (.ok ()) w) :
    ∃ source : List Mount, source.map Mount.toEntry = entries ∧
      Tries mroot (mirror source nodeToSkip) v tr w := by
  induction entries generalizing nodeToSkip v tr with
  | nil =>
    obtain ⟨rfl, -, rfl⟩ := ends_pure.mp h
    exact ⟨[], rfl, .nil _⟩
  | cons e entries ih =>
    have hnode : e.info.node = e.node := rfl
    have htype : e.info.fstype = e.fstype := rfl
    rw [List.map_cons, mirrorLoop, hnode, htype] at h
    split at h
    · rename_i hcov
      obtain ⟨source, hsource, htries⟩ := ih h
      refine ⟨⟨e, none⟩ :: source, by simp [hsource], ?_⟩
      rwa [mirror, if_pos hcov]
    · rename_i hcov
      split at h
      · rename_i hskip
        obtain ⟨source, hsource, htries⟩ := ih h
        refine ⟨⟨e, none⟩ :: source, by simp [hsource], ?_⟩
        rwa [mirror, if_neg hcov, if_pos hskip]
      · rename_i hskip
        obtain ⟨u, u', out, x, rfl, htry, hrest⟩ := ends_bind_ok h
        cases out with
        | none =>
          obtain ⟨source, hsource, htries⟩ := ih hrest
          refine ⟨⟨e, none⟩ :: source, by simp [hsource], ?_⟩
          rw [mirror, if_neg hcov, if_neg hskip]
          exact .refused htry rfl htries
        | some target =>
          obtain ⟨y, y', _, x', rfl, hmodify, hrest⟩ := ends_bind_ok hrest
          obtain ⟨rfl, -, rfl⟩ := ends_modify.mp hmodify
          obtain ⟨source, hsource, htries⟩ := ih hrest
          refine ⟨⟨e, some target⟩ :: source, by simp [hsource], ?_⟩
          rw [mirror, if_neg hcov, if_neg hskip]
          exact .mounted htry rfl htries

theorem getAllMounts_reads {v w : Vars} {tr : List (Turn Op.Answer)} {table : List MountInfo}
    (h : Ends getAllMounts v tr (.ok table) w) :
    w = { v with allMounts := some table } ∧ ∀ turn ∈ tr, turn.1 = .allMounts := by
  have hreads : Triple (fun w hist => w = v ∧ hist = []) getAllMounts
      (fun table w hist => w = { v with allMounts := some table } ∧
        ∀ turn ∈ hist, turn.1 = Op.allMounts) (fun _ _ _ => True) := by
    refine .bind (Q := fun u w hist => u = v ∧ w = v ∧ hist = []) (.vars ?_) fun u => ?_
    · intro u hist ⟨hu, hhist⟩
      exact ⟨hu, hu, hhist⟩
    · cases hall : u.allMounts with
      | some table =>
        apply Triple.pure
        intro w hist ⟨hu, hw, hhist⟩
        rw [hw, hhist, ← hall, hu]
        exact ⟨rfl, fun turn hturn => absurd hturn List.not_mem_nil⟩
      | none =>
        refine .bind (Q := fun answer w hist => w = v ∧ ∀ turn ∈ hist, turn.1 = Op.allMounts)
          (.ask _ ?_) fun answer => ?_
        · intro answer w hist ⟨_, hw, hhist⟩
          rw [hhist]
          exact ⟨hw, by simp⟩
        · cases answer with
          | none => exact .raise _ fun _ _ _ => trivial
          | some table =>
            refine .bind (Q := fun _ w hist => w = { v with allMounts := some table } ∧
              ∀ turn ∈ hist, turn.1 = Op.allMounts) (.modify _ ?_) fun _ => .pure _ fun _ _ h => h
            intro w hist ⟨hw, hhist⟩
            rw [hw]
            exact ⟨rfl, hhist⟩
  simpa using hreads v [] ⟨rfl, rfl⟩ tr (.ok table) w h

theorem sourceMounts_info {text : Str} {dir : List Component} (h : DirText text dir)
    (table : List Entry) :
    sourceMounts (table.map Entry.info) text =
      ((table.filter (inDir dir)).insertionSort fun e e' => e.node ≤ e'.node).map Entry.info := by
  have hfilter : (table.map Entry.info).filter (fun m => (fileJoin text ['/']).isPrefixOf m.node) =
      (table.filter (inDir dir)).map Entry.info := by
    rw [List.filter_map]
    congr 1
    apply List.filter_congr
    intro e _
    rw [Function.comp_apply, inDir, fileJoin_dir h, fileJoin_dir (dirText_pathText dir)]
    rfl
  rw [sourceMounts, hfilter]
  exact (List.map_insertionSort _ _ Entry.info _ fun _ _ _ _ => Iff.rfl).symm

/-- Behind the turns that read the table stand the calls of try_mount_user_dir. -/
def Attempted (mroot : Str) (ms : List Mount) (tr : List (Turn Op.Answer)) : Prop :=
  ∃ read rest v w, tr = read ++ rest ∧ (∀ turn ∈ read, turn.1 = Op.allMounts) ∧
    Tries mroot ms v rest w

/-- Every normal run is that of the loop over some outcomes, and returns what it has mounted. -/
theorem mirrorMounts_runs {mroot text : Str} {dir : List Component} {table : List Entry}
    {v w : Vars} {tr : List (Turn Op.Answer)} {targets : List Str} (htext : DirText text dir)
    (hfresh : v.mirrored = []) (hread : w.allMounts = some (table.map Entry.info))
    (hrun : Ends (mirrorMounts mroot text) v tr (.ok targets) w) :
    ∃ source, Arranged dir table source ∧ Attempted mroot (mirror source none) tr ∧
      targets = (mirror source none).filterMap Mount.outcome := by
  obtain ⟨read, rest, infos, v₁, rfl, htable, hbody⟩ := ends_bind_ok hrun
  obtain ⟨hv₁, hreads⟩ := getAllMounts_reads htable
  obtain ⟨turns, rest', _, v₂, hturns, hloop, hbehind⟩ := ends_bind_ok hbody
  obtain ⟨_, _, v₃, v₄, hrest', hvars, hreset⟩ := ends_bind_ok hbehind
  obtain ⟨hnil, hv₃, hv₄⟩ := ends_vars.mp hvars
  obtain ⟨_, _, _, v₅, hsilent, hmodify, hpure⟩ := ends_bind_ok hreset
  obtain ⟨hnil', -, hv₅⟩ := ends_modify.mp hmodify
  obtain ⟨hnil'', htargets, hw⟩ := ends_pure.mp hpure
  have htr : rest = turns := by simp [hturns, hrest', hnil, hsilent, hnil', hnil'']
  have hall : w.allMounts = v₂.allMounts := by rw [hw, hv₅, hv₄]
  have hmirrored : targets = v₂.mirrored := by
    rw [Except.ok.inj htargets, Except.ok.inj hv₃]
  have hinfos : infos = table.map Entry.info := by
    rw [hall, mirrorLoop_allMounts hloop, hv₁] at hread
    exact Option.some.inj hread
  rw [hinfos, sourceMounts_info htext] at hloop
  obtain ⟨source, hsource, htries⟩ := mirrorLoop_tries hloop
  refine ⟨source, ?_, ⟨read, turns, v₁, v₂, by rw [htr], hreads, htries⟩, ?_⟩
  · refine ⟨?_, ?_⟩
    · rw [hsource]
      exact List.perm_insertionSort _ _
    · have hsorted := List.pairwise_insertionSort (fun e e' : Entry => e.node ≤ e'.node)
        (table.filter (inDir dir))
      rw [← hsource] at hsorted
      have hpairs := List.pairwise_map.mp hsorted
      exact hpairs
  · rw [hmirrored, htries.mirrored, hv₁, hfresh, List.nil_append]

/-! What the attempts are like. -/

/-- What holds of the attempts of a run. -/
structure InOrder (dir : List Component) (source : List Mount) : Prop where
  /-- The root is its own mount below, which is then refused by the policy. -/
  below : ∀ m ∈ mirror source none, Below dir m.path ∨
    dir = [] ∧ m.path = [] ∧ ∀ mroot target, ¬ Attempts mroot m.node target
  spared : ∀ b ∈ source, Barred b → ∀ m ∈ mirror source none, ¬ Below b.path m.path
  once : ((mirror source none).map fun m => m.path).Nodup
  ancestorsFirst : (mirror source none).Pairwise fun m m' => ¬ Below m'.path m.path

theorem Arranged.inDir {dir : List Component} {table : List Entry} {source : List Mount}
    (h : Arranged dir table source) {m : Mount} (hm : m ∈ source) :
    m.toEntry ∈ table ∧ (Below dir m.path ∨ dir = [] ∧ m.path = []) := by
  have hmem := h.perm.mem_iff.mp (List.mem_map_of_mem hm)
  rw [List.mem_filter, inDir_iff] at hmem
  exact hmem

theorem Arranged.nodup {dir : List Component} {table : List Entry} {source : List Mount}
    (h : Arranged dir table source) (hdistinct : (table.map Entry.path).Nodup) :
    (source.map fun m => m.path).Nodup := by
  have hfilter : ((table.filter (MirrorMounts.inDir dir)).map Entry.path).Nodup :=
    hdistinct.sublist (List.filter_sublist.map Entry.path)
  have hperm := h.perm.map Entry.path
  rw [List.map_map] at hperm
  exact hperm.nodup_iff.mpr hfilter

theorem Arranged.inOrder {dir : List Component} {table : List Entry} {source : List Mount}
    (h : Arranged dir table source) (hdistinct : (table.map Entry.path).Nodup) :
    InOrder dir source where
  below := by
    intro m hm
    obtain hbelow | ⟨hdir, hpath⟩ := (h.inDir ((mirror_sublist source none).mem hm)).2
    · exact Or.inl hbelow
    · refine Or.inr ⟨hdir, hpath, ?_⟩
      rw [Entry.node, hpath]
      exact not_attempts_root
  spared := by
    intro b hb hbarred m hm hbelow
    obtain ⟨u, v, rfl, hpass⟩ := mem_mirror.mp hm
    exact not_passedOn_below h.sorted hb hbarred hbelow hpass
  once := (h.nodup hdistinct).sublist ((mirror_sublist source none).map _)
  ancestorsFirst := by
    apply (h.sorted.sublist (mirror_sublist source none)).imp
    intro m m' hle hbelow
    exact hbelow.not_le hle

/-- The loop depends on the outcomes of its own attempts only. -/
theorem mirror_congr {source source' : List Mount} {nodeToSkip : Option Str}
    (hentries : source'.map Mount.toEntry = source.map Mount.toEntry)
    (hsame : ∀ m ∈ mirror source nodeToSkip, ∀ m' ∈ mirror source' nodeToSkip,
      m.toEntry = m'.toEntry → m.outcome = m'.outcome) :
    mirror source' nodeToSkip = mirror source nodeToSkip := by
  induction source generalizing source' nodeToSkip with
  | nil => rw [List.map_eq_nil_iff.mp hentries]
  | cons m rest ih =>
    obtain ⟨m', rest', rfl, hm, hrest⟩ := List.map_eq_cons_iff.mp hentries
    obtain ⟨e, outcome⟩ := m
    obtain ⟨e', outcome'⟩ := m'
    obtain rfl : e' = e := hm
    simp only [mirror] at hsame ⊢
    by_cases hcov : nodeToSkip.any (·.isPrefixOf e'.node) = true
    · simp only [if_pos hcov] at hsame ⊢
      exact ih hrest hsame
    · by_cases hskip : skippedFstype e'.fstype = true
      · simp only [if_neg hcov, if_pos hskip] at hsame ⊢
        exact ih hrest hsame
      · simp only [if_neg hcov, if_neg hskip] at hsame ⊢
        obtain rfl : outcome = outcome' := hsame _ List.mem_cons_self _ List.mem_cons_self rfl
        rw [ih hrest]
        intro x hx x' hx'
        exact hsame x (List.mem_cons_of_mem _ hx) x' (List.mem_cons_of_mem _ hx')

/-- With distinct nodes the sort gives one order, whatever that of the table. -/
theorem Arranged.entries_eq {dir : List Component} {table table' : List Entry}
    {source source' : List Mount} (h : Arranged dir table source)
    (h' : Arranged dir table' source') (hdistinct : (table.map Entry.path).Nodup)
    (hperm : table'.Perm table) :
    source'.map Mount.toEntry = source.map Mount.toEntry := by
  have hentries : (source'.map Mount.toEntry).Perm (source.map Mount.toEntry) :=
    (h'.perm.trans (hperm.filter _)).trans h.perm.symm
  have hpaths := h.nodup hdistinct
  have hinj : ∀ e e', e ∈ source'.map Mount.toEntry → e' ∈ source.map Mount.toEntry →
      e.node ≤ e'.node → e'.node ≤ e.node → e = e' := by
    intro e e' he he' hle hge
    have hpath : e.path = e'.path := pathText_injective (le_antisymm hle hge)
    obtain ⟨m, hm, rfl⟩ := List.mem_map.mp (hentries.mem_iff.mp he)
    obtain ⟨m', hm', rfl⟩ := List.mem_map.mp he'
    rw [List.inj_on_of_nodup_map hpaths hm hm' hpath]
  exact hentries.eq_of_pairwise hinj (List.pairwise_map.mpr h'.sorted)
    (List.pairwise_map.mpr h.sorted)

/-- The attempts of a run are in order, and do not depend on the order of the table. -/
theorem mirrorMounts_in_order {mroot text : Str} {dir : List Component} {table : List Entry}
    {v w : Vars} {tr : List (Turn Op.Answer)} {targets : List Str}
    (hdistinct : (table.map Entry.path).Nodup) (htext : DirText text dir)
    (hfresh : v.mirrored = []) (hread : w.allMounts = some (table.map Entry.info))
    (hrun : Ends (mirrorMounts mroot text) v tr (.ok targets) w) :
    ∃ source, Arranged dir table source ∧ Attempted mroot (mirror source none) tr ∧
      targets = (mirror source none).filterMap Mount.outcome ∧ InOrder dir source ∧
      ∀ table' source', table'.Perm table → Arranged dir table' source' →
        (∀ m ∈ mirror source none, ∀ m' ∈ mirror source' none,
          m.toEntry = m'.toEntry → m.outcome = m'.outcome) →
        mirror source' none = mirror source none := by
  obtain ⟨source, harranged, hattempted, htargets⟩ := mirrorMounts_runs htext hfresh hread hrun
  refine ⟨source, harranged, hattempted, htargets, harranged.inOrder hdistinct, ?_⟩
  intro table' source' hperm harranged' hsame
  exact mirror_congr (harranged.entries_eq harranged' hdistinct hperm) hsame

def userDir : List Component := [home, ⟨"u".toList, by decide, by decide⟩]

/-- Two nested file systems, the inner one first. -/
def nestedTable : List Entry :=
  [⟨userDir ++ [⟨"a".toList, by decide, by decide⟩, ⟨"b".toList, by decide, by decide⟩],
      "zfs".toList⟩,
    ⟨userDir ++ [⟨"a".toList, by decide, by decide⟩], "zfs".toList⟩]

/-- A system on which every mount works. -/
def obliging : ∀ op, Op.Answer op := plainWorld [] (fun _ => true) fun _ => true

/-- The variables when mirror_mounts starts, with the table at hand. -/
def knowing (table : List Entry) : Vars := ⟨[], [], some (table.map Entry.info)⟩

theorem nested_text : DirText "/home/u/".toList userDir := by
  unfold DirText
  decide

theorem nested_run :
    Ends (mirrorMounts "/m".toList "/home/u/".toList) (knowing nestedTable)
      (turns obliging (mirrorMounts "/m".toList "/home/u/".toList) (knowing nestedTable))
      (.ok ["/m/home/u/a".toList, "/m/home/u/a/b".toList]) (knowing nestedTable) :=
  ends_play 100 rfl

theorem mirrorMounts_in_order_nested :
    ∃ tr targets w source,
      Ends (mirrorMounts "/m".toList "/home/u/".toList) (knowing nestedTable) tr (.ok targets) w ∧
      Arranged userDir nestedTable source ∧ Attempted "/m".toList (mirror source none) tr ∧
      targets = (mirror source none).filterMap Mount.outcome ∧ InOrder userDir source := by
  have hdistinct : (nestedTable.map Entry.path).Nodup := by
    simp [nestedTable]
  obtain ⟨source, harranged, hattempted, htargets, horder, -⟩ :=
    mirrorMounts_in_order hdistinct nested_text rfl rfl nested_run
  exact ⟨_, _, _, source, nested_run, harranged, hattempted, htargets, horder⟩

/-- The root directory is passed to try_mount_user_dir as a mount below itself. -/
theorem root_attempted_below_itself :
    ∃ source tr w,
      Ends (mirrorMounts "/m".toList "/".toList) (knowing [⟨[], "zfs".toList⟩]) tr (.ok []) w ∧
      Arranged [] [⟨[], "zfs".toList⟩] source ∧ Attempted "/m".toList (mirror source none) tr ∧
      ¬ ∀ m ∈ mirror source none, Below [] m.path := by
  have htry : Ends (tryMountUserDir "/m".toList "/".toList) (knowing [⟨[], "zfs".toList⟩])
      [⟨.realpath "/".toList, some "/".toList⟩] (.ok none) (knowing [⟨[], "zfs".toList⟩]) :=
    .cons _ (.nil _)
  have hrun : Ends (mirrorMounts "/m".toList "/".toList) (knowing [⟨[], "zfs".toList⟩])
      [⟨.realpath "/".toList, some "/".toList⟩] (.ok []) (knowing [⟨[], "zfs".toList⟩]) :=
    .cons _ (.nil _)
  have hmirror : mirror [⟨⟨[], "zfs".toList⟩, none⟩] none = [⟨⟨[], "zfs".toList⟩, none⟩] := rfl
  have htries : Tries "/m".toList [⟨⟨[], "zfs".toList⟩, none⟩] (knowing [⟨[], "zfs".toList⟩])
      ([⟨.realpath "/".toList, some "/".toList⟩] ++ []) (knowing [⟨[], "zfs".toList⟩]) :=
    .refused htry rfl (.nil _)
  refine ⟨[⟨⟨[], "zfs".toList⟩, none⟩], _, _, hrun, ⟨.refl _, List.pairwise_singleton _ _⟩, ?_, ?_⟩
  · rw [hmirror]
    exact ⟨[], _, _, _, rfl, by simp, htries⟩
  · intro h
    obtain ⟨c, rest, hpath⟩ := h ⟨⟨[], "zfs".toList⟩, none⟩ List.mem_cons_self
    simp at hpath

/-! Which mounts are left out. -/

/-- Skipping a mount takes out that mount and those nested below it, and no others. -/
def SkipsSubtreesOnly (dir : List Component) (source : List Mount) : Prop :=
  ∀ u m v, source = u ++ m :: v → Below dir m.path → skippedFstype m.fstype = false →
    (∀ a ∈ source, Below dir a.path → Below a.path m.path →
      skippedFstype a.fstype = false ∧ (a ∈ mirror source none → a.outcome ≠ none)) →
    PassedOn u m

/-- A mount whose node continues that of an earlier mount which is skipped lies below such a mount,
itself a mount in the directory. -/
def PrefixesAreAncestors (dir : List Component) (source : List Mount) : Prop :=
  ∀ u m v, source = u ++ m :: v → Below dir m.path → skippedFstype m.fstype = false →
    Covered (fun m : Mount => m.node) Barred u m.node →
    ∃ a ∈ source, Below dir a.path ∧ Below a.path m.path ∧ Barred a

theorem skipsSubtreesOnly_iff {dir : List Component} {source : List Mount}
    (hsorted : source.Pairwise fun m m' => m.node ≤ m'.node) :
    SkipsSubtreesOnly dir source ↔ PrefixesAreAncestors dir source := by
  have hturn : ∀ {u m v}, source = u ++ m :: v → (PassedOn u m ↔
      ¬ Covered (fun m : Mount => m.node) Barred u m.node ∧ skippedFstype m.fstype = false) := by
    intro u m v hsplit
    rw [hsplit] at hsorted
    exact passedOn_iff hsorted
  constructor
  · intro h u m v hsplit hbelow hskip hcov
    by_contra hno
    have hpass : PassedOn u m := by
      apply h u m v hsplit hbelow hskip
      intro a ha hdir ham
      have hfree : ¬ Barred a := fun hbarred => hno ⟨a, ha, hdir, ham, hbarred⟩
      rw [Barred, not_or, Bool.not_eq_true] at hfree
      exact ⟨hfree.1, fun _ => hfree.2⟩
    exact ((hturn hsplit).mp hpass).1 hcov
  · intro h u m v hsplit hbelow hskip hfree
    -- by induction on the depth: a refused ancestor would have been tried
    induction hn : m.path.length using Nat.strong_induction_on generalizing u m v with
    | _ n ih =>
      apply (hturn hsplit).mpr
      refine ⟨fun hcov => ?_, hskip⟩
      obtain ⟨a, ha, hdir, ham, hbarred⟩ := h u m v hsplit hbelow hskip hcov
      obtain ⟨haskip, hatried⟩ := hfree a ha hdir ham
      have hrefused : a.outcome = none := by
        obtain hbarred | hrefused := hbarred
        · rw [haskip] at hbarred
          cases hbarred
        · exact hrefused
      obtain ⟨u', v', hsplit'⟩ := List.append_of_mem ha
      have hpass : PassedOn u' a := by
        apply ih a.path.length (hn ▸ ham.length_lt) u' a v' hsplit' hdir haskip _ rfl
        intro b hb hbdir hba
        exact hfree b hb hbdir (hba.trans ham)
      exact hatried (mem_mirror.mpr ⟨u', v', hsplit', hpass⟩) hrefused

/-- A run leaves out only what it is to leave out where prefixes are ancestors. -/
theorem mirrorMounts_skips_subtrees_iff {mroot text : Str} {dir : List Component}
    {table : List Entry} {v w : Vars} {tr : List (Turn Op.Answer)} {targets : List Str}
    (htext : DirText text dir) (hfresh : v.mirrored = [])
    (hread : w.allMounts = some (table.map Entry.info))
    (hrun : Ends (mirrorMounts mroot text) v tr (.ok targets) w) :
    ∃ source, Arranged dir table source ∧ Attempted mroot (mirror source none) tr ∧
      (SkipsSubtreesOnly dir source ↔ PrefixesAreAncestors dir source) := by
  obtain ⟨source, harranged, hattempted, -⟩ := mirrorMounts_runs htext hfresh hread hrun
  exact ⟨source, harranged, hattempted, skipsSubtreesOnly_iff harranged.sorted⟩

theorem mirrorMounts_skips_subtrees_nested :
    ∃ tr targets w source,
      Ends (mirrorMounts "/m".toList "/home/u/".toList) (knowing nestedTable) tr (.ok targets) w ∧
      Arranged userDir nestedTable source ∧ Attempted "/m".toList (mirror source none) tr ∧
      (SkipsSubtreesOnly userDir source ↔ PrefixesAreAncestors userDir source) := by
  obtain ⟨source, harranged, hattempted, hiff⟩ :=
    mirrorMounts_skips_subtrees_iff nested_text rfl rfl nested_run
  exact ⟨_, _, _, source, nested_run, harranged, hattempted, hiff⟩

/-- Two file systems side by side, the name of one continuing that of the other. -/
def shorterName : Entry := ⟨userDir ++ [⟨"a".toList, by decide, by decide⟩], "tmpfs".toList⟩
def longerName : Entry := ⟨userDir ++ [⟨"ab".toList, by decide, by decide⟩], "zfs".toList⟩

/-- The second of them is left out without a question. -/
theorem sibling_left_out :
    ∃ source,
      Ends (mirrorMounts "/m".toList "/home/u".toList) (knowing [longerName, shorterName]) []
        (.ok []) (knowing [longerName, shorterName]) ∧
      Arranged userDir [longerName, shorterName] source ∧
      Attempted "/m".toList (mirror source none) [] ∧ ¬ SkipsSubtreesOnly userDir source := by
  have hsorted : [(⟨shorterName, none⟩ : Mount), ⟨longerName, none⟩].Pairwise
      fun m m' => m.node ≤ m'.node := by
    simp only [List.pairwise_cons, List.mem_singleton, forall_eq, List.not_mem_nil,
      false_imp_iff, implies_true, List.Pairwise.nil, and_true]
    decide
  have hmirror : mirror [⟨shorterName, none⟩, ⟨longerName, none⟩] none = [] := rfl
  have hpair : mirror [⟨shorterName, none⟩] none = [] := rfl
  refine ⟨[⟨shorterName, none⟩, ⟨longerName, none⟩], .nil _, ⟨.swap _ _ _, hsorted⟩, ?_, ?_⟩
  · rw [hmirror]
    exact ⟨[], [], knowing [longerName, shorterName], _, rfl, by simp, .nil _⟩
  · intro h
    have hpass : PassedOn [⟨shorterName, none⟩] ⟨longerName, none⟩ := by
      apply h _ _ [] rfl ⟨_, [], rfl⟩ rfl
      intro a ha _ hbelow
      have hlength : a.path.length = 3 := by
        obtain rfl | rfl : a = ⟨shorterName, none⟩ ∨ a = ⟨longerName, none⟩ := by simpa using ha
        · rfl
        · rfl
      have hlt := hbelow.length_lt
      rw [hlength] at hlt
      exact absurd hlt (by decide)
    rw [PassedOn, hpair] at hpass
    cases hmirror.symm.trans hpass

end LSU.MirrorMounts
