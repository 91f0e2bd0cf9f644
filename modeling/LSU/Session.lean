import LSU.Run
import LSU.UmountTable

/-! Sessions of bin/steam over the life of what is mounted on and in LSU_TMPDIR_PATH. The
tools of a session, other users, signals and stops come at any moment. -/
namespace LSU.Session
open LSU.Run LSU.Mounts LSU.UserDirs LSU.MirrorMounts LSU.Sweep LSU.Umount

/-- A mount, and which of its files init_tmp_dir has written if it is its tmpfs. -/
structure Entry where
  mount : Umount.Mounted
  cookie : Bool
  setupDone : Bool

/-- Where bin/steam goes when it is done with lsu-umount. -/
inductive Next where
  | begin | again | quit

/-- The statement bin/steam is at. `umount` is lsu-umount with the paths it has yet to try, and
`force` its second attempt at a path. -/
inductive Pc where
  | off
  | check (next : Next)
  | umount (paths : List Str) (next : Next)
  | force (path : Str) (paths : List Str) (next : Next)
  | patch
  | upgrade
  | client
  | kill (next : Next)

/-- `now` is the time, on which the answers of umount may depend, and `tools` the number of
processes that init_tmp_dir has returned to and that may still mount something in the
directory. -/
structure State where
  table : List Entry
  now : Nat
  tools : Nat
  pc : Pc

/-- The first three are steps of bin/steam; `exit` is the end of Steam, with its status if no
signal has ended it. `tmpfs`, `writeCookie` and `writeSetupDone` are those of init_tmp_dir in
any tool, `enter` is its return and `leave` the end of the tool; `rescue` is an umount by the
rescue branch of lsu-mount-runtime, `unmount` one by another user. -/
inductive Event where
  | start
  | go
  | done (ok : Bool)
  | exit (status : Option Nat)
  | signal
  | stop
  | tmpfs
  | writeCookie
  | writeSetupDone
  | enter
  | leave
  | mount (m : Umount.Mounted)
  | rescue (path : List Component)
  | unmount (place : Nat)
  | wait

def Next.pc : Next → Pc
  | .begin => .patch
  | .again => .patch
  | .quit => .off

/-- The traps are set behind the first lsu-umount. -/
def Pc.trapped : Pc → Bool
  | .off => false
  | .check .begin => false
  | .umount _ .begin => false
  | .force _ _ .begin => false
  | _ => true

section Machine
variable (kernel : Kernel) (user : Str) (dir : List Component)

def tmpfsAt (table : List Entry) : Option Entry :=
  table.find? fun e => decide (e.mount.path = dir)

/-- Whether read_tmp_dir_cookie finds the file. -/
def readTmpDirCookie (table : List Entry) : Bool := (tmpfsAt dir table).any Entry.cookie

/-- The answer of umount. -/
def answer (s : State) (force : Bool) (path : Str) : Option Nat :=
  kernel s.now ⟨force, path⟩ (s.table.map Entry.mount)

/-- A step of bin/steam, or of the lsu-umount it waits for. -/
def go (s : State) : Option State :=
  match s.pc with
  | .check next =>
    if readTmpDirCookie dir s.table = true then
      some { s with pc := .umount (paths (s.table.map Entry.mount) user (pathText dir)) next }
    else some { s with pc := next.pc }
  | .umount [] next => some { s with pc := next.pc }
  | .umount (path :: rest) next =>
    match answer kernel s false path with
    | some place =>
      some { s with table := s.table.eraseIdx place, now := s.now + 1, pc := .umount rest next }
    | none => some { s with now := s.now + 1, pc := .force path rest next }
  | .force path rest next =>
    some { s with
      table := taken s.table (answer kernel s true path)
      now := s.now + 1
      pc := .umount rest next }
  | .kill next => some { s with pc := .check next }
  | _ => none

def updateTmpfs (f : Entry → Entry) (table : List Entry) : List Entry :=
  table.map fun e => if e.mount.path = dir then f e else e

/-- Nobody mounts on LSU_TMPDIR_PATH or above it but init_tmp_dir, and the user mounts in it only
what a tool does behind init_tmp_dir. -/
def mayMount (s : State) (m : Umount.Mounted) : Bool :=
  !m.path.isPrefixOf dir && (!(mine user m && dir.isPrefixOf m.path) || decide (0 < s.tools))

def step (s : State) : Event → Option State
  | .start =>
    match s.pc with
    | .off => some { s with pc := .check .begin }
    | _ => none
  | .go => go kernel user dir s
  | .done ok =>
    match s.pc with
    | .patch => some { s with pc := if ok then .upgrade else .off }
    | .upgrade => some { s with pc := if ok then .client else .off }
    | _ => none
  | .exit status =>
    match s.pc with
    | .client => some { s with pc := .kill (if status = some 42 then .again else .quit) }
    | _ => none
  | .signal => some { s with pc := if s.pc.trapped then .kill .quit else .off }
  | .stop => some { s with pc := .off }
  | .tmpfs =>
    -- nocover
    if (tmpfsAt dir s.table).isNone then
      some { s with table := s.table ++ [⟨⟨user, dir⟩, false, false⟩] }
    else none
  | .writeCookie =>
    if (tmpfsAt dir s.table).any (fun e => !e.setupDone) then
      some { s with table := updateTmpfs dir (fun e => { e with cookie := true }) s.table }
    else none
  | .writeSetupDone =>
    if (tmpfsAt dir s.table).any (fun e => !e.setupDone) then
      some { s with table := updateTmpfs dir (fun e => { e with setupDone := true }) s.table }
    else none
  | .enter =>
    -- init_tmp_dir raises without .setup-done
    if (tmpfsAt dir s.table).any Entry.setupDone then some { s with tools := s.tools + 1 }
    else none
  | .leave => if 0 < s.tools then some { s with tools := s.tools - 1 } else none
  | .mount m =>
    if mayMount user dir s m then some { s with table := s.table ++ [⟨m, false, false⟩] }
    else none
  | .rescue path =>
    if dir.isPrefixOf path ∧ path ≠ dir then
      some { s with
        table := taken s.table (answer kernel s true (pathText path))
        now := s.now + 1 }
    else none
  | .unmount place =>
    if (s.table[place]?).any (fun e => !mine user e.mount) then
      some { s with table := s.table.eraseIdx place }
    else none
  | .wait => some { s with now := s.now + 1 }

def start (table : List Entry) (now : Nat) : State := ⟨table, now, 0, .off⟩

end Machine

section Table
variable {kernel : Kernel} {user : Str} {dir : List Component} {table u v : List Entry} {x : Entry}

/-- At most one tmpfs is on the directory, the user's. -/
structure TableInv (user : Str) (dir : List Component) (table : List Entry) : Prop where
  single : table.Pairwise fun x y => x.mount.path = dir → y.mount.path ≠ dir
  owner : ∀ e ∈ table, e.mount.path = dir → e.mount.mounter = user

/-- A mount of the user below the directory. -/
def Inside (user : Str) (dir : List Component) (e : Entry) : Prop :=
  e.mount.mounter = user ∧ Below dir e.mount.path

/-- Whatever the user has mounted inside came after the tmpfs, and after that was set up. -/
structure Anchored (user : Str) (dir : List Component) (table : List Entry) : Prop where
  order : table.Pairwise fun x y => Inside user dir x → y.mount.path ≠ dir
  rests : ∀ e ∈ table, Inside user dir e → ∃ t ∈ table, t.mount.path = dir ∧ t.setupDone = true

theorem tmpfsAt_eq_none : tmpfsAt dir table = none ↔ ∀ e ∈ table, e.mount.path ≠ dir := by
  simp [tmpfsAt, List.find?_eq_none]

theorem tmpfsAt_some {t : Entry} (h : tmpfsAt dir table = some t) :
    t ∈ table ∧ t.mount.path = dir :=
  ⟨List.mem_of_find?_eq_some h, by simpa using List.find?_some h⟩

/-- The tmpfs is the one that a lookup finds. -/
theorem TableInv.tmpfsAt_eq (h : TableInv user dir table) {t : Entry} (ht : t ∈ table)
    (hdir : t.mount.path = dir) : tmpfsAt dir table = some t := by
  obtain ⟨u, v, rfl⟩ := List.append_of_mem ht
  have hfirst : tmpfsAt dir u = none := tmpfsAt_eq_none.mpr fun e he hpath =>
    (List.pairwise_append.mp h.single).2.2 e he t List.mem_cons_self hpath hdir
  rw [tmpfsAt] at hfirst ⊢
  rw [List.find?_append, hfirst, Option.none_or]
  simp [hdir]

theorem TableInv.cookie_iff (h : TableInv user dir table) :
    readTmpDirCookie dir table = true ↔
      ∃ t ∈ table, t.mount.path = dir ∧ t.cookie = true := by
  constructor
  · intro hcookie
    obtain ⟨t, ht, hc⟩ := (Option.any_eq_true _ _).mp hcookie
    obtain ⟨hmem, hdir⟩ := tmpfsAt_some ht
    exact ⟨t, hmem, hdir, hc⟩
  · rintro ⟨t, hmem, hdir, hc⟩
    rw [readTmpDirCookie, h.tmpfsAt_eq hmem hdir]
    exact hc

theorem not_inside_of_eq (h : x.mount.path = dir) : ¬ Inside user dir x := by
  rintro ⟨-, hbelow⟩
  have hlen := hbelow.length_lt
  rw [h] at hlen
  exact Nat.lt_irrefl _ hlen

theorem bears_of_inside {e : Entry} (hx : x.mount.path = dir) (he : Inside user dir e) :
    bears x.mount e.mount = true :=
  bears_iff.mpr (Or.inr (hx ▸ he.2))

theorem TableInv.sublist {table' : List Entry} (h : TableInv user dir table)
    (hsub : table'.Sublist table) : TableInv user dir table' :=
  ⟨h.single.sublist hsub, fun e he => h.owner e (hsub.mem he)⟩

theorem taken_sublist (place : Option Nat) : (taken table place).Sublist table := by
  cases place with
  | none => exact .refl table
  | some place => exact List.eraseIdx_sublist table place

theorem eraseIdx_split {place : Nat} (h : table[place]? = some x) :
    ∃ u v, table = u ++ x :: v ∧ table.eraseIdx place = u ++ v := by
  obtain ⟨hlt, rfl⟩ := List.getElem?_eq_some_iff.mp h
  refine ⟨table.take place, table.drop (place + 1), ?_, List.eraseIdx_eq_take_drop_succ ..⟩
  rw [← List.drop_eq_getElem_cons, List.take_append_drop]

/-- An umount of another path takes nothing away here. -/
theorem mem_taken (hkernel : kernel.Obeys user) {now : Nat} {force : Bool} {path : Str} {e : Entry}
    (he : e ∈ table) (hother : e.mount.node ≠ path) :
    e ∈ taken table (kernel now ⟨force, path⟩ (table.map Entry.mount)) := by
  cases hplace : kernel now ⟨force, path⟩ (table.map Entry.mount) with
  | none => exact he
  | some place =>
    obtain ⟨u, x, v, rfl, herase, hpath, -⟩ := hkernel.taken hplace
    rw [taken, herase]
    obtain hu | rfl | hv : e ∈ u ∨ e = x ∨ e ∈ v := by simpa using he
    · exact List.mem_append_left v hu
    · exact absurd hpath hother
    · exact List.mem_append_right u hv

/-- Another user takes away nothing of this one. -/
theorem mem_eraseIdx {place : Nat} {e : Entry}
    (hother : (table[place]?).any (fun e => !mine user e.mount) = true) (he : e ∈ table)
    (hown : e.mount.mounter = user) : e ∈ table.eraseIdx place := by
  obtain ⟨x, hx, hforeign⟩ := (Option.any_eq_true _ _).mp hother
  obtain ⟨u, v, rfl, herase⟩ := eraseIdx_split hx
  rw [herase]
  obtain hu | rfl | hv : e ∈ u ∨ e = x ∨ e ∈ v := by simpa using he
  · exact List.mem_append_left v hu
  · simp [mine, hown] at hforeign
  · exact List.mem_append_right u hv

/-- The tmpfs may go when nothing is on it, and whatever is not the tmpfs at any time. -/
theorem Anchored.erased (h : Anchored user dir (u ++ x :: v))
    (hbare : x.mount.path = dir → ∀ w ∈ v, bears x.mount w.mount = false) :
    Anchored user dir (u ++ v) := by
  have hsub : (u ++ v).Sublist (u ++ x :: v) := (List.sublist_cons_self x v).append_left u
  refine ⟨h.order.sublist hsub, fun e he hin => ?_⟩
  obtain ⟨t, ht, hdir, hset⟩ := h.rests e (hsub.mem he) hin
  obtain hu | rfl | hv : t ∈ u ∨ t = x ∨ t ∈ v := by simpa using ht
  · exact ⟨t, List.mem_append_left v hu, hdir, hset⟩
  · -- the mount inside came before its tmpfs, or rests on it
    obtain heu | hev := List.mem_append.mp he
    · exact absurd hdir ((List.pairwise_append.mp h.order).2.2 e heu t List.mem_cons_self hin)
    · have hno := hbare hdir e hev
      rw [bears_of_inside hdir hin] at hno
      cases hno
  · exact ⟨t, List.mem_append_right u hv, hdir, hset⟩

/-- A kernel that refuses to take a mount from under another keeps the mounts inside on their
tmpfs. -/
theorem Anchored.taken (h : Anchored user dir table) (hkernel : kernel.Obeys user)
    (hrefuses : kernel.Refuses) (now : Nat) (force : Bool) (path : Str) :
    Anchored user dir
      (Umount.taken table (kernel now ⟨force, path⟩ (table.map Entry.mount))) := by
  cases hplace : kernel now ⟨force, path⟩ (table.map Entry.mount) with
  | none => exact h
  | some place =>
    obtain ⟨u, x, v, rfl, herase, -, -, -, hbare⟩ := hkernel.taken hplace
    rw [Umount.taken, herase]
    exact h.erased fun _ => hbare hrefuses

theorem TableInv.tmpfs (h : TableInv user dir table) (hnone : tmpfsAt dir table = none) :
    TableInv user dir (table ++ [⟨⟨user, dir⟩, false, false⟩]) := by
  have hno := tmpfsAt_eq_none.mp hnone
  refine ⟨?_, fun e he hpath => ?_⟩
  · refine List.pairwise_append.mpr ⟨h.single, List.pairwise_singleton _ _, ?_⟩
    exact fun e he _ _ hpath => absurd hpath (hno e he)
  · obtain he | he := List.mem_append.mp he
    · exact h.owner e he hpath
    · rw [List.mem_singleton.mp he]

theorem Anchored.tmpfs (h : Anchored user dir table) (hnone : tmpfsAt dir table = none) :
    Anchored user dir (table ++ [⟨⟨user, dir⟩, false, false⟩]) := by
  have hno := tmpfsAt_eq_none.mp hnone
  have hempty : ∀ e ∈ table, ¬ Inside user dir e := by
    intro e he hin
    obtain ⟨t, ht, hdir, -⟩ := h.rests e he hin
    exact hno t ht hdir
  refine ⟨?_, fun e he hin => ?_⟩
  · refine List.pairwise_append.mpr ⟨h.order, List.pairwise_singleton _ _, ?_⟩
    exact fun e he _ _ hin => absurd hin (hempty e he)
  · obtain he | he := List.mem_append.mp he
    · exact absurd hin (hempty e he)
    · rw [List.mem_singleton.mp he] at hin
      exact absurd hin (not_inside_of_eq rfl)

theorem mayMount_iff {s : State} {m : Umount.Mounted} : mayMount user dir s m = true ↔
    ¬ m.path <+: dir ∧ (m.mounter = user → dir <+: m.path → 0 < s.tools) := by
  simp only [mayMount, mine, Bool.and_eq_true, Bool.or_eq_true, Bool.not_eq_true',
    decide_eq_true_eq, ← Bool.not_eq_true, List.isPrefixOf_iff_prefix, ← imp_iff_not_or, and_imp]

theorem TableInv.mount (h : TableInv user dir table) {m : Umount.Mounted}
    (hup : ¬ m.path <+: dir) : TableInv user dir (table ++ [⟨m, false, false⟩]) := by
  have hpath : m.path ≠ dir := fun heq => hup (heq ▸ List.prefix_refl m.path)
  refine ⟨?_, fun e he hdir => ?_⟩
  · refine List.pairwise_append.mpr ⟨h.single, List.pairwise_singleton _ _, ?_⟩
    intro e _ y hy _
    rw [List.mem_singleton.mp hy]
    exact hpath
  · obtain he | he := List.mem_append.mp he
    · exact h.owner e he hdir
    · rw [List.mem_singleton.mp he] at hdir
      exact absurd hdir hpath

/-- A mount inside is anchored if the tmpfs is set up. -/
theorem Anchored.mount (h : Anchored user dir table) {m : Umount.Mounted}
    (hup : ¬ m.path <+: dir)
    (hset : m.mounter = user → dir <+: m.path → (tmpfsAt dir table).any Entry.setupDone = true) :
    Anchored user dir (table ++ [⟨m, false, false⟩]) := by
  refine ⟨?_, fun e he hin => ?_⟩
  · refine List.pairwise_append.mpr ⟨h.order, List.pairwise_singleton _ _, ?_⟩
    intro e _ y hy _
    rw [List.mem_singleton.mp hy]
    exact fun heq => hup (heq ▸ List.prefix_refl m.path)
  · obtain he | he := List.mem_append.mp he
    · obtain ⟨t, ht, hdone⟩ := h.rests e he hin
      exact ⟨t, List.mem_append_left _ ht, hdone⟩
    · rw [List.mem_singleton.mp he] at hin
      obtain ⟨hmine, c, rest, hrest⟩ := hin
      obtain ⟨t, ht, hdone⟩ := (Option.any_eq_true _ _).mp (hset hmine ⟨c :: rest, hrest.symm⟩)
      obtain ⟨hmem, hdir⟩ := tmpfsAt_some ht
      exact ⟨t, List.mem_append_left _ hmem, hdir, hdone⟩

theorem updateTmpfs_mount {f : Entry → Entry} (hmount : ∀ e, (f e).mount = e.mount) (e : Entry) :
    (if e.mount.path = dir then f e else e).mount = e.mount := by
  split
  · exact hmount e
  · rfl

/-- The writes of init_tmp_dir take nothing back. -/
theorem TableInv.update (h : TableInv user dir table) {f : Entry → Entry}
    (hmount : ∀ e, (f e).mount = e.mount) : TableInv user dir (updateTmpfs dir f table) := by
  refine ⟨?_, List.forall_mem_map.mpr fun e he => ?_⟩
  · refine List.pairwise_map.mpr (h.single.imp fun {x y} hxy => ?_)
    rw [updateTmpfs_mount hmount, updateTmpfs_mount hmount]
    exact hxy
  · rw [updateTmpfs_mount hmount]
    exact h.owner e he

theorem Anchored.update (h : Anchored user dir table) {f : Entry → Entry}
    (hmount : ∀ e, (f e).mount = e.mount)
    (hset : ∀ e, e.setupDone = true → (f e).setupDone = true) :
    Anchored user dir (updateTmpfs dir f table) := by
  refine ⟨?_, List.forall_mem_map.mpr fun e he hin => ?_⟩
  · refine List.pairwise_map.mpr (h.order.imp fun {x y} hxy => ?_)
    rw [Inside, updateTmpfs_mount hmount, updateTmpfs_mount hmount]
    exact hxy
  · rw [Inside, updateTmpfs_mount hmount] at hin
    obtain ⟨t, ht, hdir, hdone⟩ := h.rests e he hin
    refine ⟨_, List.mem_map_of_mem ht, ?_, ?_⟩
    · rw [updateTmpfs_mount hmount]
      exact hdir
    · rw [if_pos hdir]
      exact hset t hdone

/-- lsu-umount tries the directory itself last, and once. -/
theorem TableInv.paths_last (h : TableInv user dir table)
    (hcookie : readTmpDirCookie dir table = true) :
    ∃ ps, paths (table.map Entry.mount) user (pathText dir) = ps ++ [pathText dir] ∧
      pathText dir ∉ ps := by
  obtain ⟨t, ht, hdir, -⟩ := h.cookie_iff.mp hcookie
  have hmem : pathText dir ∈ paths (table.map Entry.mount) user (pathText dir) := by
    refine mem_paths.mpr ⟨t.mount, List.mem_map_of_mem ht, h.owner t ht hdir, ?_, ?_⟩
    · exact ⟨[], by rw [List.append_nil, Umount.Mounted.node, hdir]⟩
    · rw [Umount.Mounted.node, hdir]
  have honce : (paths (table.map Entry.mount) user (pathText dir)).Pairwise
      fun p q => p = pathText dir → q ≠ pathText dir := by
    have hsymm : ∀ {p q : Str}, (p = pathText dir → q ≠ pathText dir) →
        q = pathText dir → p ≠ pathText dir := fun hpq hq hp => hpq hp hq
    refine (paths_perm.pairwise_iff hsymm).mpr (List.pairwise_map.mpr ?_)
    refine List.Pairwise.sublist List.filter_sublist (List.pairwise_map.mpr ?_)
    refine h.single.imp fun {x y} hxy hx hy => ?_
    exact hxy (pathText_injective hx) (pathText_injective hy)
  have hdesc : (paths (table.map Entry.mount) user (pathText dir)).Pairwise
      fun p q => q ≤ p := paths_descend
  have hleast : ∀ p ∈ paths (table.map Entry.mount) user (pathText dir), pathText dir ≤ p := by
    intro p hp
    obtain ⟨m, -, -, hpre, rfl⟩ := mem_paths.mp hp
    exact PrefixCover.le_of_isPrefix hpre
  generalize paths (table.map Entry.mount) user (pathText dir) = ps at *
  cases ps using List.reverseRecOn with
  | nil => cases hmem
  | append_singleton ps last =>
    have hnot : pathText dir ∉ ps := by
      intro hps
      have hlast : last = pathText dir :=
        le_antisymm ((List.pairwise_append.mp hdesc).2.2 _ hps last List.mem_cons_self)
          (hleast last (by simp))
      exact (List.pairwise_append.mp honce).2.2 _ hps last List.mem_cons_self rfl hlast
    obtain hps | hlast := List.mem_append.mp hmem
    · exact absurd hps hnot
    · exact ⟨ps, by rw [List.mem_singleton.mp hlast], hnot⟩

end Table

/-- The paths that a running lsu-umount has yet to try. -/
def Pc.pending : Pc → List Str
  | .umount paths _ => paths
  | .force path paths _ => path :: paths
  | _ => []

section Runs
variable {kernel : Kernel} {user : Str} {dir : List Component} {s t : State} {e : Event}

/-- What a step does: bin/steam goes on, or begins with lsu-umount, which tries a path, or tries it
again; init_tmp_dir mounts or writes; and what the others do. -/
inductive Effect (kernel : Kernel) (user : Str) (dir : List Component) (s : State) :
    Event → State → Prop
  | move {e : Event} (pc : Pc) (hpc : pc.pending = []) :
      Effect kernel user dir s e { s with pc := pc }
  | begin (next : Next) (hpc : s.pc = .check next)
      (hcookie : readTmpDirCookie dir s.table = true) :
      Effect kernel user dir s .go { s with
        pc := .umount (paths (s.table.map Entry.mount) user (pathText dir)) next }
  | attempt (force : Bool) (path : Str) (rest : List Str) (next : Next)
      (hpending : s.pc.pending = path :: rest) :
      Effect kernel user dir s .go { s with
        table := taken s.table (answer kernel s force path)
        now := s.now + 1
        pc := .umount rest next }
  | again (path : Str) (rest : List Str) (next : Next) (hpc : s.pc = .umount (path :: rest) next) :
      Effect kernel user dir s .go { s with now := s.now + 1, pc := .force path rest next }
  | tmpfs (hnone : tmpfsAt dir s.table = none) :
      Effect kernel user dir s .tmpfs { s with
        table := s.table ++ [⟨⟨user, dir⟩, false, false⟩] }
  | write {e : Event} (f : Entry → Entry) (hmount : ∀ x, (f x).mount = x.mount)
      (hcookie : ∀ x, x.cookie = true → (f x).cookie = true)
      (hset : ∀ x, x.setupDone = true → (f x).setupDone = true)
      (hnew : (tmpfsAt dir s.table).any (fun x => !x.setupDone) = true) :
      Effect kernel user dir s e { s with table := updateTmpfs dir f s.table }
  | enter (hready : (tmpfsAt dir s.table).any Entry.setupDone = true) :
      Effect kernel user dir s .enter { s with tools := s.tools + 1 }
  | leave (hpos : 0 < s.tools) : Effect kernel user dir s .leave { s with tools := s.tools - 1 }
  | mount (m : Umount.Mounted) (hmay : mayMount user dir s m = true) :
      Effect kernel user dir s (.mount m) { s with table := s.table ++ [⟨m, false, false⟩] }
  | rescue (path : List Component) (hpath : path ≠ dir) :
      Effect kernel user dir s (.rescue path) { s with
        table := taken s.table (answer kernel s true (pathText path))
        now := s.now + 1 }
  | unmount (place : Nat) (hother : (s.table[place]?).any (fun x => !mine user x.mount) = true) :
      Effect kernel user dir s (.unmount place) { s with table := s.table.eraseIdx place }
  | wait : Effect kernel user dir s .wait { s with now := s.now + 1 }

theorem Next.pending (next : Next) : next.pc.pending = [] := by
  cases next <;> rfl

theorem go_effect (hstep : go kernel user dir s = some t) : Effect kernel user dir s .go t := by
  rw [go] at hstep
  split at hstep
  · rename_i next hpc
    split at hstep
    · rename_i hcookie
      obtain rfl := Option.some.inj hstep
      exact .begin next hpc hcookie
    · obtain rfl := Option.some.inj hstep
      exact .move _ next.pending
  · rename_i next hpc
    obtain rfl := Option.some.inj hstep
    exact .move _ next.pending
  · rename_i path rest next hpc
    split at hstep
    · rename_i place hplace
      obtain rfl := Option.some.inj hstep
      have hattempt : Effect kernel user dir s .go _ :=
        .attempt false path rest next (by rw [hpc, Pc.pending])
      rwa [hplace] at hattempt
    · obtain rfl := Option.some.inj hstep
      exact .again path rest next hpc
  · rename_i path rest next hpc
    obtain rfl := Option.some.inj hstep
    exact .attempt true path rest next (by rw [hpc, Pc.pending])
  · obtain rfl := Option.some.inj hstep
    exact .move _ rfl
  · cases hstep

theorem step_effect (hstep : step kernel user dir s e = some t) : Effect kernel user dir s e t := by
  cases e with
  | start =>
    rw [step] at hstep
    split at hstep
    · obtain rfl := Option.some.inj hstep
      exact .move _ rfl
    · cases hstep
  | go => exact go_effect hstep
  | done ok =>
    rw [step] at hstep
    split at hstep
    · obtain rfl := Option.some.inj hstep
      exact .move _ (by cases ok <;> rfl)
    · obtain rfl := Option.some.inj hstep
      exact .move _ (by cases ok <;> rfl)
    · cases hstep
  | exit status =>
    rw [step] at hstep
    split at hstep
    · obtain rfl := Option.some.inj hstep
      exact .move _ rfl
    · cases hstep
  | signal =>
    obtain rfl := Option.some.inj hstep
    exact .move _ (by split <;> rfl)
  | stop =>
    obtain rfl := Option.some.inj hstep
    exact .move _ rfl
  | tmpfs =>
    obtain ⟨hnone, hstep⟩ := Option.ite_none_right_eq_some.mp hstep
    obtain rfl := Option.some.inj hstep
    exact .tmpfs (Option.isNone_iff_eq_none.mp hnone)
  | writeCookie =>
    obtain ⟨hnew, hstep⟩ := Option.ite_none_right_eq_some.mp hstep
    obtain rfl := Option.some.inj hstep
    exact .write _ (fun _ => rfl) (fun _ _ => rfl) (fun _ hset => hset) hnew
  | writeSetupDone =>
    obtain ⟨hnew, hstep⟩ := Option.ite_none_right_eq_some.mp hstep
    obtain rfl := Option.some.inj hstep
    exact .write _ (fun _ => rfl) (fun _ hc => hc) (fun _ _ => rfl) hnew
  | enter =>
    obtain ⟨hready, hstep⟩ := Option.ite_none_right_eq_some.mp hstep
    obtain rfl := Option.some.inj hstep
    exact .enter hready
  | leave =>
    obtain ⟨hpos, hstep⟩ := Option.ite_none_right_eq_some.mp hstep
    obtain rfl := Option.some.inj hstep
    exact .leave hpos
  | mount m =>
    obtain ⟨hmay, hstep⟩ := Option.ite_none_right_eq_some.mp hstep
    obtain rfl := Option.some.inj hstep
    exact .mount m hmay
  | rescue path =>
    obtain ⟨hpath, hstep⟩ := Option.ite_none_right_eq_some.mp hstep
    obtain rfl := Option.some.inj hstep
    exact .rescue path hpath.2
  | unmount place =>
    obtain ⟨hother, hstep⟩ := Option.ite_none_right_eq_some.mp hstep
    obtain rfl := Option.some.inj hstep
    exact .unmount place hother
  | wait =>
    obtain rfl := Option.some.inj hstep
    exact .wait

/-- While lsu-umount has something to try, its tmpfs is there: it is the last to go. -/
structure Inv (user : Str) (dir : List Component) (s : State) : Prop where
  table : TableInv user dir s.table
  pending : s.pc.pending ≠ [] → readTmpDirCookie dir s.table = true ∧
    ∃ ps, s.pc.pending = ps ++ [pathText dir] ∧ pathText dir ∉ ps

/-- A change of the table that leaves the tmpfs with its cookie. -/
theorem Inv.changed (h : Inv user dir s) {table : List Entry} {now tools : Nat}
    (htable : TableInv user dir table)
    (hkeep : ∀ x ∈ s.table, x.mount.path = dir → x.cookie = true →
      ∃ y ∈ table, y.mount.path = dir ∧ y.cookie = true) :
    Inv user dir { s with table := table, now := now, tools := tools } := by
  refine ⟨htable, fun hne => ?_⟩
  obtain ⟨hcookie, hpending⟩ := h.pending hne
  obtain ⟨x, hx, hdir, hc⟩ := h.table.cookie_iff.mp hcookie
  exact ⟨htable.cookie_iff.mpr (hkeep x hx hdir hc), hpending⟩

theorem node_ne {x : Entry} {path : List Component} (hdir : x.mount.path = dir) (hne : path ≠ dir) :
    x.mount.node ≠ pathText path := by
  intro hnode
  exact hne (pathText_injective hnode.symm |>.trans hdir)

/-- An attempt of lsu-umount at the first of its paths. -/
theorem Inv.attempted (h : Inv user dir s) (hkernel : kernel.Obeys user) {path : Str}
    {rest : List Str} (next : Next) (force : Bool) (hpending : s.pc.pending = path :: rest) :
    Inv user dir { s with
      table := taken s.table (answer kernel s force path)
      now := s.now + 1
      pc := .umount rest next } := by
  have htable : TableInv user dir (taken s.table (answer kernel s force path)) :=
    h.table.sublist (taken_sublist _)
  refine ⟨htable, fun hrest => ?_⟩
  obtain ⟨hcookie, ps, hps, hnot⟩ := h.pending (by rw [hpending]; exact List.cons_ne_nil _ _)
  rw [hpending] at hps
  cases ps with
  | nil => exact absurd (List.cons.inj hps).2 hrest
  | cons q ps =>
    obtain ⟨rfl, hrest⟩ := List.cons.inj hps
    obtain ⟨x, hx, hdir, hc⟩ := h.table.cookie_iff.mp hcookie
    refine ⟨htable.cookie_iff.mpr ⟨x, mem_taken hkernel hx ?_, hdir, hc⟩, ps, hrest, ?_⟩
    · intro hnode
      rw [Umount.Mounted.node, hdir] at hnode
      exact absurd (hnode ▸ List.mem_cons_self) hnot
    · exact fun hps => hnot (List.mem_cons_of_mem _ hps)

theorem Inv.step (h : Inv user dir s) (hkernel : kernel.Obeys user)
    (hstep : step kernel user dir s e = some t) : Inv user dir t := by
  cases step_effect hstep with
  | move pc hpc => exact ⟨h.table, fun hne => absurd hpc hne⟩
  | begin next _ hcookie => exact ⟨h.table, fun _ => ⟨hcookie, h.table.paths_last hcookie⟩⟩
  | attempt force path rest next hpending => exact h.attempted hkernel next force hpending
  | again path rest next hpc =>
    have hpending : s.pc.pending = path :: rest := by rw [hpc, Pc.pending]
    have hold := h.pending (by rw [hpending]; exact List.cons_ne_nil path rest)
    rw [hpending] at hold
    exact ⟨h.table, fun _ => hold⟩
  | tmpfs hnone =>
    refine h.changed (h.table.tmpfs hnone) fun x hx hdir hc => ?_
    exact ⟨x, List.mem_append_left _ hx, hdir, hc⟩
  | write f hmount hcookie _ _ =>
    refine h.changed (h.table.update hmount) fun x hx hdir hc => ⟨f x, ?_, ?_, hcookie x hc⟩
    · have hmem := List.mem_map_of_mem (f := fun e => if e.mount.path = dir then f e else e) hx
      rwa [if_pos hdir] at hmem
    · rw [hmount]
      exact hdir
  | enter _ => exact ⟨h.table, h.pending⟩
  | leave _ => exact ⟨h.table, h.pending⟩
  | mount m hmay =>
    refine h.changed (h.table.mount (mayMount_iff.mp hmay).1) fun x hx hdir hc => ?_
    exact ⟨x, List.mem_append_left _ hx, hdir, hc⟩
  | rescue path hpath =>
    refine h.changed (h.table.sublist (taken_sublist _)) fun x hx hdir hc => ?_
    exact ⟨x, mem_taken hkernel hx (node_ne hdir hpath), hdir, hc⟩
  | unmount place hother =>
    refine h.changed (h.table.sublist (List.eraseIdx_sublist _ _)) fun x hx hdir hc => ?_
    exact ⟨x, mem_eraseIdx hother hx (h.table.owner x hx hdir), hdir, hc⟩
  | wait => exact ⟨h.table, h.pending⟩

theorem start_inv {table : List Entry} {now : Nat}
    (h0 : ∀ e ∈ table, ¬ AtOrBelow dir e.mount.path) : Inv user dir (start table now) := by
  have hout : ∀ e ∈ table, e.mount.path ≠ dir := fun e he hdir => h0 e he (Or.inl hdir)
  refine ⟨⟨?_, fun e he hdir => absurd hdir (hout e he)⟩, fun hne => absurd rfl hne⟩
  exact List.pairwise_of_forall_mem_list fun x _ y hy _ => hout y hy

theorem inv_of_run {table : List Entry} {now : Nat} {es : List Event}
    (hkernel : kernel.Obeys user) (h0 : ∀ e ∈ table, ¬ AtOrBelow dir e.mount.path)
    (hrun : run (Session.step kernel user dir) (start table now) es = some s) : Inv user dir s :=
  run_invariant (Inv user dir) (fun _ _ _ hr he => hr.step hkernel he) (start_inv h0) hrun

/-! A directory that was set up without a cookie. -/

/-- The tmpfs is set up, and has no cookie. -/
def NoCookie (user : Str) (dir : List Component) (s : State) : Prop :=
  ∃ t ∈ s.table, t.mount = ⟨user, dir⟩ ∧ t.setupDone = true ∧ t.cookie = false

theorem NoCookie.tmpfsAt (h : Inv user dir s) (hno : NoCookie user dir s) :
    ∃ x, tmpfsAt dir s.table = some x ∧ x.setupDone = true ∧ x.cookie = false := by
  obtain ⟨x, hx, hmount, hset, hc⟩ := hno
  exact ⟨x, h.table.tmpfsAt_eq hx (by rw [hmount]), hset, hc⟩

/-- With no cookie there is no lsu-umount. -/
theorem NoCookie.idle (h : Inv user dir s) (hno : NoCookie user dir s) :
    readTmpDirCookie dir s.table = false ∧ s.pc.pending = [] := by
  obtain ⟨x, hx, -, hc⟩ := hno.tmpfsAt h
  have hcookie : readTmpDirCookie dir s.table = false := by
    rw [readTmpDirCookie, hx]
    exact hc
  refine ⟨hcookie, ?_⟩
  by_contra hne
  rw [(h.pending hne).1] at hcookie
  cases hcookie

/-- What the user has on the directory or in it. -/
def Own (user : Str) (dir : List Component) (e : Entry) : Prop :=
  e.mount.mounter = user ∧ AtOrBelow dir e.mount.path

/-- No step but those of a rescue branch takes away what the user has there. -/
theorem NoCookie.step (h : Inv user dir s) (hno : NoCookie user dir s)
    (hrescue : ∀ path, e ≠ .rescue path) (hstep : step kernel user dir s e = some t) :
    ∀ x ∈ s.table, Own user dir x → x ∈ t.table := by
  obtain ⟨hcookie, hpending⟩ := hno.idle h
  obtain ⟨y, hy, hset, -⟩ := hno.tmpfsAt h
  intro x hx hown
  cases step_effect hstep with
  | move => exact hx
  | begin next _ hc =>
    rw [hcookie] at hc
    cases hc
  | attempt force path rest next hp =>
    rw [hpending] at hp
    cases hp
  | again => exact hx
  | tmpfs hnone =>
    rw [hy] at hnone
    cases hnone
  | write f _ _ _ hnew =>
    rw [hy, Option.any_some, hset] at hnew
    cases hnew
  | enter => exact hx
  | leave => exact hx
  | mount => exact List.mem_append_left _ hx
  | rescue path => exact absurd rfl (hrescue path)
  | unmount place hother => exact mem_eraseIdx hother hx hown.1
  | wait => exact hx

/-- A directory set up without a cookie is left alone by every session: starts, ends, restarts
and signals take nothing away that the user has there. -/
theorem kept_without_cookie (kernel : Kernel) (user : Str) (dir : List Component)
    (table : List Entry) (now : Nat) (es es' : List Event) (s t : State)
    (hkernel : kernel.Obeys user) (h0 : ∀ e ∈ table, ¬ AtOrBelow dir e.mount.path)
    (hrun : run (step kernel user dir) (start table now) es = some s)
    (hno : NoCookie user dir s) (hrescue : ∀ path, .rescue path ∉ es')
    (hrun' : run (step kernel user dir) s es' = some t) :
    ∀ x ∈ s.table, Own user dir x → x ∈ t.table := by
  have hinv := inv_of_run hkernel h0 hrun
  clear hrun
  induction es' generalizing s with
  | nil =>
    obtain rfl : s = t := by simpa using hrun'
    exact fun x hx _ => hx
  | cons e es' ih =>
    obtain ⟨r, hr, hrun'⟩ := run_cons.mp hrun'
    have hkeep := hno.step hinv (fun path he => hrescue path (he ▸ List.mem_cons_self)) hr
    have hnor : NoCookie user dir r := by
      obtain ⟨y, hy, hmount, hset, hc⟩ := hno
      exact ⟨y, hkeep y hy ⟨by rw [hmount], Or.inl (by rw [hmount])⟩, hmount, hset, hc⟩
    intro x hx hown
    exact ih r hnor (fun path hp => hrescue path (List.mem_cons_of_mem e hp)) hrun'
      (hinv.step hkernel hr) x (hkeep x hx hown) hown

/-! A session with a runtime in the directory. -/

def you : Str := "user".toList
def soldier : List Component := steamTmp ++ [component "soldier" (by decide)]
def varOnly : List Entry := [⟨⟨"root".toList, [component "var" (by decide)]⟩, false, false⟩]

def strictly : Kernel := strict you fun _ => false

def upToClient : List Event := [.start, .go, .done true, .done true]

theorem var_outside : ∀ e ∈ varOnly, ¬ AtOrBelow steamTmp e.mount.path := by
  intro e he h
  obtain rfl := List.mem_singleton.mp he
  have hbears := bears_iff (m := ⟨you, steamTmp⟩).mpr h
  exact absurd hbears (by decide)

theorem kept_without_cookie_session :
    ∃ s t, run (step strictly you steamTmp) (start varOnly 0)
        [.tmpfs, .writeSetupDone, .enter, .mount ⟨you, soldier⟩, .leave] = some s ∧
      run (step strictly you steamTmp) s
        (upToClient ++ [.exit (some 42), .go, .go, .signal, .go, .go]) = some t ∧
      ⟨⟨you, soldier⟩, false, false⟩ ∈ t.table := by
  refine ⟨_, _, rfl, rfl, ?_⟩
  refine kept_without_cookie strictly you steamTmp varOnly 0
    [.tmpfs, .writeSetupDone, .enter, .mount ⟨you, soldier⟩, .leave]
    (upToClient ++ [.exit (some 42), .go, .go, .signal, .go, .go]) _ _ (strict_obeys _ _)
    var_outside rfl
    ⟨⟨⟨you, steamTmp⟩, false, true⟩, by simp [varOnly, updateTmpfs], rfl, rfl, rfl⟩ ?_ rfl
    ⟨⟨you, soldier⟩, false, false⟩ (by simp [varOnly, updateTmpfs])
    ⟨rfl, Or.inr ⟨_, [], rfl⟩⟩
  simp [upToClient]

end Runs

end LSU.Session
