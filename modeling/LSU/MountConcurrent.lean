import Mathlib.Logic.Function.Basic
import LSU.MountRuntime
import LSU.Run

/-! Processes of lsu-mount-runtime on one mount point. Their steps are interleaved, and each can
be killed between two steps. What comes before the mount of the tmpfs mounts nothing on mroot and
is left out. -/
namespace LSU.MountConcurrent
open LSU.Run LSU.Program LSU.Program.Script LSU.Mounts LSU.MountRuntime

abbrev Pid := Nat

/-- A mount, and the process that has made it. -/
structure Entry where
  info : MountInfo
  mounter : Option Pid

inductive Phase where
  | mountRoot (p : Prog Op.Answer (Except Err Bool × Vars))
  | setUp (p : Prog Op.Answer (Except Err Unit × Vars))
  | rescue (paths : List Str)
  | lastDitch (p : Prog Op.Answer (Except Err Unit × Vars))
  | exited (status : Nat)
  | killed

structure Process where
  env : Env
  phase : Phase

/-- The mount table, the newest mount first. -/
structure State where
  table : List Entry
  procs : Pid → Option Process
  completed : Pid → Bool

/-- A process gets an answer to its question, does an umount of the rescue branch, or goes on to
its next phase. -/
inductive Event where
  | spawn (pid : Pid) (env : Env)
  | reply (pid : Pid) (world : ∀ op, Op.Answer op)
  | umount (pid : Pid) (worked : Bool)
  | go (pid : Pid)
  | kill (pid : Pid)

def Phase.reply (world : ∀ op, Op.Answer op) : Phase → Option (Turn Op.Answer × Phase)
  | .mountRoot p => (p.reply world).map fun (turn, q) => (turn, .mountRoot q)
  | .setUp p => (p.reply world).map fun (turn, q) => (turn, .setUp q)
  | .lastDitch p => (p.reply world).map fun (turn, q) => (turn, .lastDitch q)
  | _ => none

/-- What follows the phase. -/
def Phase.next (env : Env) : Phase → Option Phase
  | .mountRoot (.pure (.ok true, v)) => some (.setUp (MountRuntime.setUp env v))
  | .mountRoot (.pure (.ok false, v)) => some (.lastDitch (MountRuntime.lastDitch env v))
  | .mountRoot (.pure (.error _, _)) => some (.exited 1)
  | .setUp (.pure (.ok (), v)) => some (.lastDitch (MountRuntime.lastDitch env v))
  | .setUp (.pure (.error _, v)) => some (.rescue (unmounts v))
  | .rescue [] => some (.exited 1)
  | .lastDitch (.pure (.ok (), _)) => some (.exited 0)
  | .lastDitch (.pure (.error _, _)) => some (.exited 1)
  | _ => none

/-- It is behind the last statement of the begin block. -/
def Phase.completes : Phase → Bool
  | .setUp (.pure (.ok (), _)) => true
  | _ => false

def Phase.alive : Phase → Bool
  | .exited _ => false
  | .killed => false
  | _ => true

def State.mountedOn (s : State) (node : Str) : Bool := s.table.any fun e => e.info.node = node

/-- What the system can answer. A nocover mount fails if and only if something is mounted there. -/
def allowed (canonical : Str → Str) (s : State) : Turn Op.Answer → Bool
  | ⟨.mountCmd _ _ dst options, (answer : Bool)⟩ =>
    options ≠ some "nocover" || answer = !s.mountedOn (canonical dst)
  | ⟨.realpath path, (answer : Option Str)⟩ => answer.all (· = canonical path)
  | ⟨.allMounts, (answer : Option (List MountInfo))⟩ =>
    answer.all (· = s.table.map Entry.info)
  | _ => true

/-- The mount a turn adds to the table. -/
def entries (canonical : Str → Str) (pid : Pid) : Turn Op.Answer → List Entry
  | ⟨.mountCmd fs _ dst _, (answer : Bool)⟩ =>
    if answer then [⟨⟨canonical dst, fs.toList⟩, some pid⟩] else []
  | _ => []

def State.put (s : State) (pid : Pid) (p : Process) : State :=
  { s with procs := Function.update s.procs pid (some p) }

def step (canonical : Str → Str) (mroot : Str) (s : State) : Event → Option State
  | .spawn pid env =>
    if (s.procs pid).isNone ∧ env.mroot = mroot then
      some (s.put pid ⟨env, .mountRoot (MountRuntime.mountRoot env noVars)⟩)
    else
      none
  | .reply pid world => do
    let p ← s.procs pid
    let (turn, phase) ← p.phase.reply world
    if allowed canonical s turn then
      return { s with table := entries canonical pid turn ++ s.table }.put pid ⟨p.env, phase⟩
    else
      none
  | .umount pid worked => do
    let p ← s.procs pid
    match p.phase with
    | .rescue (path :: paths) =>
      let table := if worked then s.table.eraseP (·.info.node = canonical path) else s.table
      return { s with table := table }.put pid ⟨p.env, .rescue paths⟩
    | _ => none
  | .go pid => do
    let p ← s.procs pid
    let phase ← p.phase.next p.env
    let completed :=
      if p.phase.completes then Function.update s.completed pid true else s.completed
    return { s with completed := completed }.put pid ⟨p.env, phase⟩
  | .kill pid => do
    let p ← s.procs pid
    if p.phase.alive then return s.put pid ⟨p.env, .killed⟩ else none

/-- No process has been started, and no mount is one of theirs. -/
def start (table : List MountInfo) : State :=
  ⟨table.map fun info => ⟨info, none⟩, fun _ => none, fun _ => false⟩

/-- Who has mounted what is on a node, the newest mount first. -/
def State.mounters (s : State) (node : Str) : List (Option Pid) :=
  (s.table.filter fun e => e.info.node = node).map Entry.mounter

/-- Everything on the node has been mounted by processes that have completed the set-up. -/
def State.Complete (s : State) (node : Str) : Prop :=
  ∀ mounter ∈ s.mounters node, mounter.any s.completed = true

instance (s : State) (node : Str) : Decidable (s.Complete node) :=
  inferInstanceAs (Decidable (∀ mounter ∈ s.mounters node, mounter.any s.completed = true))

/-- The chroot is there, and its set-up is complete. -/
def State.SetUp (s : State) (node : Str) : Prop := s.mounters node ≠ [] ∧ s.Complete node

def State.exitStatus (s : State) (pid : Pid) : Option Nat := do
  let p ← s.procs pid
  match p.phase with
  | .exited status => some status
  | _ => none

/-- It is about to mount the tmpfs. -/
def Phase.mounts : Phase → Bool
  | .mountRoot (.call (.mountCmd ..) _) => true
  | _ => false

/-- A process at the mount of the tmpfs finds nothing mounted, or a complete chroot. -/
def Timely (node : Str) (s : State) : Event → Prop
  | .reply pid _ => (s.procs pid).any (·.phase.mounts) = true → s.Complete node
  | _ => True

instance (node : Str) (s : State) : ∀ e, Decidable (Timely node s e)
  | .reply pid _ =>
    inferInstanceAs (Decidable ((s.procs pid).any (·.phase.mounts) = true → s.Complete node))
  | .spawn .. => isTrue trivial
  | .umount .. => isTrue trivial
  | .go _ => isTrue trivial
  | .kill _ => isTrue trivial

/-- Every mount command asked for is of a kind. -/
def MountsAs (ok : Str → Option String → Prop) : Op → Prop
  | .mountCmd _ _ dst options => ok dst options
  | _ => True

section Calls
variable {ok : Str → Option String → Prop}

theorem calls_fileRealpath (path : Str) : (fileRealpath path).Calls (MountsAs ok) := by
  refine .bind (.ask trivial) fun answer => ?_
  cases answer with
  | some resolved => exact fun _ => trivial
  | none => exact fun _ => trivial

theorem calls_tryMount (fs : String) (src : Str) {dst : Str} {options : Option String}
    (h : ok dst options) : (tryMount fs src dst options).Calls (MountsAs ok) := by
  have hask : ∀ op, MountsAs ok op → (ask op : Ruby _).Calls (MountsAs ok) :=
    fun op hop => .ask hop
  have hrun : (runMount fs src dst options).Calls (MountsAs ok) := by
    refine .bind (hask _ h) fun mounted => ?_
    cases mounted with
    | true => exact calls_fileRealpath dst
    | false => exact fun _ => trivial
  have hpoint : (makeMountPoint fs src dst).Calls (MountsAs ok) := by
    refine .bind (hask _ trivial) fun exists? => ?_
    cases exists? with
    | true => exact fun _ => trivial
    | false =>
      have hfile : (mountsFile fs src).Calls (MountsAs ok) := by
        unfold mountsFile
        split
        · exact hask _ trivial
        · exact fun _ => trivial
      refine .bind hfile fun file => ?_
      cases file with
      | true => exact hask _ trivial
      | false =>
        refine .bind (hask _ trivial) fun errno => ?_
        cases errno with
        | none => exact hask _ trivial
        | some errno => exact fun _ => trivial
  have hmount : (Mounts.mount fs src dst options).Calls (MountsAs ok) := by
    refine .bind hpoint fun errno => ?_
    cases errno with
    | none => exact hrun
    | some errno =>
      cases errno with
      | acces => exact hrun
      | rofs => exact hrun
      | other => exact fun _ => trivial
  refine .bind (.attempt hmount) fun out => ?_
  cases out with
  | ok path => exact fun _ => trivial
  | error e =>
    cases e with
    | mountError => exact fun _ => trivial
    | other => exact fun _ => trivial

/-- User directories are mounted nocover only. -/
def NoCover : Op → Prop := MountsAs fun _ options => options = some "nocover"

theorem calls_tryMountUserDir (mroot path : Str) : (tryMountUserDir mroot path).Calls NoCover := by
  unfold tryMountUserDir
  split
  · refine .bind (calls_fileRealpath path) fun resolved => ?_
    split
    · exact calls_tryMount _ _ rfl
    · exact fun _ => trivial
  · exact fun _ => trivial

theorem calls_mirrorLoop (mroot : Str) (source : List MountInfo) (nodeToSkip : Option Str) :
    (mirrorLoop mroot source nodeToSkip).Calls NoCover := by
  induction source generalizing nodeToSkip with
  | nil => exact fun _ => trivial
  | cons info rest ih =>
    rw [mirrorLoop]
    split
    · exact ih nodeToSkip
    · split
      · exact ih (some info.node)
      · refine .bind (calls_tryMountUserDir mroot info.node) fun out => ?_
        cases out with
        | none => exact ih (some info.node)
        | some path => exact .bind (fun _ => trivial) fun _ => ih none

theorem calls_mirrorMounts (mroot dir : Str) : (mirrorMounts mroot dir).Calls NoCover := by
  have htable : getAllMounts.Calls NoCover := by
    refine .bind (fun _ => trivial) fun v => ?_
    split
    · exact fun _ => trivial
    · refine .bind (.ask trivial) fun table => ?_
      cases table with
      | some table => exact .bind (fun _ => trivial) fun _ _ => trivial
      | none => exact fun _ => trivial
  refine .bind htable fun table => .bind (calls_mirrorLoop mroot _ none) fun _ => ?_
  exact .bind (fun _ => trivial) fun _ => .bind (fun _ => trivial) fun _ _ => trivial

theorem calls_lastDitch (env : Env) : (MountRuntime.lastDitch env).Calls NoCover := by
  refine .forM _ fun dir => ?_
  have hreach : (reachDir env.mroot dir).Calls NoCover :=
    .bind (calls_tryMountUserDir env.mroot dir) fun _ =>
      .bind (calls_mirrorMounts env.mroot dir) fun _ _ => trivial
  refine .bind (.ask trivial) fun there => ?_
  cases there with
  | false => exact hreach
  | true =>
    refine .bind (.ask trivial) fun unmounted => ?_
    cases unmounted with
    | true => exact hreach
    | false => exact fun _ => trivial

/-- The only mount of its phase is that of the tmpfs. -/
def Tmpfs (mroot : Str) : Op → Prop :=
  MountsAs fun dst options => dst = mroot ∧ options = some "nocover"

theorem Tmpfs.noCover {mroot : Str} {op : Op} (h : Tmpfs mroot op) : NoCover op := by
  cases op with
  | mountCmd fs src dst options => exact h.2
  | _ => trivial

theorem calls_mountRoot (env : Env) : (MountRuntime.mountRoot env).Calls (Tmpfs env.mroot) := by
  refine .bind (calls_tryMount _ _ ⟨rfl, rfl⟩) fun out => ?_
  cases out with
  | some path => exact .bind (fun _ => trivial) fun _ _ => trivial
  | none => exact fun _ => trivial

end Calls

/-- A mount command has failed. -/
def MountFailed (hist : List (Turn Op.Answer)) : Prop :=
  ∃ fs src dst options, ⟨.mountCmd fs src dst options, false⟩ ∈ hist

theorem triple_tryMount_none (fs : String) (src dst : Str) (options : Option String) :
    Triple (fun _ _ => True) (tryMount fs src dst options)
      (fun out _ hist => out = none → MountFailed hist) (fun _ _ _ => True) := by
  have hrun : Triple (fun _ _ => True) (runMount fs src dst options)
      (fun _ _ _ => True) (fun e _ hist => e = .mountError → MountFailed hist) := by
    refine .bind (Q := fun mounted _ hist => mounted = false → MountFailed hist)
      (.ask _ fun mounted v hist _ hmounted => ⟨fs, src, dst, options, by simp [hmounted]⟩)
      fun mounted => ?_
    cases mounted with
    | true =>
      refine .bind (Q := fun _ _ _ => True) (.ask _ fun _ _ _ _ => True.intro) fun path => ?_
      cases path with
      | some path => exact .pure _ fun _ _ _ => True.intro
      | none => exact .raise _ fun _ _ _ h => absurd h (by decide)
    | false => exact .raise _ fun _ _ h _ => h rfl
  have hmount : Triple (fun _ _ => True) (Mounts.mount fs src dst options)
      (fun _ _ _ => True) (fun e _ hist => e = .mountError → MountFailed hist) := by
    refine .bind (triple_makeMountPoint (fun _ _ => True.intro) fs src dst) fun errno => ?_
    cases errno with
    | none => exact hrun
    | some errno =>
      cases errno with
      | acces => exact hrun
      | rofs => exact hrun
      | other => exact .raise _ fun _ _ _ h => absurd h (by decide)
  refine .bind (.attempt (S := fun out _ hist => out = .error .mountError → MountFailed hist)
    (hmount.conseq (fun _ _ h => h) (fun _ _ _ _ h => absurd h (by simp))
      fun e _ _ h he => h (Except.error.inj he))) fun out => ?_
  cases out with
  | ok path => exact .pure _ fun _ _ _ h => absurd h (by simp)
  | error e =>
    cases e with
    | mountError => exact .pure _ fun _ _ h _ => h rfl
    | other => exact .raise _ fun _ _ _ => True.intro

theorem triple_mountRoot_result (env : Env) :
    Triple (fun _ _ => True) (MountRuntime.mountRoot env)
      (fun mounted v hist => if mounted then env.mroot ∈ v.mounts else MountFailed hist)
      (fun _ _ _ => True) := by
  refine .bind (triple_tryMount_none _ _ env.mroot _) fun out => ?_
  cases out with
  | none => exact .pure _ fun _ _ h => h rfl
  | some path =>
    refine .bind (.modify (Q := fun _ v _ => env.mroot ∈ v.mounts) _ fun v _ _ => ?_)
      fun _ => .pure _ fun _ _ h => h
    simp

section Faithful
variable {canonical : Str → Str} {mroot : Str} {s : State}

theorem mounters_eq_nil {node : Str} : s.mounters node = [] ↔ s.mountedOn node = false := by
  simp [State.mounters, State.mountedOn, List.filter_eq_nil_iff]

/-- The mounters on a node after a turn. -/
theorem mounters_reply (canonical : Str → Str) (s : State) (pid : Pid) (turn : Turn Op.Answer)
    (node : Str) :
    State.mounters { s with table := entries canonical pid turn ++ s.table } node =
      if node ∈ mountedBy canonical turn then some pid :: s.mounters node else s.mounters node := by
  obtain ⟨op, answer⟩ := turn
  cases op with
  | mountCmd fs src dst options =>
    cases answer with
    | false => simp [State.mounters, entries, mountedBy]
    | true =>
      by_cases hnode : canonical dst = node
      · simp [State.mounters, entries, mountedBy, hnode]
      · have hne : ¬ node = canonical dst := fun h => hnode h.symm
        simp [State.mounters, entries, mountedBy, hnode, hne]
  | _ => simp [State.mounters, entries, mountedBy]

theorem mounters_eraseP (table : List Entry) (resolved node : Str) :
    State.mounters { s with table := table.eraseP (·.info.node = resolved) } node =
      if resolved = node then (State.mounters { s with table := table } node).tail
      else State.mounters { s with table := table } node := by
  induction table with
  | nil => simp [State.mounters]
  | cons e table ih =>
    simp only [State.mounters] at ih ⊢
    by_cases he : e.info.node = resolved
    · by_cases hnode : resolved = node
      · simp [he, hnode]
      · simp [he, hnode]
    · rw [List.eraseP_cons_of_neg (by simpa using he)]
      by_cases hnode : resolved = node
      · subst hnode
        simpa [he] using ih
      · rw [if_neg hnode] at ih ⊢
        simp only [List.filter_cons, apply_ite (List.map Entry.mounter), List.map_cons, ih]

/-- An umount that works takes the newest mounter off the node of its path. -/
theorem mounters_umount (s : State) (worked : Bool) (resolved node : Str) :
    State.mounters { s with
        table := if worked then s.table.eraseP (·.info.node = resolved) else s.table } node =
      if worked = true ∧ resolved = node then (s.mounters node).tail else s.mounters node := by
  cases worked with
  | false => simp [State.mounters]
  | true => simpa using mounters_eraseP s.table resolved node

theorem count_mountedBy (turn : Turn Op.Answer) (node : Str) :
    (mountedBy canonical turn).count node = if node ∈ mountedBy canonical turn then 1 else 0 := by
  obtain ⟨op, answer⟩ := turn
  cases op with
  | mountCmd fs src dst options =>
    cases answer with
    | false => simp [mountedBy]
    | true =>
      by_cases hnode : canonical dst = node
      · simp [mountedBy, hnode]
      · have hne : ¬ node = canonical dst := fun h => hnode h.symm
        simp [mountedBy, hnode, hne]
  | _ => simp [mountedBy]

theorem faithful_concat {hist : List (Turn Op.Answer)} {turn : Turn Op.Answer}
    (h : Faithful canonical hist) (hallowed : allowed canonical s turn = true) :
    Faithful canonical (hist ++ [turn]) := by
  refine h.append fun path resolved hmem => ?_
  obtain rfl := List.mem_singleton.mp hmem
  simpa [allowed] using hallowed

/-- A nocover mount that succeeds finds nothing on its node. -/
theorem mounters_nocover {turn : Turn Op.Answer} {node : Str} (hkind : NoCover turn.1)
    (hallowed : allowed canonical s turn = true) (hmem : node ∈ mountedBy canonical turn) :
    s.mounters node = [] := by
  obtain ⟨op, answer⟩ := turn
  cases op with
  | mountCmd fs src dst options =>
    obtain rfl : options = some "nocover" := hkind
    cases answer with
    | false => exact absurd hmem (by simp [mountedBy])
    | true =>
      obtain rfl : node = canonical dst := by simpa [mountedBy] using hmem
      exact mounters_eq_nil.mpr (by simpa [allowed] using hallowed)
  | _ => exact absurd hmem List.not_mem_nil

end Faithful

section Invariant
variable (canonical : Str → Str) (mroot : Str)

/-- The turns of a process account for all it has mounted on mroot. -/
structure Accounts (s : State) (pid : Pid) (hist : List (Turn Op.Answer)) : Prop where
  incomplete : s.completed pid = false
  faithful : Faithful canonical hist
  count : (s.mounters (canonical mroot)).count (some pid) =
    (made canonical hist).count (canonical mroot)

def PhaseInv (s : State) (pid : Pid) : Option Process → Prop
  | none => Accounts canonical mroot s pid []
  | some ⟨env, .mountRoot p⟩ => env.mroot = mroot ∧ ∃ hist,
      Feeds (MountRuntime.mountRoot env noVars) hist p ∧ Accounts canonical mroot s pid hist ∧
        (MountFailed hist → s.SetUp (canonical mroot))
  | some ⟨env, .setUp p⟩ => env.mroot = mroot ∧ ∃ hist tr v,
      Ends (MountRuntime.mountRoot env) noVars hist (.ok true) v ∧
        Feeds (MountRuntime.setUp env v) tr p ∧ Accounts canonical mroot s pid (hist ++ tr)
  | some ⟨_, .rescue paths⟩ => s.completed pid = false ∧
      (paths.map canonical).count (canonical mroot) ≤
        (s.mounters (canonical mroot)).count (some pid)
  | some ⟨_, .lastDitch p⟩ => p.Calls NoCover ∧ s.SetUp (canonical mroot)
  | some ⟨_, .exited status⟩ => status = 0 → s.SetUp (canonical mroot)
  | some ⟨_, .killed⟩ => True

/-- All mounts on mroot are of one process, and every process is where its phase says. -/
structure Inv (s : State) : Prop where
  single : ∀ a ∈ s.mounters (canonical mroot), ∀ b ∈ s.mounters (canonical mroot), a = b
  phases : ∀ pid, PhaseInv canonical mroot s pid (s.procs pid)

variable {canonical mroot} {s t : State}

theorem Inv.phase {pid : Pid} {p : Process} (hs : Inv canonical mroot s)
    (hproc : s.procs pid = some p) : PhaseInv canonical mroot s pid (some p) :=
  hproc ▸ hs.phases pid

/-- What a step leaves to the other processes. -/
structure Frame (canonical : Str → Str) (mroot : Str) (s t : State) (pid : Pid) : Prop where
  completed : t.completed pid = s.completed pid
  count : (t.mounters (canonical mroot)).count (some pid) =
    (s.mounters (canonical mroot)).count (some pid)
  setUp : s.SetUp (canonical mroot) → t.SetUp (canonical mroot)

theorem Accounts.frame {pid : Pid} {hist : List (Turn Op.Answer)}
    (h : Accounts canonical mroot s pid hist) (hframe : Frame canonical mroot s t pid) :
    Accounts canonical mroot t pid hist :=
  ⟨hframe.completed.trans h.incomplete, h.faithful, hframe.count.trans h.count⟩

theorem PhaseInv.frame {pid : Pid} {p : Option Process} (h : PhaseInv canonical mroot s pid p)
    (hframe : Frame canonical mroot s t pid) : PhaseInv canonical mroot t pid p := by
  cases p with
  | none => exact Accounts.frame h hframe
  | some p =>
    obtain ⟨env, phase⟩ := p
    cases phase with
    | mountRoot p =>
      obtain ⟨henv, hist, hfeeds, hacc, hfailed⟩ := h
      exact ⟨henv, hist, hfeeds, hacc.frame hframe, fun hf => hframe.setUp (hfailed hf)⟩
    | setUp p =>
      obtain ⟨henv, hist, tr, v, hends, hfeeds, hacc⟩ := h
      exact ⟨henv, hist, tr, v, hends, hfeeds, hacc.frame hframe⟩
    | rescue paths => exact ⟨hframe.completed.trans h.1, hframe.count ▸ h.2⟩
    | lastDitch p => exact ⟨h.1, hframe.setUp h.2⟩
    | exited status => exact fun hstatus => hframe.setUp (h hstatus)
    | killed => trivial

/-- The invariant after a step of one process: its own phase, and the frame of the others. -/
theorem Inv.put {q : Pid} {p : Process} (hs : Inv canonical mroot s)
    (hprocs : t.procs = s.procs)
    (hsingle : ∀ a ∈ t.mounters (canonical mroot), ∀ b ∈ t.mounters (canonical mroot), a = b)
    (hframe : ∀ pid, pid ≠ q → Frame canonical mroot s t pid)
    (hq : PhaseInv canonical mroot t q (some p)) : Inv canonical mroot (t.put q p) := by
  have hput : ∀ pid, Frame canonical mroot t (t.put q p) pid := fun pid => ⟨rfl, rfl, id⟩
  refine ⟨hsingle, fun pid => ?_⟩
  by_cases hpid : pid = q
  · subst hpid
    simpa [State.put] using hq.frame (hput pid)
  · have hother := ((hs.phases pid).frame (hframe pid hpid)).frame (hput pid)
    simpa [State.put, Function.update_of_ne hpid, hprocs] using hother

/-- A process may mount on mroot where nothing is mounted yet, or on its own mounts. -/
def MayMount (canonical : Str → Str) (mroot : Str) (s : State) (q : Pid) : Prop :=
  s.mounters (canonical mroot) = [] ∨
    (some q ∈ s.mounters (canonical mroot) ∧ s.completed q = false)

theorem MayMount.not_setUp {q : Pid} (h : MayMount canonical mroot s q) :
    ¬ s.SetUp (canonical mroot) := by
  intro hsetup
  obtain hnil | ⟨hmem, hopen⟩ := h
  · exact hsetup.1 hnil
  · have hdone : s.completed q = true := hsetup.2 _ hmem
    exact absurd (hopen.symm.trans hdone) Bool.false_ne_true

/-- What a turn of a process does to the mounters of mroot. -/
theorem reply_effect {q : Pid} {turn : Turn Op.Answer} (hs : Inv canonical mroot s)
    (hmay : canonical mroot ∈ mountedBy canonical turn → MayMount canonical mroot s q)
    (ht : t = { s with table := entries canonical q turn ++ s.table }) :
    (∀ a ∈ t.mounters (canonical mroot), ∀ b ∈ t.mounters (canonical mroot), a = b) ∧
      (∀ pid, pid ≠ q → Frame canonical mroot s t pid) ∧
      (s.SetUp (canonical mroot) → t.SetUp (canonical mroot)) ∧
      (t.mounters (canonical mroot)).count (some q) =
        (s.mounters (canonical mroot)).count (some q) +
          (mountedBy canonical turn).count (canonical mroot) := by
  have hmounters := mounters_reply canonical s q turn (canonical mroot)
  rw [← ht] at hmounters
  have hcompleted : t.completed = s.completed := by rw [ht]
  rw [count_mountedBy]
  by_cases hmem : canonical mroot ∈ mountedBy canonical turn
  · rw [if_pos hmem] at hmounters ⊢
    have hnot := (hmay hmem).not_setUp
    have hall : ∀ a ∈ s.mounters (canonical mroot), a = some q := by
      intro a ha
      obtain hnil | ⟨hq, -⟩ := hmay hmem
      · exact absurd ha (by simp [hnil])
      · exact hs.single a ha _ hq
    refine ⟨?_, fun pid hpid => ⟨by rw [hcompleted], ?_, fun h => absurd h hnot⟩,
      fun h => absurd h hnot, by simp [hmounters]⟩
    · simp only [hmounters, List.mem_cons]
      rintro a (rfl | ha) b (rfl | hb)
      · rfl
      · exact (hall b hb).symm
      · exact hall a ha
      · exact hs.single a ha b hb
    · rw [hmounters, List.count_cons_of_ne (by simpa using fun h => hpid h.symm)]
  · rw [if_neg hmem] at hmounters ⊢
    have hsetup : s.SetUp (canonical mroot) → t.SetUp (canonical mroot) := by
      simp only [State.SetUp, State.Complete, hmounters, hcompleted, imp_self]
    refine ⟨by rw [hmounters]; exact hs.single, fun pid hpid => ?_, hsetup, by rw [hmounters]; rfl⟩
    exact ⟨by rw [hcompleted], by rw [hmounters], hsetup⟩

theorem Accounts.concat {q : Pid} {hist : List (Turn Op.Answer)} {turn : Turn Op.Answer}
    (h : Accounts canonical mroot s q hist) (hallowed : allowed canonical s turn = true)
    (hcompleted : t.completed = s.completed)
    (hcount : (t.mounters (canonical mroot)).count (some q) =
      (s.mounters (canonical mroot)).count (some q) +
        (mountedBy canonical turn).count (canonical mroot)) :
    Accounts canonical mroot t q (hist ++ [turn]) := by
  refine ⟨by rw [hcompleted, h.incomplete], faithful_concat h.faithful hallowed, ?_⟩
  rw [hcount, h.count, made_append, List.count_append]
  simp [made]

theorem reply_mounts {world : ∀ op, Op.Answer op} {p p' : Prog Op.Answer (Except Err Bool × Vars)}
    {fs : String} {src dst : Str} {options : Option String} {answer : Bool}
    (h : p.reply world = some (⟨.mountCmd fs src dst options, answer⟩, p')) :
    (Phase.mountRoot p).mounts = true := by
  cases p with
  | pure a => exact absurd h (by simp [Prog.reply])
  | call op next =>
    have hop := congrArg Sigma.fst (Prod.mk.inj (Option.some.inj h)).1
    simp only at hop
    subst hop
    rfl

/-- The step of a process at the mount of the tmpfs. -/
theorem inv_reply_mountRoot {q : Pid} {env : Env} {world : ∀ op, Op.Answer op}
    {p p' : Prog Op.Answer (Except Err Bool × Vars)} {turn : Turn Op.Answer}
    (hs : Inv canonical mroot s) (htimely : Timely (canonical mroot) s (.reply q world))
    (hproc : s.procs q = some ⟨env, .mountRoot p⟩) (hr : p.reply world = some (turn, p'))
    (hallowed : allowed canonical s turn = true) :
    Inv canonical mroot
      (State.put { s with table := entries canonical q turn ++ s.table } q
        ⟨env, .mountRoot p'⟩) := by
  obtain ⟨henv, hist, hfeeds, hacc, hfailed⟩ := hs.phase hproc
  have hkind : Tmpfs env.mroot turn.1 := (((calls_mountRoot env noVars).feeds hfeeds).reply hr).1
  have hmay : canonical mroot ∈ mountedBy canonical turn → MayMount canonical mroot s q :=
    fun hmem => Or.inl (mounters_nocover hkind.noCover hallowed hmem)
  obtain ⟨hsingle, hframe, hsetup, hcount⟩ := reply_effect hs hmay rfl
  refine hs.put rfl hsingle hframe
    ⟨henv, hist ++ [turn], hfeeds.reply hr, hacc.concat hallowed rfl hcount, ?_⟩
  rintro ⟨fs, src, dst, options, hmem⟩
  apply hsetup
  obtain hold | hnew := List.mem_append.mp hmem
  · exact hfailed ⟨fs, src, dst, options, hold⟩
  · obtain rfl := List.mem_singleton.mp hnew
    obtain ⟨rfl, rfl⟩ := hkind
    refine ⟨fun hnil => ?_, htimely (by rw [hproc]; exact reply_mounts hr)⟩
    rw [← henv, mounters_eq_nil] at hnil
    simp [allowed, hnil] at hallowed

theorem mroot_made (hcanon : ∀ path, canonical (canonical path) = canonical path) {env : Env}
    {hist : List (Turn Op.Answer)} {v : Vars}
    (h : Ends (MountRuntime.mountRoot env) noVars hist (.ok true) v)
    (hfaith : Faithful canonical hist) : canonical env.mroot ∈ made canonical hist := by
  have hrecorded := recorded_mountRoot hcanon h
  have hmem : env.mroot ∈ v.mounts := triple_mountRoot_result env noVars [] trivial hist _ v h
  rw [hrecorded.2.2 hfaith]
  exact List.mem_map_of_mem (by simpa using hmem)

/-- A process in its set-up, and behind it, still has its tmpfs on mroot. -/
theorem Accounts.owns (hcanon : ∀ path, canonical (canonical path) = canonical path) {q : Pid}
    {env : Env} {hist tr : List (Turn Op.Answer)} {v : Vars} (henv : env.mroot = mroot)
    (h : Ends (MountRuntime.mountRoot env) noVars hist (.ok true) v)
    (hacc : Accounts canonical mroot s q (hist ++ tr)) :
    some q ∈ s.mounters (canonical mroot) := by
  have hmade := mroot_made hcanon h hacc.faithful.left
  rw [← List.count_pos_iff, hacc.count, List.count_pos_iff, made_append, ← henv]
  exact List.mem_append_left _ hmade

theorem inv_reply_setUp (hcanon : ∀ path, canonical (canonical path) = canonical path) {q : Pid}
    {env : Env} {world : ∀ op, Op.Answer op} {p p' : Prog Op.Answer (Except Err Unit × Vars)}
    {turn : Turn Op.Answer} (hs : Inv canonical mroot s)
    (hproc : s.procs q = some ⟨env, .setUp p⟩) (hr : p.reply world = some (turn, p'))
    (hallowed : allowed canonical s turn = true) :
    Inv canonical mroot
      (State.put { s with table := entries canonical q turn ++ s.table } q ⟨env, .setUp p'⟩) := by
  obtain ⟨henv, hist, tr, v, hends, hfeeds, hacc⟩ := hs.phase hproc
  have hown := Accounts.owns hcanon henv hends hacc
  obtain ⟨hsingle, hframe, -, hcount⟩ :=
    reply_effect hs (fun _ => Or.inr ⟨hown, hacc.incomplete⟩) rfl
  refine hs.put rfl hsingle hframe ⟨henv, hist, tr ++ [turn], v, hends, hfeeds.reply hr, ?_⟩
  rw [← List.append_assoc]
  exact hacc.concat hallowed rfl hcount

theorem inv_reply_lastDitch {q : Pid} {env : Env} {world : ∀ op, Op.Answer op}
    {p p' : Prog Op.Answer (Except Err Unit × Vars)} {turn : Turn Op.Answer}
    (hs : Inv canonical mroot s) (hproc : s.procs q = some ⟨env, .lastDitch p⟩)
    (hr : p.reply world = some (turn, p')) (hallowed : allowed canonical s turn = true) :
    Inv canonical mroot
      (State.put { s with table := entries canonical q turn ++ s.table } q
        ⟨env, .lastDitch p'⟩) := by
  obtain ⟨hcalls, hready⟩ := hs.phase hproc
  obtain ⟨hkind, hcalls'⟩ := hcalls.reply hr
  obtain ⟨hsingle, hframe, hsetup, -⟩ := reply_effect hs
    (fun hmem => Or.inl (mounters_nocover hkind hallowed hmem)) rfl
  exact hs.put rfl hsingle hframe ⟨hcalls', hsetup hready⟩

/-- A turn of a process. -/
theorem inv_reply (hcanon : ∀ path, canonical (canonical path) = canonical path) {q : Pid}
    {world : ∀ op, Op.Answer op} {p : Process} {phase : Phase} {turn : Turn Op.Answer}
    (hs : Inv canonical mroot s) (htimely : Timely (canonical mroot) s (.reply q world))
    (hproc : s.procs q = some p) (hr : p.phase.reply world = some (turn, phase))
    (hallowed : allowed canonical s turn = true) :
    Inv canonical mroot
      (State.put { s with table := entries canonical q turn ++ s.table } q ⟨p.env, phase⟩) := by
  obtain ⟨env, before⟩ := p
  cases before with
  | mountRoot p =>
    obtain ⟨⟨u, p'⟩, hp, heq⟩ := Option.map_eq_some_iff.mp hr
    obtain ⟨rfl, rfl⟩ := Prod.mk.inj heq
    exact inv_reply_mountRoot hs htimely hproc hp hallowed
  | setUp p =>
    obtain ⟨⟨u, p'⟩, hp, heq⟩ := Option.map_eq_some_iff.mp hr
    obtain ⟨rfl, rfl⟩ := Prod.mk.inj heq
    exact inv_reply_setUp hcanon hs hproc hp hallowed
  | lastDitch p =>
    obtain ⟨⟨u, p'⟩, hp, heq⟩ := Option.map_eq_some_iff.mp hr
    obtain ⟨rfl, rfl⟩ := Prod.mk.inj heq
    exact inv_reply_lastDitch hs hproc hp hallowed
  | rescue paths => exact absurd hr (by simp [Phase.reply])
  | exited status => exact absurd hr (by simp [Phase.reply])
  | killed => exact absurd hr (by simp [Phase.reply])

theorem inv_umount {q : Pid} {env : Env} {path : Str} {paths : List Str}
    (hs : Inv canonical mroot s) (hproc : s.procs q = some ⟨env, .rescue (path :: paths)⟩)
    (worked : Bool) :
    Inv canonical mroot
      (State.put { s with
          table := if worked then s.table.eraseP (·.info.node = canonical path) else s.table } q
        ⟨env, .rescue paths⟩) := by
  obtain ⟨hincomplete, hcount⟩ := hs.phase hproc
  rw [List.map_cons, List.count_cons] at hcount
  have hafter := mounters_umount s worked (canonical path) (canonical mroot)
  by_cases hroot : worked = true ∧ canonical path = canonical mroot
  · -- the mount it takes off mroot is one of its own
    rw [if_pos hroot] at hafter
    simp only [hroot.2, beq_self_eq_true, if_true] at hcount
    have hown : some q ∈ s.mounters (canonical mroot) := List.count_pos_iff.mp (by omega)
    have hnot : ¬ s.SetUp (canonical mroot) :=
      MayMount.not_setUp (Or.inr ⟨hown, hincomplete⟩)
    obtain ⟨a, rest, hlist⟩ := List.exists_cons_of_ne_nil (List.ne_nil_of_mem hown)
    have ha : a = some q := hs.single a (by simp [hlist]) _ hown
    have hsingle := hs.single
    rw [hlist, ha] at hsingle hcount
    rw [hlist, List.tail_cons] at hafter
    refine hs.put rfl ?_ (fun pid hpid => ⟨rfl, ?_, fun h => absurd h hnot⟩) ⟨hincomplete, ?_⟩
    · rw [hafter]
      exact fun b hb c hc =>
        hsingle b (List.mem_cons_of_mem _ hb) c (List.mem_cons_of_mem _ hc)
    · rw [hafter, hlist, ha, List.count_cons_of_ne (by simpa using fun h => hpid h.symm)]
    · rw [hafter]
      rw [List.count_cons_self] at hcount
      omega
  · rw [if_neg hroot] at hafter
    refine hs.put rfl (by rw [hafter]; exact hs.single)
      (fun pid _ => ⟨rfl, by rw [hafter], fun h => ?_⟩) ⟨hincomplete, ?_⟩
    · simpa only [State.SetUp, State.Complete, hafter] using h
    · rw [hafter]
      omega

theorem phaseInv_exited_failed {q : Pid} {env : Env} :
    PhaseInv canonical mroot s q (some ⟨env, .exited 1⟩) := fun h => absurd h (by decide)

/-- A process that goes on, other than from a completed set-up. -/
theorem phaseInv_next (hcanon : ∀ path, canonical (canonical path) = canonical path) {q : Pid}
    {env : Env} {phase phase' : Phase} (h : PhaseInv canonical mroot s q (some ⟨env, phase⟩))
    (hnext : phase.next env = some phase') (hincomplete : phase.completes = false) :
    PhaseInv canonical mroot s q (some ⟨env, phase'⟩) := by
  cases phase with
  | mountRoot p =>
    obtain ⟨henv, hist, hfeeds, hacc, hfailed⟩ := h
    cases p with
    | call op next => exact absurd hnext (by simp [Phase.next])
    | pure out =>
      obtain ⟨r, v⟩ := out
      cases r with
      | error e =>
        obtain rfl := Option.some.inj hnext
        exact phaseInv_exited_failed
      | ok mounted =>
        have hresult := triple_mountRoot_result env noVars [] trivial hist (.ok mounted) v hfeeds
        cases mounted with
        | true =>
          obtain rfl := Option.some.inj hnext
          exact ⟨henv, hist, [], v, hfeeds, .nil _, by simpa using hacc⟩
        | false =>
          obtain rfl := Option.some.inj hnext
          exact ⟨calls_lastDitch env v, hfailed (by simpa using hresult)⟩
  | setUp p =>
    obtain ⟨henv, hist, tr, v, hends, hfeeds, hacc⟩ := h
    cases p with
    | call op next => exact absurd hnext (by simp [Phase.next])
    | pure out =>
      obtain ⟨r, w⟩ := out
      cases r with
      | ok u => exact absurd hincomplete (by simp [Phase.completes])
      | error e =>
        obtain rfl := Option.some.inj hnext
        refine ⟨hacc.incomplete, ?_⟩
        have hv := recorded_mountRoot hcanon hends
        obtain ⟨lost, hmade, -⟩ :=
          triple_setUp hcanon env v hist hv tr (.error e) w hfeeds hacc.faithful
        have hcount : ((unmounts w).map canonical).count (canonical mroot) =
            (w.mounts.map canonical).count (canonical mroot) := by
          rw [unmounts, List.map_reverse, List.count_reverse]
        rw [hacc.count, hmade, hcount, List.count_append, List.map_append, List.count_append]
        omega
  | rescue paths =>
    cases paths with
    | nil =>
      obtain rfl := Option.some.inj hnext
      exact phaseInv_exited_failed
    | cons path paths => exact absurd hnext (by simp [Phase.next])
  | lastDitch p =>
    cases p with
    | call op next => exact absurd hnext (by simp [Phase.next])
    | pure out =>
      obtain ⟨r, w⟩ := out
      cases r with
      | ok u =>
        obtain rfl := Option.some.inj hnext
        exact fun _ => h.2
      | error e =>
        obtain rfl := Option.some.inj hnext
        exact phaseInv_exited_failed
  | exited status => exact absurd hnext (by simp [Phase.next])
  | killed => exact absurd hnext (by simp [Phase.next])

/-- The end of the begin block: everything on mroot is of this process. -/
theorem inv_completes (hcanon : ∀ path, canonical (canonical path) = canonical path) {q : Pid}
    {env : Env} {v : Vars} (hs : Inv canonical mroot s)
    (hproc : s.procs q = some ⟨env, .setUp (.pure (.ok (), v))⟩) :
    Inv canonical mroot
      (State.put { s with completed := Function.update s.completed q true } q
        ⟨env, .lastDitch (MountRuntime.lastDitch env v)⟩) := by
  obtain ⟨henv, hist, tr, w, hends, -, hacc⟩ := hs.phase hproc
  have hown := Accounts.owns hcanon henv hends hacc
  have hready : State.SetUp { s with completed := Function.update s.completed q true }
      (canonical mroot) :=
    ⟨List.ne_nil_of_mem hown, fun a ha => by rw [hs.single a ha _ hown]; simp⟩
  exact hs.put rfl hs.single
    (fun pid hpid => ⟨Function.update_of_ne hpid .., rfl, fun _ => hready⟩)
    ⟨calls_lastDitch env v, hready⟩

theorem inv_go (hcanon : ∀ path, canonical (canonical path) = canonical path) {q : Pid}
    {p : Process} {phase : Phase} (hs : Inv canonical mroot s) (hproc : s.procs q = some p)
    (hnext : p.phase.next p.env = some phase) :
    Inv canonical mroot
      (State.put { s with completed :=
          if p.phase.completes then Function.update s.completed q true else s.completed } q
        ⟨p.env, phase⟩) := by
  cases hdone : p.phase.completes with
  | false =>
    exact hs.put rfl hs.single (fun pid _ => ⟨rfl, rfl, id⟩)
      (phaseInv_next hcanon (hs.phase hproc) hnext hdone)
  | true =>
    obtain ⟨env, before⟩ := p
    obtain ⟨v, rfl⟩ : ∃ v, before = .setUp (.pure (.ok (), v)) := by
      revert hdone
      unfold Phase.completes
      split
      case h_1 v hphase => exact fun _ => ⟨v, hphase⟩
      case h_2 => exact fun h => absurd h Bool.false_ne_true
    obtain rfl := Option.some.inj hnext
    exact inv_completes hcanon hs hproc

theorem inv_step (hcanon : ∀ path, canonical (canonical path) = canonical path) {e : Event}
    (hs : Inv canonical mroot s) (htimely : Timely (canonical mroot) s e)
    (h : step canonical mroot s e = some t) : Inv canonical mroot t := by
  cases e with
  | spawn pid env =>
    simp only [step] at h
    split at h
    case isTrue hnew =>
      obtain rfl := Option.some.inj h
      have hinv := hs.phases pid
      rw [Option.isNone_iff_eq_none.mp hnew.1] at hinv
      refine hs.put rfl hs.single (fun _ _ => ⟨rfl, rfl, id⟩) ⟨hnew.2, [], .nil _, hinv, ?_⟩
      rintro ⟨fs, src, dst, options, hmem⟩
      exact absurd hmem List.not_mem_nil
    case isFalse => exact absurd h (by simp)
  | reply pid world =>
    obtain ⟨p, hproc, h⟩ := Option.bind_eq_some_iff.mp h
    obtain ⟨⟨turn, phase⟩, hr, h⟩ := Option.bind_eq_some_iff.mp h
    simp only at h
    split at h
    case isTrue hallowed =>
      obtain rfl := Option.some.inj h
      exact inv_reply hcanon hs htimely hproc hr hallowed
    case isFalse => exact absurd h (by simp)
  | umount pid worked =>
    obtain ⟨⟨env, phase⟩, hproc, h⟩ := Option.bind_eq_some_iff.mp h
    cases phase with
    | rescue paths =>
      cases paths with
      | nil => exact absurd h (by simp)
      | cons path paths =>
        obtain rfl := Option.some.inj h
        exact inv_umount hs hproc worked
    | _ => exact absurd h (by simp)
  | go pid =>
    obtain ⟨p, hproc, h⟩ := Option.bind_eq_some_iff.mp h
    obtain ⟨phase, hnext, h⟩ := Option.bind_eq_some_iff.mp h
    obtain rfl := Option.some.inj h
    exact inv_go hcanon hs hproc hnext
  | kill pid =>
    obtain ⟨p, hproc, h⟩ := Option.bind_eq_some_iff.mp h
    split at h
    · obtain rfl := Option.some.inj h
      exact hs.put rfl hs.single (fun _ _ => ⟨rfl, rfl, id⟩) trivial
    · exact absurd h (by simp)

theorem inv_start (canonical : Str → Str) (mroot : Str) (table : List MountInfo) :
    Inv canonical mroot (start table) := by
  have hnone : ∀ a ∈ (start table).mounters (canonical mroot), a = none := by
    intro a ha
    simp only [State.mounters, start, List.filter_map, List.map_map, List.mem_map] at ha
    obtain ⟨info, -, rfl⟩ := ha
    rfl
  refine ⟨fun a ha b hb => (hnone a ha).trans (hnone b hb).symm, fun pid => ?_⟩
  refine ⟨rfl, fun _ _ h => absurd h List.not_mem_nil, ?_⟩
  exact List.count_eq_zero.mpr fun h => absurd (hnone _ h) (by simp)

end Invariant

theorem exitStatus_eq_some {s : State} {pid : Pid} {status : Nat}
    (h : s.exitStatus pid = some status) : ∃ env, s.procs pid = some ⟨env, .exited status⟩ := by
  obtain ⟨⟨env, phase⟩, hproc, hphase⟩ := Option.bind_eq_some_iff.mp h
  cases phase with
  | exited n =>
    obtain rfl := Option.some.inj hphase
    exact ⟨env, hproc⟩
  | _ => exact absurd hphase (by simp)

/-- As long as no process finds a chroot at the mount of the tmpfs that is not complete, a process
ends with status 0 in a complete chroot only. -/
theorem exits_in_complete_chroot {canonical : Str → Str}
    (hcanon : ∀ path, canonical (canonical path) = canonical path) (mroot : Str)
    (table : List MountInfo) (es : List Event) (s : State)
    (h : run (step canonical mroot) (start table) es = some s)
    (htimely : Meets (step canonical mroot) (Timely (canonical mroot)) (start table) es)
    (pid : Pid) (hexit : s.exitStatus pid = some 0) : s.SetUp (canonical mroot) := by
  have hinv : Inv canonical mroot s :=
    meets_invariant (Inv canonical mroot) (fun _ _ _ hr hok he => inv_step hcanon hr hok he)
      (inv_start canonical mroot table) htimely h
  obtain ⟨env, hproc⟩ := exitStatus_eq_some hexit
  exact hinv.phase hproc rfl

/-- A system on which everything works, with this mount table. -/
def working (table : List MountInfo) : ∀ op, Op.Answer op :=
  plainWorld table (fun _ => true) (fun _ => true)

/-- It has a mount on the node already. -/
def occupied (table : List MountInfo) : ∀ op, Op.Answer op
  | .mountCmd .. => false
  | op => working table op

/-- Process 0 up to an answer in its set-up. -/
def builds (table : List MountInfo) (answers : Nat) : List Event :=
  .spawn 0 plainEnv :: (List.replicate 3 (.reply 0 (working table)) ++
    .go 0 :: List.replicate answers (.reply 0 (working table)))

/-- Process 1 at the mount of the tmpfs, and its end. -/
def follows (table : List MountInfo) : List Event :=
  [.spawn 1 plainEnv, .reply 1 (working table), .reply 1 (occupied table), .go 1, .go 1]

/-- The mount table process 0 sees below the home directory. -/
def homeTable : List MountInfo :=
  ((run (step id plainEnv.mroot) (start []) (builds [] 46)).map fun s =>
    s.table.map Entry.info).getD []

/-- The second process comes after the end of the first. -/
theorem exits_in_complete_chroot_second :
    ∃ s, run (step id plainEnv.mroot) (start [])
        (builds homeTable 48 ++ [.go 0, .go 0] ++ follows homeTable) = some s ∧
      s.SetUp plainEnv.mroot := by
  have hexit : (run (step id plainEnv.mroot) (start [])
      (builds homeTable 48 ++ [.go 0, .go 0] ++ follows homeTable)).bind
        (fun s => s.exitStatus 1) = some 0 := by decide +kernel
  obtain ⟨s, hrun, hs⟩ := Option.bind_eq_some_iff.mp hexit
  exact ⟨s, hrun, exits_in_complete_chroot (fun _ => rfl) plainEnv.mroot [] _ s hrun
    (by decide +kernel) 1 hs⟩

/-- The second process comes between the mount of the tmpfs by the first and the end of its
set-up. -/
theorem exits_in_unfinished_chroot :
    ∃ s, run (step id plainEnv.mroot) (start []) (builds [] 0 ++ follows []) = some s ∧
      s.exitStatus 1 = some 0 ∧ ¬ s.SetUp plainEnv.mroot := by
  refine ⟨_, rfl, rfl, fun hsetup => ?_⟩
  exact absurd (hsetup.2 (some 0) (by decide)) Bool.false_ne_true

end LSU.MountConcurrent
