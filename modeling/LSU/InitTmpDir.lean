import LSU.MountConcurrent

/-! Processes in init_tmp_dir, all on LSU_TMPDIR_PATH. Their steps are interleaved, and each can
be stopped between two steps. Nobody unmounts. -/
namespace LSU.InitTmpDir
open LSU.Run LSU.Program LSU.Program.Script LSU.Mounts LSU.MountRuntime
open LSU.MountConcurrent (Pid MountsAs calls_tryMount MountFailed triple_tryMount_none)

/-- mkdir_p, and try_mount with its result. -/
def mountTmpDir (tmpdir : Str) : Ruby (Option Str) := do
  match ← mkdirP tmpdir with
  | none => tryMount "tmpfs" "tmpfs".toList tmpdir (some "nocover")
  | some _ => raise .other

/-- The files of a directory, by their names. -/
abbrev Files := Str → Option Str

def cookieName : Str := ".cookie".toList
def setupDoneName : Str := ".setup-done".toList

/-- A tmpfs on LSU_TMPDIR_PATH, and the process that has mounted it. -/
structure Tmpfs where
  mounter : Pid
  files : Files

/-- `rest` is what File.write has yet to write of the cookie. -/
inductive Phase where
  | mount (p : Prog Op.Answer (Except Err (Option Str) × Vars))
  | openCookie
  | writeCookie (rest : Str)
  | openSetupDone
  | check
  | returned
  | raised
  | killed

/-- `cookie` is `ENV['LSU_COOKIE']`. -/
structure Process where
  cookie : Option Str
  phase : Phase

/-- The directory itself, what is mounted over it, the newest mount first, and the processes. -/
structure State where
  under : Files
  mounts : List Tmpfs
  procs : Pid → Option Process

inductive Event where
  | spawn (pid : Pid) (cookie : Option Str)
  | reply (pid : Pid) (world : ∀ op, Op.Answer op)
  | go (pid : Pid)
  | write (pid : Pid) (n : Nat)
  | raise (pid : Pid)
  | kill (pid : Pid)

def State.put (s : State) (pid : Pid) (p : Process) : State :=
  { s with procs := Function.update s.procs pid (some p) }

/-- What a path in the directory leads to: mounts hide what is below them. -/
def State.files (s : State) : Files :=
  match s.mounts with
  | [] => s.under
  | m :: _ => m.files

def State.setFile (s : State) (name content : Str) : State :=
  match s.mounts with
  | [] => { s with under := Function.update s.under name (some content) }
  | m :: ms => { s with mounts := ⟨m.mounter, Function.update m.files name (some content)⟩ :: ms }

/-- What the system can answer: a nocover mount fails if and only if something is mounted. -/
def allowed (s : State) : Turn Op.Answer → Bool
  | ⟨.mountCmd _ _ _ options, (answer : Bool)⟩ =>
    options ≠ some "nocover" || answer = s.mounts.isEmpty
  | _ => true

/-- A tmpfs is empty when it is mounted. -/
def State.afterTurn (s : State) (pid : Pid) (tmpdir : Str) : Turn Op.Answer → State
  | ⟨.mountCmd _ _ dst _, (answer : Bool)⟩ =>
    if answer ∧ dst = tmpdir then { s with mounts := ⟨pid, fun _ => none⟩ :: s.mounts } else s
  | _ => s

def cookieLine (cookie : Str) : Str := cookie ++ ['\n']

/-- The next step of a process that asks for no answer, with the file it opens. File.write of
the empty string is done with its file when it has opened it. -/
def Phase.next (s : State) (cookie : Option Str) : Phase → Option (Option Str × Phase)
  | .mount (.pure (.ok (some _), _)) =>
    some (none, if cookie.isSome then .openCookie else .openSetupDone)
  | .mount (.pure (.ok none, _)) => some (none, .check)
  | .mount (.pure (.error _, _)) => some (none, .raised)
  | .openCookie => cookie.map fun cookie => (some cookieName, .writeCookie (cookieLine cookie))
  | .openSetupDone => some (some setupDoneName, .check)
  | .check => some (none, if (s.files setupDoneName).isSome then .returned else .raised)
  | _ => none

/-- Where a file operation can raise. -/
def Phase.raises : Phase → Bool
  | .openCookie => true
  | .writeCookie _ => true
  | .openSetupDone => true
  | _ => false

def Phase.alive : Phase → Bool
  | .returned => false
  | .raised => false
  | .killed => false
  | _ => true

def step (tmpdir : Str) (s : State) : Event → Option State
  | .spawn pid cookie =>
    if (s.procs pid).isNone then some (s.put pid ⟨cookie, .mount (mountTmpDir tmpdir noVars)⟩)
    else none
  | .reply pid world => do
    match ← s.procs pid with
    | ⟨cookie, .mount p⟩ =>
      let (turn, q) ← p.reply world
      if allowed s turn then some ((s.afterTurn pid tmpdir turn).put pid ⟨cookie, .mount q⟩)
      else none
    | _ => none
  | .go pid => do
    let p ← s.procs pid
    let (opened, phase) ← p.phase.next s p.cookie
    let s' := opened.elim s fun name => s.setFile name []
    some (s'.put pid ⟨p.cookie, phase⟩)
  | .write pid n => do
    match ← s.procs pid with
    | ⟨cookie, .writeCookie rest⟩ =>
      if 0 < n ∧ n ≤ rest.length then
        let s' := s.setFile cookieName ((s.files cookieName).getD [] ++ rest.take n)
        let phase := if rest.drop n = [] then .openSetupDone else .writeCookie (rest.drop n)
        some (s'.put pid ⟨cookie, phase⟩)
      else none
    | _ => none
  | .raise pid => do
    let p ← s.procs pid
    if p.phase.raises then some (s.put pid ⟨p.cookie, .raised⟩) else none
  | .kill pid => do
    let p ← s.procs pid
    if p.phase.alive then some (s.put pid ⟨p.cookie, .killed⟩) else none

/-- Nothing is mounted; the directory may hold anything. -/
def start (under : Files) : State := ⟨under, [], fun _ => none⟩

def State.returned (s : State) (pid : Pid) : Prop :=
  ∃ cookie, s.procs pid = some ⟨cookie, .returned⟩

/-- `String#chomp` -/
def chomp (text : Str) : Str :=
  if text.getLast? = some '\n' then
    if text.dropLast.getLast? = some '\r' then text.dropLast.dropLast else text.dropLast
  else if text.getLast? = some '\r' then text.dropLast
  else text

/-- read_tmp_dir_cookie; `none` is nil. -/
def readTmpDirCookie (s : State) : Option Str := (s.files cookieName).map chomp

/-- What a step can do. -/
inductive Effect (tmpdir : Str) (s : State) : State → Prop
  | spawn {pid : Pid} {cookie : Option Str} (h : s.procs pid = none) :
      Effect tmpdir s (s.put pid ⟨cookie, .mount (mountTmpDir tmpdir noVars)⟩)
  | reply {pid : Pid} {cookie : Option Str} {p q : Prog Op.Answer (Except Err (Option Str) × Vars)}
      {turn : Turn Op.Answer} {world : ∀ op, Op.Answer op}
      (h : s.procs pid = some ⟨cookie, .mount p⟩) (hreply : p.reply world = some (turn, q))
      (hallowed : allowed s turn = true) :
      Effect tmpdir s ((s.afterTurn pid tmpdir turn).put pid ⟨cookie, .mount q⟩)
  | mounted {pid : Pid} {cookie : Option Str} {path : Str} {v : Vars}
      (h : s.procs pid = some ⟨cookie, .mount (.pure (.ok (some path), v))⟩) :
      Effect tmpdir s
        (s.put pid ⟨cookie, if cookie.isSome then .openCookie else .openSetupDone⟩)
  | refused {pid : Pid} {cookie : Option Str} {v : Vars}
      (h : s.procs pid = some ⟨cookie, .mount (.pure (.ok none, v))⟩) :
      Effect tmpdir s (s.put pid ⟨cookie, .check⟩)
  | openCookie {pid : Pid} {cookie : Str} (h : s.procs pid = some ⟨some cookie, .openCookie⟩) :
      Effect tmpdir s
        ((s.setFile cookieName []).put pid ⟨some cookie, .writeCookie (cookieLine cookie)⟩)
  | write {pid : Pid} {cookie : Option Str} {rest : Str} (n : Nat)
      (h : s.procs pid = some ⟨cookie, .writeCookie rest⟩) :
      Effect tmpdir s
        ((s.setFile cookieName ((s.files cookieName).getD [] ++ rest.take n)).put pid
          ⟨cookie, if rest.drop n = [] then .openSetupDone else .writeCookie (rest.drop n)⟩)
  | openSetupDone {pid : Pid} {cookie : Option Str}
      (h : s.procs pid = some ⟨cookie, .openSetupDone⟩) :
      Effect tmpdir s ((s.setFile setupDoneName []).put pid ⟨cookie, .check⟩)
  | returns {pid : Pid} {cookie : Option Str} (h : s.procs pid = some ⟨cookie, .check⟩)
      (hdone : (s.files setupDoneName).isSome) :
      Effect tmpdir s (s.put pid ⟨cookie, .returned⟩)
  | stop {pid : Pid} {cookie : Option Str} {phase phase' : Phase}
      (h : s.procs pid = some ⟨cookie, phase⟩) (hstop : phase' = .raised ∨ phase' = .killed) :
      Effect tmpdir s (s.put pid ⟨cookie, phase'⟩)

theorem effect_go {tmpdir : Str} {s t : State} {pid : Pid}
    (h : step tmpdir s (.go pid) = some t) : Effect tmpdir s t := by
  simp only [step, Option.bind_eq_bind, Option.bind_eq_some_iff] at h
  obtain ⟨⟨cookie, phase⟩, hproc, ⟨opened, phase'⟩, hnext, hput⟩ := h
  obtain rfl := Option.some.inj hput
  cases phase with
  | mount p =>
    match p with
    | .call op next => cases hnext
    | .pure (.ok (some path), v) =>
      cases hnext
      exact .mounted hproc
    | .pure (.ok none, v) =>
      cases hnext
      exact .refused hproc
    | .pure (.error e, v) =>
      cases hnext
      exact .stop hproc (Or.inl rfl)
  | openCookie =>
    cases cookie with
    | none => cases hnext
    | some cookie =>
      cases hnext
      exact .openCookie hproc
  | openSetupDone =>
    cases hnext
    exact .openSetupDone hproc
  | check =>
    cases hnext
    by_cases hdone : (s.files setupDoneName).isSome = true
    · rw [if_pos hdone]
      exact .returns hproc hdone
    · rw [if_neg hdone]
      exact .stop hproc (Or.inl rfl)
  | writeCookie rest => cases hnext
  | returned => cases hnext
  | raised => cases hnext
  | killed => cases hnext

theorem step_effect {tmpdir : Str} {s t : State} {e : Event} (h : step tmpdir s e = some t) :
    Effect tmpdir s t := by
  cases e with
  | spawn pid cookie =>
    rw [step] at h
    split at h
    · rename_i hfree
      obtain rfl := Option.some.inj h
      exact .spawn (Option.isNone_iff_eq_none.mp hfree)
    · cases h
  | reply pid world =>
    simp only [step, Option.bind_eq_bind, Option.bind_eq_some_iff] at h
    obtain ⟨p, hproc, h⟩ := h
    split at h
    · obtain ⟨⟨turn, q⟩, hreply, h⟩ := Option.bind_eq_some_iff.mp h
      split at h
      · rename_i hallowed
        obtain rfl := Option.some.inj h
        exact .reply hproc hreply hallowed
      · cases h
    · cases h
  | go pid => exact effect_go h
  | write pid n =>
    simp only [step, Option.bind_eq_bind, Option.bind_eq_some_iff] at h
    obtain ⟨p, hproc, h⟩ := h
    split at h
    · split at h
      · obtain rfl := Option.some.inj h
        exact .write n hproc
      · cases h
    · cases h
  | raise pid =>
    simp only [step, Option.bind_eq_bind, Option.bind_eq_some_iff] at h
    obtain ⟨p, hproc, h⟩ := h
    split at h
    · obtain rfl := Option.some.inj h
      exact .stop hproc (Or.inl rfl)
    · cases h
  | kill pid =>
    simp only [step, Option.bind_eq_bind, Option.bind_eq_some_iff] at h
    obtain ⟨p, hproc, h⟩ := h
    split at h
    · obtain rfl := Option.some.inj h
      exact .stop hproc (Or.inr rfl)
    · cases h

/-- A mount command has worked. -/
def MountDone (hist : List (Turn Op.Answer)) : Prop :=
  ∃ fs src dst options, ⟨.mountCmd fs src dst options, true⟩ ∈ hist

theorem triple_tryMount_some (fs : String) (src dst : Str) (options : Option String) :
    Triple (fun _ _ => True) (tryMount fs src dst options)
      (fun out _ hist => out ≠ none → MountDone hist) (fun _ _ _ => True) := by
  have hpath : Triple (fun _ hist => MountDone hist) (fileRealpath dst)
      (fun _ _ hist => MountDone hist) (fun (_ : Err) _ _ => True) := by
    refine .bind (Q := fun _ _ hist => MountDone hist) (.ask _ fun _ _ hist h => ?_) fun path => ?_
    · obtain ⟨fs, src, dst, options, hmem⟩ := h
      exact ⟨fs, src, dst, options, List.mem_append_left _ hmem⟩
    · cases path with
      | some path => exact .pure _ fun _ _ h => h
      | none => exact .raise _ fun _ _ _ => True.intro
  have hrun : Triple (fun _ _ => True) (runMount fs src dst options)
      (fun _ _ hist => MountDone hist) (fun _ _ _ => True) := by
    refine .bind (Q := fun mounted _ hist => mounted = true → MountDone hist)
      (.ask _ fun mounted v hist _ hmounted => ⟨fs, src, dst, options, by simp [hmounted]⟩)
      fun mounted => ?_
    cases mounted with
    | true => exact hpath.conseq (fun _ _ h => h rfl) (fun _ _ _ h => h) fun _ _ _ h => h
    | false => exact .raise _ fun _ _ _ => True.intro
  have hmount : Triple (fun _ _ => True) (Mounts.mount fs src dst options)
      (fun _ _ hist => MountDone hist) (fun _ _ _ => True) := by
    refine .bind (triple_makeMountPoint (fun _ _ => True.intro) fs src dst) fun errno => ?_
    cases errno with
    | none => exact hrun
    | some errno =>
      cases errno with
      | acces => exact hrun
      | rofs => exact hrun
      | other => exact .raise _ fun _ _ _ => True.intro
  refine .bind (.attempt (S := fun out _ hist => (∃ path, out = .ok path) → MountDone hist)
    (hmount.conseq (fun _ _ h => h) (fun _ _ _ h _ => h) fun _ _ _ _ he => ?_)) fun out => ?_
  · obtain ⟨path, hpath⟩ := he
    cases hpath
  cases out with
  | ok path => exact .pure _ fun _ _ h _ => h ⟨path, rfl⟩
  | error e =>
    cases e with
    | mountError => exact .pure _ fun _ _ _ h => absurd rfl h
    | other => exact .raise _ fun _ _ _ => True.intro

/-- What the result of try_mount says about its mount command. -/
theorem triple_mountTmpDir (tmpdir : Str) :
    Triple (fun _ _ => True) (mountTmpDir tmpdir)
      (fun out _ hist => (out = none → MountFailed hist) ∧ (out ≠ none → MountDone hist))
      (fun _ _ _ => True) := by
  refine .bind (Q := fun _ _ _ => True) (.ask _ fun _ _ _ _ => True.intro) fun errno => ?_
  cases errno with
  | some errno => exact .raise _ fun _ _ _ => True.intro
  | none =>
    intro v hist hpre tr out w hends
    have hnone := triple_tryMount_none "tmpfs" "tmpfs".toList tmpdir (some "nocover")
      v hist hpre tr out w hends
    have hsome := triple_tryMount_some "tmpfs" "tmpfs".toList tmpdir (some "nocover")
      v hist hpre tr out w hends
    cases out with
    | ok out => exact ⟨hnone, hsome⟩
    | error e => trivial

theorem calls_mountTmpDir (tmpdir : Str) : (mountTmpDir tmpdir).Calls
    (MountsAs fun dst options => dst = tmpdir ∧ options = some "nocover") := by
  refine .bind (.ask trivial) fun errno => ?_
  cases errno with
  | none => exact calls_tryMount _ _ ⟨rfl, rfl⟩
  | some errno => exact fun _ => trivial

section Invariant
variable {tmpdir : Str} {s t : State}

/-- The one mount is the process's own, and not set up yet. -/
def Owns (mounts : List Tmpfs) (pid : Pid) (f : Files) : Prop :=
  mounts = [⟨pid, f⟩] ∧ f setupDoneName = none

/-- Where a process stands, by its phase. -/
def PhaseInv (tmpdir : Str) (mounts : List Tmpfs) (pid : Pid) (cookie : Option Str) : Phase → Prop
  | .mount p => ∃ hist, Feeds (mountTmpDir tmpdir noVars) hist p ∧
      (MountDone hist → ∃ f, Owns mounts pid f) ∧ (MountFailed hist → mounts ≠ [])
  | .openCookie => ∃ f, Owns mounts pid f
  | .writeCookie rest => ∃ f written, Owns mounts pid f ∧ f cookieName = some written ∧
      cookie.map cookieLine = some (written ++ rest)
  | .openSetupDone => ∃ f, Owns mounts pid f ∧
      ∀ c, cookie = some c → f cookieName = some (cookieLine c)
  | .check => mounts ≠ []
  | .returned => ∃ m, mounts = [m] ∧ m.files setupDoneName ≠ none
  | .raised => True
  | .killed => True

/-- It has nothing more to write. -/
def Phase.wrote : Phase → Bool
  | .check => true
  | .returned => true
  | .raised => true
  | .killed => true
  | _ => false

/-- Set up completely, by a process that is done with it. -/
structure Ready (s : State) (m : Tmpfs) : Prop where
  setupDone : m.files setupDoneName = some []
  mounter : ∃ p, s.procs m.mounter = some p ∧ p.phase.wrote = true ∧
    ∀ c, p.cookie = some c → m.files cookieName = some (cookieLine c)

structure Inv (tmpdir : Str) (s : State) : Prop where
  single : s.mounts.length ≤ 1
  phases : ∀ pid p, s.procs pid = some p → PhaseInv tmpdir s.mounts pid p.cookie p.phase
  ready : ∀ m ∈ s.mounts, m.files setupDoneName ≠ none → Ready s m

/-- What a step of `q` can do to the mounts: nothing, mount the first one, or write to its own. -/
def Frame (mounts mounts' : List Tmpfs) (q : Pid) : Prop :=
  mounts' = mounts ∨ mounts = [] ∨ ∃ f f', Owns mounts q f ∧ mounts' = [⟨q, f'⟩]

theorem Owns.unique {mounts : List Tmpfs} {p q : Pid} {f g : Files} (hp : Owns mounts p f)
    (hq : Owns mounts q g) : p = q ∧ f = g := by
  have heq := hp.1.symm.trans hq.1
  simpa using heq

/-- The other processes stand where they stood. -/
theorem PhaseInv.frame {mounts mounts' : List Tmpfs} {pid q : Pid} {cookie : Option Str}
    {phase : Phase} (h : PhaseInv tmpdir mounts pid cookie phase) (hne : pid ≠ q)
    (hframe : Frame mounts mounts' q) : PhaseInv tmpdir mounts' pid cookie phase := by
  obtain rfl | rfl | ⟨f, f', hown, rfl⟩ := hframe
  · exact h
  · cases phase with
    | mount p =>
      obtain ⟨hist, hfeeds, hdone, hfailed⟩ := h
      refine ⟨hist, hfeeds, fun hm => ?_, fun hm => absurd rfl (hfailed hm)⟩
      obtain ⟨f, hmounts, -⟩ := hdone hm
      cases hmounts
    | openCookie =>
      obtain ⟨f, hmounts, -⟩ := h
      cases hmounts
    | writeCookie rest =>
      obtain ⟨f, written, ⟨hmounts, -⟩, -⟩ := h
      cases hmounts
    | openSetupDone =>
      obtain ⟨f, ⟨hmounts, -⟩, -⟩ := h
      cases hmounts
    | check => exact absurd rfl h
    | returned =>
      obtain ⟨m, hmounts, -⟩ := h
      cases hmounts
    | raised => trivial
    | killed => trivial
  · have hother : ∀ g, ¬ Owns mounts pid g := fun g hg => hne (hg.unique hown).1
    cases phase with
    | mount p =>
      obtain ⟨hist, hfeeds, hdone, hfailed⟩ := h
      refine ⟨hist, hfeeds, fun hm => ?_, fun _ => List.cons_ne_nil _ _⟩
      obtain ⟨g, hg⟩ := hdone hm
      exact absurd hg (hother g)
    | openCookie =>
      obtain ⟨g, hg⟩ := h
      exact absurd hg (hother g)
    | writeCookie rest =>
      obtain ⟨g, written, hg, -⟩ := h
      exact absurd hg (hother g)
    | openSetupDone =>
      obtain ⟨g, hg, -⟩ := h
      exact absurd hg (hother g)
    | check => exact List.cons_ne_nil _ _
    | returned =>
      obtain ⟨m, hmounts, hdone⟩ := h
      obtain rfl := List.cons.inj (hmounts.symm.trans hown.1) |>.1
      exact absurd hown.2 hdone
    | raised => trivial
    | killed => trivial

theorem procs_put_self (s : State) (pid : Pid) (p : Process) :
    (s.put pid p).procs pid = some p := by
  simp [State.put]

theorem procs_put_ne {s : State} {pid q : Pid} (p : Process) (h : pid ≠ q) :
    (s.put q p).procs pid = s.procs pid := by
  simp [State.put, Function.update_of_ne h]

/-- The invariant after a step of one process: its own phase, and the frame of the others. -/
theorem Inv.put {q : Pid} {p : Process} (hs : Inv tmpdir s) (hprocs : t.procs = s.procs)
    (hsingle : t.mounts.length ≤ 1) (hframe : Frame s.mounts t.mounts q)
    (hq : PhaseInv tmpdir t.mounts q p.cookie p.phase)
    (hready : ∀ m ∈ t.mounts, m.files setupDoneName ≠ none → Ready (t.put q p) m) :
    Inv tmpdir (t.put q p) := by
  refine ⟨hsingle, fun pid r hr => ?_, hready⟩
  by_cases hpid : pid = q
  · subst hpid
    rw [procs_put_self] at hr
    obtain rfl := Option.some.inj hr
    exact hq
  · rw [procs_put_ne p hpid, hprocs] at hr
    exact (hs.phases pid r hr).frame hpid hframe

/-- The invariant after a step that leaves the mounts alone. A process that has nothing more
to write stays one. -/
theorem Inv.move {q : Pid} {p : Process} (hs : Inv tmpdir s)
    (hq : PhaseInv tmpdir s.mounts q p.cookie p.phase)
    (hkeep : ∀ r, s.procs q = some r → r.phase.wrote = true →
      p.phase.wrote = true ∧ p.cookie = r.cookie) : Inv tmpdir (s.put q p) := by
  refine hs.put rfl hs.single (Or.inl rfl) hq fun m hm hdone => ?_
  obtain ⟨hfile, r, hr, hwrote, hcookie⟩ := hs.ready m hm hdone
  refine ⟨hfile, ?_⟩
  by_cases hpid : m.mounter = q
  · obtain ⟨hp, hsame⟩ := hkeep r (hpid ▸ hr) hwrote
    exact ⟨p, hpid ▸ procs_put_self s q p, hp, hsame ▸ hcookie⟩
  · exact ⟨r, (procs_put_ne p hpid).trans hr, hwrote, hcookie⟩

/-- The invariant after a write of a process to its own tmpfs. -/
theorem Inv.setFile {q : Pid} {p : Process} {f : Files} {name content : Str} (hs : Inv tmpdir s)
    (hown : Owns s.mounts q f)
    (hq : PhaseInv tmpdir [⟨q, Function.update f name (some content)⟩] q p.cookie p.phase)
    (hready : Function.update f name (some content) setupDoneName ≠ none →
      Function.update f name (some content) setupDoneName = some [] ∧ p.phase.wrote = true ∧
        ∀ c, p.cookie = some c →
          Function.update f name (some content) cookieName = some (cookieLine c)) :
    Inv tmpdir ((s.setFile name content).put q p) := by
  have hmounts : (s.setFile name content).mounts =
      [⟨q, Function.update f name (some content)⟩] := by
    simp [State.setFile, hown.1]
  have hprocs : (s.setFile name content).procs = s.procs := by
    simp [State.setFile, hown.1]
  refine hs.put hprocs (by simp [hmounts]) (Or.inr (Or.inr ⟨f, _, hown, hmounts⟩))
    (hmounts ▸ hq) fun m hm hdone => ?_
  obtain rfl : m = ⟨q, Function.update f name (some content)⟩ := by simpa [hmounts] using hm
  obtain ⟨hfile, hwrote, hcookie⟩ := hready hdone
  exact ⟨hfile, p, procs_put_self _ q p, hwrote, hcookie⟩

theorem mountDone_concat {hist : List (Turn Op.Answer)} {turn : Turn Op.Answer}
    (h : MountDone (hist ++ [turn])) :
    MountDone hist ∨ ∃ fs src dst options, turn = ⟨.mountCmd fs src dst options, true⟩ := by
  obtain ⟨fs, src, dst, options, hmem⟩ := h
  obtain hold | hnew := List.mem_append.mp hmem
  · exact Or.inl ⟨fs, src, dst, options, hold⟩
  · exact Or.inr ⟨fs, src, dst, options, (List.mem_singleton.mp hnew).symm⟩

theorem mountFailed_concat {hist : List (Turn Op.Answer)} {turn : Turn Op.Answer}
    (h : MountFailed (hist ++ [turn])) :
    MountFailed hist ∨ ∃ fs src dst options, turn = ⟨.mountCmd fs src dst options, false⟩ := by
  obtain ⟨fs, src, dst, options, hmem⟩ := h
  obtain hold | hnew := List.mem_append.mp hmem
  · exact Or.inl ⟨fs, src, dst, options, hold⟩
  · exact Or.inr ⟨fs, src, dst, options, (List.mem_singleton.mp hnew).symm⟩

/-- A turn mounts the tmpfs where nothing is mounted, or leaves the mounts as they are; in
either case what it says about them is so. -/
theorem afterTurn_cases (pid : Pid) {turn : Turn Op.Answer} (hallowed : allowed s turn = true)
    (hkind : MountsAs (fun dst options => dst = tmpdir ∧ options = some "nocover") turn.1) :
    (s.mounts = [] ∧ s.afterTurn pid tmpdir turn = { s with mounts := [⟨pid, fun _ => none⟩] } ∧
      ∃ fs src dst options, turn = ⟨.mountCmd fs src dst options, true⟩) ∨
    (s.afterTurn pid tmpdir turn = s ∧
      (∀ fs src dst options, turn ≠ ⟨.mountCmd fs src dst options, true⟩) ∧
      ((∃ fs src dst options, turn = ⟨.mountCmd fs src dst options, false⟩) → s.mounts ≠ [])) := by
  obtain ⟨op, answer⟩ := turn
  cases op with
  | mountCmd fs src dst options =>
    obtain ⟨rfl, rfl⟩ := hkind
    cases answer with
    | true =>
      have hempty : s.mounts = [] := by simpa [allowed] using hallowed
      exact Or.inl ⟨hempty, by simp [State.afterTurn, hempty], fs, src, dst, _, rfl⟩
    | false =>
      have hmounted : s.mounts ≠ [] := by simpa [allowed] using hallowed
      refine Or.inr ⟨by simp [State.afterTurn], fun _ _ _ _ heq => ?_, fun _ => hmounted⟩
      cases heq
  | _ =>
    refine Or.inr ⟨rfl, fun _ _ _ _ heq => ?_, fun h => ?_⟩
    · cases heq
    · obtain ⟨fs, src, dst, options, heq⟩ := h
      cases heq

theorem inv_reply {pid : Pid} {cookie : Option Str}
    {p q : Prog Op.Answer (Except Err (Option Str) × Vars)} {turn : Turn Op.Answer}
    {world : ∀ op, Op.Answer op} (hs : Inv tmpdir s)
    (h : s.procs pid = some ⟨cookie, .mount p⟩) (hreply : p.reply world = some (turn, q))
    (hallowed : allowed s turn = true) :
    Inv tmpdir ((s.afterTurn pid tmpdir turn).put pid ⟨cookie, .mount q⟩) := by
  obtain ⟨hist, hfeeds, hdone, hfailed⟩ := hs.phases pid _ h
  have hkind := (((calls_mountTmpDir tmpdir) noVars).feeds hfeeds).reply hreply
  have hfeeds' := hfeeds.reply hreply
  obtain ⟨hempty, hmount, hturn⟩ | ⟨hsame, hno, hrefused⟩ :=
    afterTurn_cases pid hallowed hkind.1
  · rw [hmount]
    refine hs.put rfl (by simp) (Or.inr (Or.inl hempty)) ?_ fun m hm hset => ?_
    · exact ⟨_, hfeeds', fun _ => ⟨_, rfl, rfl⟩, fun _ => List.cons_ne_nil _ _⟩
    · obtain rfl := List.mem_singleton.mp hm
      exact absurd rfl hset
  · rw [hsame]
    refine hs.move ⟨_, hfeeds', fun hm => ?_, fun hm => ?_⟩ fun r hr hwrote => ?_
    · obtain hold | ⟨fs, src, dst, options, heq⟩ := mountDone_concat hm
      · exact hdone hold
      · exact absurd heq (hno fs src dst options)
    · obtain hold | hnew := mountFailed_concat hm
      · exact hfailed hold
      · exact hrefused hnew
    · obtain rfl := Option.some.inj (h.symm.trans hr)
      cases hwrote

/-- What the result of try_mount says about the mounts. -/
theorem phase_result {pid : Pid} {cookie : Option Str} {out : Option Str} {v : Vars}
    (h : PhaseInv tmpdir s.mounts pid cookie (.mount (.pure (.ok out, v)))) :
    (out = none → s.mounts ≠ []) ∧ (out ≠ none → ∃ f, Owns s.mounts pid f) := by
  obtain ⟨hist, hfeeds, hdone, hfailed⟩ := h
  obtain ⟨hnone, hsome⟩ :=
    triple_mountTmpDir tmpdir noVars [] True.intro hist (.ok out) v hfeeds
  exact ⟨fun h => hfailed (hnone h), fun h => hdone (hsome h)⟩

/-- Every step keeps the invariant. -/
theorem inv_effect (hs : Inv tmpdir s) (h : Effect tmpdir s t) : Inv tmpdir t := by
  have hopen : ∀ {pid cookie phase} {p : Process}, s.procs pid = some ⟨cookie, phase⟩ →
      phase.wrote = false → ∀ r, s.procs pid = some r → r.phase.wrote = true →
        p.phase.wrote = true ∧ p.cookie = r.cookie := by
    intro pid cookie phase p hproc hphase r hr hwrote
    obtain rfl := Option.some.inj (hproc.symm.trans hr)
    simp [hphase] at hwrote
  cases h with
  | spawn hproc =>
    refine hs.move ⟨[], .nil _, fun hm => ?_, fun hm => ?_⟩ fun r hr => ?_
    · obtain ⟨fs, src, dst, options, hmem⟩ := hm
      cases hmem
    · obtain ⟨fs, src, dst, options, hmem⟩ := hm
      cases hmem
    · cases hproc.symm.trans hr
  | reply hproc hreply hallowed => exact inv_reply hs hproc hreply hallowed
  | @mounted pid cookie path v hproc =>
    obtain ⟨f, hown⟩ := (phase_result (hs.phases pid _ hproc)).2 (by simp)
    refine hs.move ?_ (hopen hproc rfl)
    cases cookie with
    | none => exact ⟨f, hown, fun c hc => absurd hc (by simp)⟩
    | some cookie => exact ⟨f, hown⟩
  | @refused pid cookie v hproc =>
    exact hs.move ((phase_result (hs.phases pid _ hproc)).1 rfl) (hopen hproc rfl)
  | @openCookie pid cookie hproc =>
    obtain ⟨f, hown⟩ := hs.phases pid _ hproc
    have hnot : Function.update f cookieName (some []) setupDoneName = none := by
      rw [Function.update_of_ne (by decide), hown.2]
    refine hs.setFile hown ⟨_, [], ⟨rfl, hnot⟩, Function.update_self .., rfl⟩ fun hset => ?_
    exact absurd hnot hset
  | @write pid cookie rest n hproc =>
    obtain ⟨f, written, hown, hfile, hcookie⟩ := hs.phases pid _ hproc
    have hread : (s.files cookieName).getD [] = written := by
      simp [State.files, hown.1, hfile]
    rw [hread]
    have hnot : Function.update f cookieName (some (written ++ rest.take n)) setupDoneName =
        none := by
      rw [Function.update_of_ne (by decide), hown.2]
    refine hs.setFile hown ?_ fun hset => absurd hnot hset
    have hself : Function.update f cookieName (some (written ++ rest.take n)) cookieName =
        some (written ++ rest.take n) := Function.update_self ..
    by_cases hend : rest.drop n = []
    · have htake : rest.take n = rest := by
        simpa [hend] using List.take_append_drop n rest
      rw [if_pos hend]
      refine ⟨_, ⟨rfl, hnot⟩, fun c hc => ?_⟩
      obtain rfl : cookie = some c := hc
      rw [hself, htake]
      exact hcookie.symm
    · rw [if_neg hend]
      refine ⟨_, written ++ rest.take n, ⟨rfl, hnot⟩, hself, ?_⟩
      rw [List.append_assoc, List.take_append_drop]
      exact hcookie
  | @openSetupDone pid cookie hproc =>
    obtain ⟨f, hown, hcookie⟩ := hs.phases pid _ hproc
    refine hs.setFile hown (List.cons_ne_nil _ _) fun _ => ?_
    refine ⟨Function.update_self .., rfl, fun c hc => ?_⟩
    rw [Function.update_of_ne (by decide)]
    exact hcookie c hc
  | @returns pid cookie hproc hdone =>
    have hmounts : s.mounts ≠ [] := hs.phases pid _ hproc
    obtain ⟨m, hm⟩ : ∃ m, s.mounts = [m] := by
      have hsingle := hs.single
      match hlist : s.mounts with
      | [] => exact absurd hlist hmounts
      | [m] => exact ⟨m, rfl⟩
      | _ :: _ :: _ => simp [hlist] at hsingle
    refine hs.move ⟨m, hm, ?_⟩ fun r hr _ => ?_
    · rw [State.files, hm] at hdone
      exact Option.isSome_iff_ne_none.mp hdone
    · obtain rfl := Option.some.inj (hproc.symm.trans hr)
      exact ⟨rfl, rfl⟩
  | @stop pid cookie phase phase' hproc hstop =>
    obtain rfl | rfl := hstop
    all_goals
      refine hs.move trivial fun r hr _ => ?_
      obtain rfl := Option.some.inj (hproc.symm.trans hr)
      exact ⟨rfl, rfl⟩

theorem inv_start (tmpdir : Str) (under : Files) : Inv tmpdir (start under) :=
  ⟨Nat.zero_le _, fun _ _ h => absurd h (by simp [start]), fun _ h => absurd h List.not_mem_nil⟩

end Invariant

theorem chomp_cookieLine {cookie : Str} (h : cookie.getLast? ≠ some '\r') :
    chomp (cookieLine cookie) = cookie := by
  simp [chomp, cookieLine, h]

/-- At most one tmpfs is mounted, and whoever has returned finds it set up: by a process that
has written .setup-done and before it its whole cookie. -/
theorem init_tmp_dir_exclusive (tmpdir : Str) (under : Files) {es : List Event} {s : State}
    (h : run (step tmpdir) (start under) es = some s) :
    s.mounts.length ≤ 1 ∧
    ∀ pid, s.returned pid → ∃ m p, s.mounts = [m] ∧ s.procs m.mounter = some p ∧
      p.phase.wrote = true ∧ s.files setupDoneName = some [] ∧
      ∀ cookie, p.cookie = some cookie → s.files cookieName = some (cookieLine cookie) ∧
        (cookie.getLast? ≠ some '\r' → readTmpDirCookie s = some cookie) := by
  have hinv : Inv tmpdir s := run_invariant (Inv tmpdir)
    (fun _ _ _ hr he => inv_effect hr (step_effect he)) (inv_start tmpdir under) h
  refine ⟨hinv.single, fun pid hret => ?_⟩
  obtain ⟨cookie, hproc⟩ := hret
  obtain ⟨m, hmounts, hdone⟩ := hinv.phases pid _ hproc
  obtain ⟨hfile, p, hp, hwrote, hcookie⟩ := hinv.ready m (by simp [hmounts]) hdone
  have hfiles : s.files = m.files := by simp [State.files, hmounts]
  refine ⟨m, p, hmounts, hp, hwrote, by rw [hfiles, hfile], fun c hc => ?_⟩
  have hline : s.files cookieName = some (cookieLine c) := by rw [hfiles, hcookie c hc]
  refine ⟨hline, fun hend => ?_⟩
  rw [readTmpDirCookie, hline, Option.map_some, chomp_cookieLine hend]

/-- The second process has asked for its mount before the first one has written anything, and
looks for .setup-done after it. -/
def twoProcesses : List Event :=
  .spawn 0 (some "c0".toList) :: (List.replicate 4 (.reply 0 (MountConcurrent.working [])) ++
    .spawn 1 none :: (List.replicate 3 (.reply 1 (MountConcurrent.occupied [])) ++
      [.go 1, .go 0, .go 0, .write 0 2, .write 0 1, .go 0, .go 1]))

theorem init_tmp_dir_exclusive_two :
    ∃ s, run (step "/t".toList) (start fun _ => none) twoProcesses = some s ∧ s.returned 1 ∧
      ∃ m, s.mounts = [m] := by
  obtain ⟨s, hs, hret⟩ : ∃ s, run (step "/t".toList) (start fun _ => none) twoProcesses = some s ∧
      s.returned 1 := ⟨_, rfl, none, rfl⟩
  obtain ⟨m, -, hmounts, -⟩ := (init_tmp_dir_exclusive "/t".toList _ hs).2 1 hret
  exact ⟨s, hs, hret, m, hmounts⟩

end LSU.InitTmpDir
