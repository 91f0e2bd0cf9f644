import LSU.Leftovers
import LSU.RubyString

/-! lsu-kill as a whole: the pid file, the first kill, and the leftovers. -/
namespace LSU.Kill
open LSU.Commands LSU.Leftovers LSU.RubyString

/-- What comes of `Process.wait`. Only ECHILD is rescued, and ESRCH further out. -/
inductive WaitResult where
  | waited
  | echild
  | esrch
  | raises
deriving DecidableEq

/-- What lsu-kill asks of the system. -/
structure System where
  kill : List Int → Int → KillResult
  wait : Int → WaitResult
  unlink : Bool

/-- The bytes of the pid file as characters, which agree on ASCII. -/
def text (content : List UInt8) : Str := content.map fun byte => Char.ofNat byte.toNat

/-- `none` when there is no file. -/
def steamPid (content : Option (List UInt8)) : Option Int :=
  content.map fun bytes => toI (text bytes)

/-- Signals steam; the pids passed to `Process.kill`, as an error where the script ends. -/
def firstKill (sys : System) : Option Int → Except (List Int) (List Int)
  | none => .ok []
  | some pid =>
    match sys.kill [] pid with
    | .raises => .error [pid]
    | .esrch => .ok [pid]
    | .signalled =>
      match sys.wait pid with
      | .raises => .error [pid]
      | .esrch => .ok [pid]
      | .waited | .echild => if sys.unlink = true then .ok [pid] else .error [pid]

/-- The inner loop's body, with the pids passed so far where it raises. -/
def visit (sys : System) (s : State) (process : Process) : Except (List Int) State :=
  match visitProcess sys.kill s process with
  | some t => .ok t
  | none => .error (s.signals ++ [process.pid])

/-- At most `n` turns of the outer loop. -/
def passes (sys : System) (processes : List Process) : Nat → State → Except (List Int) State
  | 0, s => .ok s
  | n + 1, s => do
    let t ← processes.foldlM (visit sys) { s with k := 0 }
    if t.k = 0 then .ok t else passes sys processes n t

/-- What ps lists: a pid is positive, but for the kernel's, which is its own parent. -/
structure Snapshot where
  processes : List Process
  pids : ∀ p ∈ processes, 0 < p.pid ∨ p.pid = 0 ∧ p.ppid = 0 ∧ isWebhelper p = false

/-- lsu-kill up to `n` turns of its loop. There is no snapshot when ps or the JSON parser
fails. -/
def lsuKill (sys : System) (content : Option (List UInt8)) (snapshot : Option Snapshot)
    (n : Nat) : Except (List Int) State := do
  let targets ← firstKill sys (steamPid content)
  match snapshot with
  | none => .error targets
  | some snapshot =>
    passes sys snapshot.processes n ⟨(steamPid content).toList, targets, 0⟩

/-- Everything passed to `Process.kill`. -/
def targets : Except (List Int) State → List Int
  | .ok s => s.signals
  | .error targets => targets

/-- The pid a usable file records. -/
def recorded (content : Option (List UInt8)) : Option Int :=
  (steamPid content).filter fun pid => 0 < pid

/-- The positive pids among the recorded one and the leftovers of its steam. -/
def Allowed (content : Option (List UInt8)) (processes : List Process) (x : Int) : Prop :=
  0 < x ∧ (recorded content = some x ∨
    ∃ p, Leftover (recorded content) processes p ∧ p.pid = x)

/-- What a run has come to, where it goes on and where it has raised. -/
def Ends (P : State → Prop) (Q : List Int → Prop) : Except (List Int) State → Prop
  | .ok s => P s
  | .error targets => Q targets

section
variable {sys : System} {content : Option (List UInt8)} {processes : List Process}

/-- A visit leaves all as it is, or passes the pid of a live web helper or child on. -/
theorem visit_cases (s : State) (p : Process) :
    visit sys s p = .ok s ∨
      ((p.ppid ∈ s.leftovers ∨ isWebhelper p = true) ∧ p.pid ∉ s.leftovers ∧
          isZombie p = false) ∧
        (visit sys s p = .ok ⟨s.leftovers ++ [p.pid], s.signals ++ [p.pid], s.k + 1⟩ ∨
          visit sys s p = .error (s.signals ++ [p.pid])) := by
  by_cases h : (p.ppid ∈ s.leftovers ∨ isWebhelper p = true) ∧ p.pid ∉ s.leftovers ∧
      isZombie p = false
  · refine Or.inr ⟨h, ?_⟩
    rw [visit, visitProcess, if_pos h]
    cases sys.kill s.signals p.pid with
    | signalled => exact Or.inl rfl
    | esrch => exact Or.inl rfl
    | raises => exact Or.inr rfl
  · apply Or.inl
    rw [visit, visitProcess, if_neg h]

variable {P : State → Prop} {Q : List Int → Prop}

theorem ends_pass (hvisit : ∀ s, ∀ p ∈ processes, P s → Ends P Q (visit sys s p)) {s : State}
    (hs : P s) : Ends P Q (processes.foldlM (visit sys) s) := by
  induction processes generalizing s with
  | nil => exact hs
  | cons p ps ih =>
    have hstep := hvisit s p List.mem_cons_self hs
    rw [List.foldlM_cons]
    cases h : visit sys s p with
    | error targets =>
      rw [h] at hstep
      exact hstep
    | ok t =>
      rw [h] at hstep
      apply ih
      · exact fun s q hq => hvisit s q (List.mem_cons_of_mem p hq)
      · exact hstep

/-- What a visit keeps, whatever the counter of the turn, the loop keeps. -/
theorem ends_passes (hvisit : ∀ s, ∀ p ∈ processes, P s → Ends P Q (visit sys s p))
    (hk : ∀ s, P s → P { s with k := 0 }) (n : Nat) {s : State} (hs : P s) :
    Ends P Q (passes sys processes n s) := by
  induction n generalizing s with
  | zero => exact hs
  | succ n ih =>
    have hpass := ends_pass hvisit (hk s hs)
    rw [passes]
    cases h : processes.foldlM (visit sys) { s with k := 0 } with
    | error targets =>
      rw [h] at hpass
      exact hpass
    | ok t =>
      rw [h] at hpass
      show Ends P Q (if t.k = 0 then .ok t else passes sys processes n t)
      split
      · exact hpass
      · exact ih hpass

/-- What has been passed stays passed. -/
theorem passed_passes {x : Int} {s : State} (hx : x ∈ s.signals) (n : Nat) :
    x ∈ targets (passes sys processes n s) := by
  have hends : Ends (fun s => x ∈ s.signals) (fun targets => x ∈ targets)
      (passes sys processes n s) := by
    refine ends_passes ?_ (fun s hs => hs) n hx
    intro s p _ hs
    rcases visit_cases s p with hsame | ⟨_, hok | herror⟩
    · rw [hsame]
      exact hs
    · rw [hok]
      exact List.mem_append_left _ hs
    · rw [herror]
      exact List.mem_append_left _ hs
  cases h : passes sys processes n s with
  | ok t =>
    rw [h] at hends
    exact hends
  | error targets =>
    rw [h] at hends
    exact hends

structure Inv (content : Option (List UInt8)) (processes : List Process) (s : State) : Prop where
  known : ∀ x ∈ s.leftovers, Allowed content processes x
  steam : ∀ x, recorded content = some x → x ∈ s.leftovers
  sent : ∀ x ∈ s.signals, Allowed content processes x

variable {snapshot : Snapshot}

/-- A process the loop takes is a leftover of the recorded steam. -/
theorem Inv.admits {s : State} {p : Process} (hinv : Inv content snapshot.processes s)
    (hp : p ∈ snapshot.processes) (hwhy : p.ppid ∈ s.leftovers ∨ isWebhelper p = true)
    (hnew : p.pid ∉ s.leftovers) (hlive : isZombie p = false) :
    Allowed content snapshot.processes p.pid := by
  have hsteam : recorded content ≠ some p.pid := fun h => hnew (hinv.steam p.pid h)
  constructor
  · rcases snapshot.pids p hp with hpos | ⟨-, hparent, hweb⟩
    · exact hpos
    · rcases hwhy with hin | hin
      · have hpos := (hinv.known p.ppid hin).1
        omega
      · rw [hweb] at hin
        cases hin
  · refine Or.inr ⟨p, ?_, rfl⟩
    rcases hwhy with hin | hin
    · rcases (hinv.known p.ppid hin).2 with hof | ⟨q, hq, hpid⟩
      · exact .ofSteam hp hlive hsteam hof
      · exact .ofLeftover hp hlive hsteam hq hpid.symm
    · exact .webhelper hp hlive hsteam (strstr_isSome.mp hin)

theorem inv_visit {s : State} {p : Process} (hp : p ∈ snapshot.processes)
    (hinv : Inv content snapshot.processes s) :
    Ends (Inv content snapshot.processes)
      (fun targets => ∀ x ∈ targets, Allowed content snapshot.processes x) (visit sys s p) := by
  rcases visit_cases s p with hsame | ⟨⟨hwhy, hnew, hlive⟩, hstep⟩
  · rw [hsame]
    exact hinv
  · have hallowed := hinv.admits hp hwhy hnew hlive
    have hsent : ∀ x ∈ s.signals ++ [p.pid], Allowed content snapshot.processes x := by
      simpa [or_imp, forall_and, hallowed] using hinv.sent
    rcases hstep with hok | herror
    · rw [hok]
      refine ⟨?_, ?_, hsent⟩
      · simpa [or_imp, forall_and, hallowed] using hinv.known
      · intro x hx
        exact List.mem_append_left _ (hinv.steam x hx)
    · rw [herror]
      exact hsent

theorem allowed_passes {s : State} (hinv : Inv content snapshot.processes s) (n : Nat) :
    ∀ x ∈ targets (passes sys snapshot.processes n s),
      Allowed content snapshot.processes x := by
  have hends : Ends (Inv content snapshot.processes)
      (fun targets => ∀ x ∈ targets, Allowed content snapshot.processes x)
      (passes sys snapshot.processes n s) := by
    apply ends_passes
    · exact fun s p hp hs => inv_visit hp hs
    · exact fun s hs => ⟨hs.known, hs.steam, hs.sent⟩
    · exact hinv
  cases h : passes sys snapshot.processes n s with
  | ok t =>
    rw [h] at hends
    exact hends.sent
  | error targets =>
    rw [h] at hends
    exact hends

theorem firstKill_some (sys : System) (pid : Int) :
    firstKill sys (some pid) = .ok [pid] ∨ firstKill sys (some pid) = .error [pid] := by
  rw [firstKill]
  cases sys.kill [] pid with
  | raises => exact Or.inr rfl
  | esrch => exact Or.inl rfl
  | signalled =>
    cases sys.wait pid with
    | raises => exact Or.inr rfl
    | esrch => exact Or.inl rfl
    | waited =>
      cases sys.unlink with
      | true => exact Or.inl rfl
      | false => exact Or.inr rfl
    | echild =>
      cases sys.unlink with
      | true => exact Or.inl rfl
      | false => exact Or.inr rfl

end

/-- The number in the file is passed on whatever it is. -/
theorem first_passed (sys : System) (bytes : List UInt8) (snapshot : Option Snapshot) (n : Nat) :
    toI (text bytes) ∈ targets (lsuKill sys (some bytes) snapshot n) := by
  rw [lsuKill]
  show toI (text bytes) ∈ targets
    (firstKill sys (some (toI (text bytes))) >>= fun targets => _)
  rcases firstKill_some sys (toI (text bytes)) with hok | herror
  · rw [hok]
    cases snapshot with
    | none => exact List.mem_cons_self
    | some snapshot => exact passed_passes List.mem_cons_self n
  · rw [herror]
    exact List.mem_cons_self

/-- Each pid that lsu-kill passes on is positive, and the recorded one or that of a leftover of
its steam, if and only if a number read from the file is positive. -/
theorem kill_targets_iff (sys : System) (content : Option (List UInt8))
    (snapshot : Option Snapshot) (n : Nat) :
    (∀ x ∈ targets (lsuKill sys content snapshot n),
        Allowed content (snapshot.elim [] Snapshot.processes) x) ↔
      ∀ bytes, content = some bytes → 0 < toI (text bytes) := by
  constructor
  · rintro h bytes rfl
    exact (h _ (first_passed sys bytes snapshot n)).1
  · intro h
    -- a usable number is the recorded pid, and no file starts the loop with nothing
    have hrecorded : recorded content = steamPid content := by
      cases content with
      | none => rfl
      | some bytes => simp [recorded, steamPid, h bytes rfl]
    have hsteam : ∀ x, steamPid content = some x →
        Allowed content (snapshot.elim [] Snapshot.processes) x := by
      intro x hx
      obtain ⟨bytes, hbytes, rfl⟩ := Option.map_eq_some_iff.mp hx
      exact ⟨h bytes hbytes, Or.inl (hrecorded.trans hx)⟩
    have hfirst : firstKill sys (steamPid content) = .ok (steamPid content).toList ∨
        firstKill sys (steamPid content) = .error (steamPid content).toList := by
      cases steamPid content with
      | none => exact Or.inl rfl
      | some pid => exact firstKill_some sys pid
    have htargets : ∀ x ∈ (steamPid content).toList,
        Allowed content (snapshot.elim [] Snapshot.processes) x := by
      intro x hx
      exact hsteam x (Option.mem_toList.mp hx)
    rw [lsuKill]
    rcases hfirst with hok | herror
    · rw [hok]
      cases snapshot with
      | none => exact htargets
      | some snapshot =>
        apply allowed_passes
        refine ⟨htargets, ?_, htargets⟩
        intro x hx
        exact Option.mem_toList.mpr (hrecorded.symm.trans hx)
    · rw [herror]
      exact htargets

/-- A shell whose parent lies outside of the jail. -/
def jailed : Snapshot where
  processes := [⟨812, 0, "S".toList, "sh".toList⟩]
  pids := by decide

/-- An empty file signals the whole process group, and takes processes without a parent for
children of steam. -/
theorem empty_pid_file :
    targets (lsuKill ⟨fun _ _ => .signalled, fun _ => .echild, true⟩ (some []) (some jailed) 2) =
        [0, 812] ∧
      ¬ Allowed (some []) jailed.processes 0 ∧ ¬ Allowed (some []) jailed.processes 812 := by
  have hnone : ∀ p, ¬ Leftover none jailed.processes p := by
    intro p hp
    induction hp with
    | webhelper hp _ _ hweb =>
      obtain rfl := List.mem_singleton.mp hp
      revert hweb
      decide
    | ofSteam _ _ _ h => cases h
    | ofLeftover _ _ _ _ _ ih => exact ih
  refine ⟨by decide, fun h => absurd h.1 (by decide), ?_⟩
  rintro ⟨_, hrec | ⟨p, hp, _⟩⟩
  · revert hrec
    decide
  · exact hnone p hp

end LSU.Kill
