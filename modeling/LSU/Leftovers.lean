import LSU.Closure
import LSU.Commands

/-! The loop of lsu-kill over a process snapshot, and the set of processes it signals. -/
namespace LSU.Leftovers
open LSU.Commands LSU.Closure

/-- The columns lsu-kill reads of ps. -/
structure Process where
  pid : Int
  ppid : Int
  state : Str
  command : Str
deriving DecidableEq

/-- What comes of `Process.kill`. Only ESRCH is rescued. -/
inductive KillResult where
  | signalled
  | esrch
  | raises
deriving DecidableEq

structure State where
  leftovers : List Int
  signals : List Int
  k : Nat
deriving DecidableEq

def steamwebhelper : Str := "steamwebhelper".toList

def isWebhelper (process : Process) : Bool := (strstr process.command steamwebhelper).isSome

def isZombie (process : Process) : Bool := process.state.head? = some 'Z'

variable (kill : List Int → Int → KillResult)

/-- The body of the inner loop; `kill` may answer by the signals sent so far. -/
def visitProcess (s : State) (process : Process) : Option State :=
  if (process.ppid ∈ s.leftovers ∨ isWebhelper process = true) ∧ process.pid ∉ s.leftovers ∧
      isZombie process = false then
    match kill s.signals process.pid with
    | .raises => none
    | _ => some ⟨s.leftovers ++ [process.pid], s.signals ++ [process.pid], s.k + 1⟩
  else some s

def visitProcesses (processes : List Process) (s : State) : Option State :=
  processes.foldlM (visitProcess kill) s

/-- `while true`; `none` is an exception or fuel run out. -/
def leftoversLoop (processes : List Process) : Nat → State → Option State
  | 0, _ => none
  | fuel + 1, s => do
    let t ← visitProcesses kill processes { s with k := 0 }
    if t.k = 0 then some t else leftoversLoop processes fuel t

def start (steamPid : Option Int) : State := ⟨steamPid.toList, [], 0⟩

/-- The least set of live snapshot processes, steam itself left out, that are web helpers or
have steam or a member for a parent. -/
inductive Leftover (steamPid : Option Int) (processes : List Process) : Process → Prop
  | webhelper {p : Process} (hp : p ∈ processes) (hlive : isZombie p = false)
      (hsteam : steamPid ≠ some p.pid) (h : steamwebhelper <:+: p.command) :
      Leftover steamPid processes p
  | ofSteam {p : Process} (hp : p ∈ processes) (hlive : isZombie p = false)
      (hsteam : steamPid ≠ some p.pid) (h : steamPid = some p.ppid) :
      Leftover steamPid processes p
  | ofLeftover {p q : Process} (hp : p ∈ processes) (hlive : isZombie p = false)
      (hsteam : steamPid ≠ some p.pid) (hq : Leftover steamPid processes q)
      (h : p.ppid = q.pid) : Leftover steamPid processes p

/-- The test of the inner loop but for the process being among the leftovers itself. -/
def admits (leftovers : List Int) (process : Process) : Bool :=
  (decide (process.ppid ∈ leftovers) || isWebhelper process) && !isZombie process

theorem admits_iff {leftovers : List Int} {p : Process} :
    admits leftovers p = true ↔
      (p.ppid ∈ leftovers ∨ isWebhelper p = true) ∧ isZombie p = false := by
  simp [admits]

theorem admits_mono (k k' : List Int) (p : Process) (hsub : ∀ a ∈ k, a ∈ k')
    (h : admits k p = true) : admits k' p = true := by
  rw [admits_iff] at h ⊢
  exact ⟨h.1.imp_left (hsub p.ppid), h.2⟩

variable {kill}

/-- One process leaves the state of the library's visit, with the new pid signalled. -/
theorem visitProcess_eq (hkill : ∀ sent pid, kill sent pid ≠ .raises) (s : State) (p : Process) :
    ∃ new, visitProcess kill s p = some ⟨s.leftovers ++ new, s.signals ++ new, s.k + new.length⟩ ∧
      visit admits Process.pid s.leftovers p = s.leftovers ++ new := by
  by_cases h : (p.ppid ∈ s.leftovers ∨ isWebhelper p = true) ∧ p.pid ∉ s.leftovers ∧
      isZombie p = false
  · have hadm : admits s.leftovers p = true ∧ p.pid ∉ s.leftovers :=
      ⟨admits_iff.mpr ⟨h.1, h.2.2⟩, h.2.1⟩
    refine ⟨[p.pid], ?_, by rw [visit, if_pos hadm]⟩
    rw [visitProcess, if_pos h]
    cases hk : kill s.signals p.pid with
    | raises => exact absurd hk (hkill s.signals p.pid)
    | signalled => rfl
    | esrch => rfl
  · have hadm : ¬ (admits s.leftovers p = true ∧ p.pid ∉ s.leftovers) := by
      rintro ⟨ha, hp⟩
      have ha' := admits_iff.mp ha
      exact h ⟨ha'.1, hp, ha'.2⟩
    refine ⟨[], ?_, by rw [visit, if_neg hadm, List.append_nil]⟩
    rw [visitProcess, if_neg h]
    simp

theorem visitProcesses_eq (hkill : ∀ sent pid, kill sent pid ≠ .raises)
    (processes : List Process) (s : State) :
    ∃ new, visitProcesses kill processes s =
        some ⟨s.leftovers ++ new, s.signals ++ new, s.k + new.length⟩ ∧
      scan admits Process.pid s.leftovers processes = s.leftovers ++ new := by
  induction processes generalizing s with
  | nil => exact ⟨[], by simp [visitProcesses], by simp [scan]⟩
  | cons p processes ih =>
    obtain ⟨new, hstep, hvisit⟩ := visitProcess_eq hkill s p
    obtain ⟨rest, hloop, hscan⟩ :=
      ih ⟨s.leftovers ++ new, s.signals ++ new, s.k + new.length⟩
    refine ⟨new ++ rest, ?_, ?_⟩
    · rw [visitProcesses, List.foldlM_cons, hstep]
      refine hloop.trans ?_
      simp [Nat.add_assoc]
    · rw [scan, List.foldl_cons, hvisit]
      refine hscan.trans ?_
      simp

/-- The loop runs as the library's passes do and signals what they append. -/
theorem leftoversLoop_eq (hkill : ∀ sent pid, kill sent pid ≠ .raises) {processes : List Process}
    {fuel : Nat} {s : State} {out : List Int}
    (h : saturate admits Process.pid processes fuel s.leftovers = some out) :
    ∃ new, leftoversLoop kill processes fuel s = some ⟨out, s.signals ++ new, 0⟩ ∧
      out = s.leftovers ++ new := by
  induction fuel generalizing s with
  | zero => cases h
  | succ fuel ih =>
    obtain ⟨new, hpass, hscan⟩ := visitProcesses_eq hkill processes { s with k := 0 }
    simp only [Nat.zero_add] at hpass hscan
    rw [leftoversLoop, hpass]
    rw [saturate, hscan] at h
    split at h
    · rename_i hstable
      have hnew : new = [] := by simpa using hstable
      obtain rfl := Option.some.inj h
      exact ⟨[], by simp [hnew], by simp⟩
    · rename_i hgrows
      have hnew : new.length ≠ 0 := by simpa using hgrows
      obtain ⟨rest, hloop, hout⟩ := ih (s := ⟨s.leftovers ++ new, s.signals ++ new, new.length⟩) h
      refine ⟨new ++ rest, ?_, by simp [hout]⟩
      rw [Option.bind_eq_bind, Option.bind_some, if_neg hnew, hloop, List.append_assoc]

/-- The set of the library is the set of the inductive definition, with steam added. -/
theorem mem_saturated_iff {steamPid : Option Int} {processes : List Process} {out : List Int}
    (h : Saturated admits Process.pid processes steamPid.toList out) (x : Int) :
    x ∈ out ↔ steamPid = some x ∨ ∃ p, Leftover steamPid processes p ∧ p.pid = x := by
  have hstart : ∀ {y}, y ∈ steamPid.toList ↔ steamPid = some y := by simp
  constructor
  · refine h.least {x | steamPid = some x ∨ ∃ p, Leftover steamPid processes p ∧ p.pid = x} ?_
      (fun a ha => Or.inl (hstart.mp ha)) x
    intro known p hknown hp hadm
    obtain ⟨hwhy, hlive⟩ := admits_iff.mp hadm
    by_cases hsteam : steamPid = some p.pid
    · exact Or.inl hsteam
    · refine Or.inr ⟨p, ?_, rfl⟩
      obtain hparent | hweb := hwhy
      · obtain hof | ⟨q, hq, hpid⟩ := hknown p.ppid hparent
        · exact .ofSteam hp hlive hsteam hof
        · exact .ofLeftover hp hlive hsteam hq hpid.symm
      · exact .webhelper hp hlive hsteam (strstr_isSome.mp hweb)
  · intro hx
    obtain hsteam | ⟨p, hp, rfl⟩ := hx
    · exact h.extends_start.subset (hstart.mpr hsteam)
    · induction hp with
      | webhelper hp hlive _ hweb =>
        exact h.closed _ hp (admits_iff.mpr ⟨Or.inr (strstr_isSome.mpr hweb), hlive⟩)
      | ofSteam hp hlive _ hof =>
        have hparent := h.extends_start.subset (hstart.mpr hof)
        exact h.closed _ hp (admits_iff.mpr ⟨Or.inl hparent, hlive⟩)
      | ofLeftover hp hlive _ _ hparent ih =>
        exact h.closed _ hp (admits_iff.mpr ⟨Or.inl (hparent ▸ ih), hlive⟩)

theorem Leftover.not_steam {steamPid : Option Int} {processes : List Process} {p : Process}
    (h : Leftover steamPid processes p) : steamPid ≠ some p.pid := by
  cases h <;> assumption

/-- With fuel for one pass more than there are processes the loop comes to its end. -/
theorem leftoversLoop_finishes (hkill : ∀ sent pid, kill sent pid ≠ .raises)
    (steamPid : Option Int) (processes : List Process) :
    ∃ new, (∀ fuel, processes.length < fuel → leftoversLoop kill processes fuel (start steamPid) =
        some ⟨steamPid.toList ++ new, new, 0⟩) ∧
      Saturated admits Process.pid processes steamPid.toList (steamPid.toList ++ new) := by
  have hn : steamPid.toList.Nodup := by cases steamPid <;> simp
  have hin : ∀ a ∈ steamPid.toList, a ∈ steamPid.toList ++ processes.map Process.pid :=
    fun a ha => List.mem_append_left _ ha
  obtain ⟨out, hout⟩ : ∃ out,
      saturate admits Process.pid processes (processes.length + 1) steamPid.toList = some out :=
    saturate_completes hn hin (by omega)
  have hsat := saturate_saturated hn hout
  obtain ⟨new, rfl⟩ := hsat.extends_start
  refine ⟨new, fun fuel hfuel => ?_, hsat⟩
  have hmore := saturate_mono (show processes.length + 1 ≤ fuel by omega) hout
  obtain ⟨sent, hloop, hsent⟩ := leftoversLoop_eq hkill (s := start steamPid) hmore
  have hnew : sent = new := (List.append_cancel_left hsent).symm
  rw [hloop, hnew, start, List.nil_append]

/-- Whatever becomes of the signals, the loop comes to an end, and it has then signalled the
pids of the least set, each once, whichever way the snapshot is sorted. -/
theorem leftoversLoop_exact (hkill : ∀ sent pid, kill sent pid ≠ .raises)
    (steamPid : Option Int) (processes : List Process) :
    ∃ s, (∀ fuel, processes.length < fuel →
        leftoversLoop kill processes fuel (start steamPid) = some s) ∧
      s.signals.Nodup ∧
      (∀ x, x ∈ s.signals ↔ ∃ p, Leftover steamPid processes p ∧ p.pid = x) ∧
      ∀ processes', processes.Perm processes' → ∀ fuel, processes'.length < fuel →
        ∃ t, leftoversLoop kill processes' fuel (start steamPid) = some t ∧
          t.signals.Perm s.signals := by
  obtain ⟨new, hloop, hsat⟩ := leftoversLoop_finishes hkill steamPid processes
  have hnodup := List.nodup_append.mp hsat.nodup
  refine ⟨_, hloop, hnodup.2.1, fun x => ?_, fun processes' hperm fuel hfuel => ?_⟩
  · have hmem := mem_saturated_iff hsat x
    rw [List.mem_append] at hmem
    constructor
    · intro hx
      obtain hsteam | hp := hmem.mp (Or.inr hx)
      · exact absurd rfl (hnodup.2.2 x (by simpa using hsteam) x hx)
      · exact hp
    · intro ⟨p, hp, hpid⟩
      obtain hsteam | hx := hmem.mpr (Or.inr ⟨p, hp, hpid⟩)
      · exact absurd (by simpa [hpid] using hsteam) hp.not_steam
      · exact hx
  · obtain ⟨new', hloop', hsat'⟩ := leftoversLoop_finishes hkill steamPid processes'
    refine ⟨_, hloop' fuel hfuel, ?_⟩
    exact (List.perm_append_left_iff _).mp (hsat'.perm admits_mono hperm.symm hsat)

/-- Children stand before their parents, the parents form a cycle, and a child of steam is a
zombie. -/
def cyclicSnapshot : List Process :=
  [⟨21, 20, "S".toList, "sh".toList⟩, ⟨20, 22, "S".toList, "sh".toList⟩,
    ⟨22, 21, "S".toList, "/steamwebhelper".toList⟩, ⟨30, 7, "Z".toList, "game".toList⟩]

theorem leftoversLoop_exact_cyclic :
    ∃ s, leftoversLoop (fun _ _ => .esrch) cyclicSnapshot 5 (start (some 7)) = some s ∧
      s.signals.Nodup ∧ 22 ∈ s.signals := by
  have hsent : ∀ (sent : List Int) (pid : Int),
      (fun _ _ => KillResult.esrch) sent pid ≠ .raises := by
    simp
  obtain ⟨s, hloop, hnodup, hmem, -⟩ :=
    leftoversLoop_exact hsent (some 7) cyclicSnapshot
  have hweb : Leftover (some 7) cyclicSnapshot
      ⟨22, 21, "S".toList, "/steamwebhelper".toList⟩ :=
    .webhelper (by decide) (by decide) (by decide) (strstr_isSome.mp (by decide))
  exact ⟨s, hloop 5 (by decide), hnodup, (hmem 22).mpr ⟨_, hweb, rfl⟩⟩

example : leftoversLoop (fun _ _ => .esrch) cyclicSnapshot 5 (start (some 7)) =
    some ⟨[7, 22, 20, 21], [22, 20, 21], 0⟩ := by decide

end LSU.Leftovers
