import LSU.Mounts

/-! Which of the mounts of a run its variables have a record of. -/
namespace LSU.Mounts
open LSU.Program LSU.Program.Script

/-- `canonical` is the resolution of paths by the system. -/
def mountedBy (canonical : Str → Str) : Turn Op.Answer → List Str
  | ⟨.mountCmd _ _ dst _, (answer : Bool)⟩ => if answer then [canonical dst] else []
  | _ => []

/-- The nodes mounted, in the order of the mounts. -/
def made (canonical : Str → Str) (hist : List (Turn Op.Answer)) : List Str :=
  hist.flatMap (mountedBy canonical)

/-- realpath gives the resolved path, if it does not raise. -/
def Faithful (canonical : Str → Str) (hist : List (Turn Op.Answer)) : Prop :=
  ∀ path resolved, ⟨.realpath path, some resolved⟩ ∈ hist → resolved = canonical path

/-- The last thing that happened: a mount succeeded, and realpath of its mount point raised. -/
def RealpathRaises (hist : List (Turn Op.Answer)) : Prop :=
  ∃ u fs src dst options,
    hist = u ++ [⟨.mountCmd fs src dst options, true⟩, ⟨.realpath dst, none⟩]

/-- A turn that is neither half of that. -/
def rests : Turn Op.Answer → Bool
  | ⟨.mountCmd .., (answer : Bool)⟩ => !answer
  | ⟨.realpath _, (answer : Option Str)⟩ => answer.isSome
  | _ => true

def Settled (hist : List (Turn Op.Answer)) : Prop :=
  ∀ turn, hist.getLast? = some turn → rests turn = true

theorem Settled.not_realpathRaises {hist : List (Turn Op.Answer)} (h : Settled hist) :
    ¬ RealpathRaises hist := by
  rintro ⟨u, fs, src, dst, options, rfl⟩
  exact absurd (h ⟨.realpath dst, none⟩ (by simp)) Bool.false_ne_true

/-- The turn before the last is the mount. -/
theorem RealpathRaises.before_last {hist : List (Turn Op.Answer)} (h : RealpathRaises hist) :
    hist.dropLast.getLast?.all rests = false := by
  obtain ⟨u, fs, src, dst, options, rfl⟩ := h
  simp [rests]

theorem settled_concat {hist : List (Turn Op.Answer)} {turn : Turn Op.Answer}
    (h : rests turn = true) : Settled (hist ++ [turn]) := by
  intro t ht
  obtain rfl : turn = t := by simpa using ht
  exact h

theorem Faithful.left {canonical : Str → Str} {u v : List (Turn Op.Answer)}
    (h : Faithful canonical (u ++ v)) : Faithful canonical u :=
  fun path resolved hmem => h path resolved (List.mem_append_left v hmem)

theorem Faithful.append {canonical : Str → Str} {u v : List (Turn Op.Answer)}
    (hu : Faithful canonical u) (hv : Faithful canonical v) : Faithful canonical (u ++ v) :=
  fun path resolved hmem => (List.mem_append.mp hmem).elim (hu path resolved) (hv path resolved)

theorem mountedBy_rests {canonical : Str → Str} {turn : Turn Op.Answer} (h : rests turn = true) :
    mountedBy canonical turn = [] := by
  obtain ⟨op, answer⟩ := turn
  cases op with
  | mountCmd fs src dst options =>
    cases answer with
    | true => exact absurd h Bool.false_ne_true
    | false => rfl
  | _ => rfl

theorem made_append (canonical : Str → Str) (u v : List (Turn Op.Answer)) :
    made canonical (u ++ v) = made canonical u ++ made canonical v :=
  List.flatMap_append

variable (canonical : Str → Str)

/-- All mounts made are on the lists, but for those in `extra`; that of mirror_mounts is `m`. -/
def Recorded (m extra : List Str) (v : Vars) (hist : List (Turn Op.Answer)) : Prop :=
  v.mirrored = m ∧ Settled hist ∧ (Faithful canonical hist →
    made canonical hist = (v.mounts ++ m ++ extra).map canonical)

/-- What an exception leaves: only a mount whose mount point realpath could not resolve is on
no list. -/
def Lost (v : Vars) (hist : List (Turn Op.Answer)) : Prop :=
  Faithful canonical hist → ∃ lost,
    made canonical hist = (v.mounts ++ v.mirrored).map canonical ++ lost ∧
      (lost = [] ↔ ¬ RealpathRaises hist)

def Raised (m : List Str) (e : Err) (v : Vars) (hist : List (Turn Op.Answer)) : Prop :=
  match e with
  | .mountError => Recorded canonical m [] v hist
  | .other => Lost canonical v hist

variable {m : List Str}
variable {canonical}

theorem Recorded.concat {extra : List Str} {v : Vars} {hist : List (Turn Op.Answer)}
    {turn : Turn Op.Answer} (h : Recorded canonical m extra v hist) (hturn : rests turn = true) :
    Recorded canonical m extra v (hist ++ [turn]) := by
  refine ⟨h.1, settled_concat hturn, fun hfaith => ?_⟩
  have hmade := h.2.2 hfaith.left
  simpa [made, mountedBy_rests hturn] using hmade

theorem Recorded.lost {v : Vars} {hist : List (Turn Op.Answer)}
    (h : Recorded canonical m [] v hist) : Lost canonical v hist := by
  intro hfaith
  obtain ⟨rfl, hsettled, hmade⟩ := h
  exact ⟨[], by simpa using hmade hfaith, by simpa using hsettled.not_realpathRaises⟩

theorem recorded_start (canonical : Str → Str) :
    Recorded canonical [] [] ⟨[], [], none⟩ [] :=
  ⟨rfl, fun _ h => absurd h (by simp), fun _ => rfl⟩

theorem Raised.lost {e : Err} {v : Vars} {hist : List (Turn Op.Answer)}
    (h : Raised canonical m e v hist) : Lost canonical v hist := by
  cases e with
  | mountError => exact Recorded.lost h
  | other => exact h

theorem Recorded.raised {v : Vars} {hist : List (Turn Op.Answer)}
    (h : Recorded canonical m [] v hist) (e : Err) : Raised canonical m e v hist := by
  cases e with
  | mountError => exact h
  | other => exact h.lost

/-- A question none of whose answers mounts or fails to resolve. -/
theorem triple_ask_rests {op : Op} (hop : ∀ answer, rests ⟨op, answer⟩ = true) {extra : List Str}
    {E : Err → Vars → List (Turn Op.Answer) → Prop} :
    Triple (Recorded canonical m extra) (ask op) (fun _ => Recorded canonical m extra) E :=
  .ask op fun answer _ _ h => h.concat (hop answer)

/-- Making the mount point raises nothing, and keeps what such questions keep. -/
theorem triple_makeMountPoint {P : Vars → List (Turn Op.Answer) → Prop}
    {E : Err → Vars → List (Turn Op.Answer) → Prop}
    (hP : ∀ {turn v hist}, P v hist → rests turn = true → P v (hist ++ [turn]))
    (fs : String) (src dst : Str) : Triple P (makeMountPoint fs src dst) (fun _ => P) E := by
  have hask : ∀ op, (∀ answer, rests ⟨op, answer⟩ = true) → Triple P (ask op) (fun _ => P) E :=
    fun op hop => .ask op fun answer _ _ h => hP h (hop answer)
  refine .bind (hask _ fun _ => rfl) fun exists? => ?_
  cases exists? with
  | true => exact .pure _ fun _ _ h => h
  | false =>
    have hfile : Triple P (mountsFile fs src) (fun _ => P) E := by
      unfold mountsFile
      split
      · exact hask _ fun _ => rfl
      · exact .pure _ fun _ _ h => h
    refine .bind hfile fun file => ?_
    cases file with
    | true => exact hask _ fun _ => rfl
    | false =>
      refine .bind (hask _ fun _ => rfl) fun errno => ?_
      cases errno with
      | none => exact hask _ fun _ => rfl
      | some errno => exact .pure _ fun _ _ h => h

/-- A mount just made, which no list has yet. -/
def JustMounted (canonical : Str → Str) (m : List Str) (dst : Str) (v : Vars)
    (hist : List (Turn Op.Answer)) : Prop :=
  ∃ u fs src options, hist = u ++ [⟨.mountCmd fs src dst options, true⟩] ∧
    Recorded canonical m [] v u

theorem triple_mountCmd (fs : String) (src dst : Str) (options : Option String) :
    Triple (Recorded canonical m []) (mountCmd fs src dst options)
      (fun
        | true => JustMounted canonical m dst
        | false => Recorded canonical m [])
      (Raised canonical m) := by
  refine .ask _ fun answer v hist h => ?_
  cases answer with
  | true => exact ⟨hist, fs, src, options, rfl, h⟩
  | false => exact h.concat rfl

/-- A mount on `dst` that is to be recorded under its resolved path. -/
def Mounted (canonical : Str → Str) (m : List Str) (dst path : Str) (v : Vars)
    (hist : List (Turn Op.Answer)) : Prop :=
  Recorded canonical m [path] v hist ∧ (Faithful canonical hist → path = canonical dst)

/-- realpath of the mount point: it gives the path to record, or the mount is lost. -/
theorem triple_fileRealpath_mounted
    (hcanon : ∀ path, canonical (canonical path) = canonical path) (dst : Str) :
    Triple (JustMounted canonical m dst) (fileRealpath dst) (Mounted canonical m dst)
      (Raised canonical m) := by
  refine .bind (Q := fun answer v hist => ∃ u, hist = u ++ [⟨.realpath dst, answer⟩] ∧
    JustMounted canonical m dst v u) (.ask _ fun _ _ hist h => ⟨hist, rfl, h⟩) fun answer => ?_
  cases answer with
  | some path =>
    refine .pure _ fun v hist h => ?_
    obtain ⟨-, rfl, u, fs, src, options, rfl, hmirrored, -, hmade⟩ := h
    have hpath : ∀ hist, Faithful canonical (hist ++ [⟨.realpath dst, some path⟩]) →
        path = canonical dst := fun hist hfaith => hfaith dst path (by simp)
    refine ⟨⟨hmirrored, settled_concat rfl, fun hfaith => ?_⟩, hpath _⟩
    have hu := hmade hfaith.left.left
    simp only [made_append, hu, hpath _ hfaith]
    simp [made, mountedBy, hcanon]
  | none =>
    refine .raise _ fun v hist h => ?_
    obtain ⟨-, rfl, u, fs, src, options, rfl, hmirrored, -, hmade⟩ := h
    intro hfaith
    have hraises : RealpathRaises (u ++ [⟨.mountCmd fs src dst options, true⟩] ++
        [⟨.realpath dst, none⟩]) := ⟨u, fs, src, dst, options, by simp⟩
    refine ⟨[canonical dst], ?_, by simpa using hraises⟩
    have hu := hmade hfaith.left.left
    simp only [made_append, hu, hmirrored]
    simp [made, mountedBy]

theorem triple_runMount (hcanon : ∀ path, canonical (canonical path) = canonical path)
    (fs : String) (src dst : Str) (options : Option String) :
    Triple (Recorded canonical m []) (runMount fs src dst options) (Mounted canonical m dst)
      (Raised canonical m) := by
  refine .bind (triple_mountCmd fs src dst options) fun mounted => ?_
  cases mounted with
  | true => exact triple_fileRealpath_mounted hcanon dst
  | false => exact .raise _ fun _ _ h => h.raised _

theorem triple_mount (hcanon : ∀ path, canonical (canonical path) = canonical path)
    (fs : String) (src dst : Str) (options : Option String) :
    Triple (Recorded canonical m []) (mount fs src dst options) (Mounted canonical m dst)
      (Raised canonical m) := by
  have hrun := triple_runMount (m := m) hcanon fs src dst options
  refine .bind (triple_makeMountPoint Recorded.concat fs src dst) fun errno => ?_
  cases errno with
  | none => exact hrun
  | some errno =>
    cases errno with
    | acces => exact hrun
    | rofs => exact hrun
    | other => exact .raise _ fun _ _ h => h.raised _

/-- The postcondition of what mounts or gives nil. -/
def RecordedOr (canonical : Str → Str) (m : List Str) :
    Option Str → Vars → List (Turn Op.Answer) → Prop
  | some path => Recorded canonical m [path]
  | none => Recorded canonical m []

def MountedOr (canonical : Str → Str) (m : List Str) (dst : Str) :
    Option Str → Vars → List (Turn Op.Answer) → Prop
  | some path => Mounted canonical m dst path
  | none => Recorded canonical m []

theorem MountedOr.recorded {dst : Str} {out : Option Str} {v : Vars} {hist : List (Turn Op.Answer)}
    (h : MountedOr canonical m dst out v hist) : RecordedOr canonical m out v hist := by
  cases out with
  | some path => exact h.1
  | none => exact h

theorem triple_tryMount (hcanon : ∀ path, canonical (canonical path) = canonical path)
    (fs : String) (src dst : Str) (options : Option String) :
    Triple (Recorded canonical m []) (tryMount fs src dst options) (MountedOr canonical m dst)
      (fun _ => Lost canonical) := by
  have hattempt : Triple (Recorded canonical m []) (attempt (mount fs src dst options))
      (fun
        | .ok path => Mounted canonical m dst path
        | .error e => Raised canonical m e)
      (fun _ => Lost canonical) := .attempt (triple_mount hcanon fs src dst options)
  refine .bind hattempt fun out => ?_
  cases out with
  | ok path => exact .pure _ fun _ _ h => h
  | error e =>
    cases e with
    | mountError => exact .pure _ fun _ _ h => h
    | other => exact .raise _ fun _ _ h => h

/-- realpath while no mount waits for its path: nothing is lost. -/
theorem triple_fileRealpath (path : Str) :
    Triple (Recorded canonical m []) (fileRealpath path) (fun _ => Recorded canonical m [])
      (fun _ => Lost canonical) := by
  refine .bind (Q := fun answer v hist => ∃ u, hist = u ++ [⟨.realpath path, answer⟩] ∧
    Recorded canonical m [] v u) (.ask _ fun _ _ hist h => ⟨hist, rfl, h⟩) fun answer => ?_
  cases answer with
  | some resolved =>
    refine .pure _ fun v hist h => ?_
    obtain ⟨u, rfl, h⟩ := h
    exact h.concat rfl
  | none =>
    refine .raise _ fun v hist h => ?_
    obtain ⟨u, rfl, rfl, hsettled, hmade⟩ := h
    intro hfaith
    refine ⟨[], by simpa [made_append, made, mountedBy] using hmade hfaith.left, ?_⟩
    -- the turn before is not a mount, so nothing is lost
    simp only [true_iff]
    rintro ⟨w, fs, src, dst, options, heq⟩
    rw [List.append_cons w] at heq
    obtain rfl := (List.append_inj' heq rfl).1
    have hrests := hsettled ⟨.mountCmd fs src dst options, true⟩ (by simp)
    exact absurd hrests Bool.false_ne_true

theorem triple_tryMountUserDir (hcanon : ∀ path, canonical (canonical path) = canonical path)
    (mroot path : Str) :
    Triple (Recorded canonical m []) (tryMountUserDir mroot path) (RecordedOr canonical m)
      (fun _ => Lost canonical) := by
  unfold tryMountUserDir
  split
  · refine .bind (triple_fileRealpath path) fun resolved => ?_
    split
    · exact (triple_tryMount hcanon _ _ _ _).conseq (fun _ _ h => h)
        (fun _ _ _ h => h.recorded) fun _ _ _ h => h
    · exact .pure _ fun _ _ h => h
  · exact .pure _ fun _ _ h => h

theorem triple_getAllMounts :
    Triple (Recorded canonical m []) getAllMounts (fun _ => Recorded canonical m [])
      (fun _ => Lost canonical) := by
  refine .bind (Q := fun _ => Recorded canonical m []) (.vars fun _ _ h => h) fun v => ?_
  split
  · exact .pure _ fun _ _ h => h
  · refine .bind (triple_ask_rests fun _ => rfl) fun table => ?_
    cases table with
    | some table =>
      refine .bind (.modify (Q := fun _ => Recorded canonical m []) _ fun _ _ h => h) fun _ => ?_
      exact .pure _ fun _ _ h => h
    | none => exact .raise _ fun _ _ h => h.lost

/-- The loop makes its list longer. -/
theorem triple_mirrorLoop (hcanon : ∀ path, canonical (canonical path) = canonical path)
    (mroot : Str) (source : List MountInfo) (nodeToSkip : Option Str) :
    Triple (fun v hist => ∃ m, Recorded canonical m [] v hist) (mirrorLoop mroot source nodeToSkip)
      (fun _ v hist => ∃ m, Recorded canonical m [] v hist) (fun _ => Lost canonical) := by
  induction source generalizing nodeToSkip with
  | nil => exact .pure _ fun _ _ h => h
  | cons info rest ih =>
    rw [mirrorLoop]
    split
    · exact ih nodeToSkip
    · split
      · exact ih (some info.node)
      · have hmount : Triple (fun v hist => ∃ m, Recorded canonical m [] v hist)
            (tryMountUserDir mroot info.node)
            (fun out v hist => ∃ m, RecordedOr canonical m out v hist) (fun _ => Lost canonical) :=
          .exists fun m => (triple_tryMountUserDir hcanon mroot info.node).conseq
            (fun _ _ h => h) (fun _ _ _ h => ⟨m, h⟩) fun _ _ _ h => h
        refine .bind hmount fun out => ?_
        cases out with
        | none => exact ih (some info.node)
        | some path =>
          refine .bind (.modify _ fun v hist h => ?_) fun _ => ih none
          obtain ⟨m, rfl, hsettled, hmade⟩ := h
          exact ⟨v.mirrored ++ [path], rfl, hsettled, fun hfaith => by simpa using hmade hfaith⟩

/-- On a normal return the whole list is handed to the caller. -/
theorem triple_mirrorMounts (hcanon : ∀ path, canonical (canonical path) = canonical path)
    (mroot dir : Str) :
    Triple (Recorded canonical [] []) (mirrorMounts mroot dir) (Recorded canonical [])
      (fun _ => Lost canonical) := by
  refine .bind triple_getAllMounts fun table => ?_
  have hloop := triple_mirrorLoop hcanon mroot (sourceMounts table dir) none
  refine .bind (hloop.conseq (fun _ _ h => ⟨[], h⟩) (fun _ _ _ h => h) fun _ _ _ h => h)
    fun _ => ?_
  refine .bind (Q := fun v w hist => v = w ∧ ∃ m, Recorded canonical m [] w hist)
    (.vars fun _ _ h => ⟨rfl, h⟩) fun v => ?_
  refine .bind (.modify (Q := fun _ => Recorded canonical [] v.mirrored) _ fun w hist h => ?_)
    fun _ => .pure _ fun _ _ h => h
  obtain ⟨rfl, m, rfl, hsettled, hmade⟩ := h
  exact ⟨rfl, hsettled, fun hfaith => by simpa using hmade hfaith⟩

end LSU.Mounts
