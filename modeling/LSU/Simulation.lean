import Mathlib.Data.List.Basic
import Mathlib.Logic.Function.Basic
import LSU.Run

/-! Forward simulation between two step functions, and objects shared by threads. A call
on such an object takes effect at one point between the call and its return, so that a
history of calls and returns is linearizable exactly when the atomic object below has a
run with it. -/
namespace LSU.Simulation
open LSU.Run
variable {σ τ ε δ L : Type*}

/-- What an observer sees of a run. -/
def trace (label : ε → Option L) (es : List ε) : List L := es.filterMap label

/-- From related states every step is matched by a run that looks the same and ends in
related states. -/
def Forward (step : σ → ε → Option σ) (label : ε → Option L) (astep : τ → δ → Option τ)
    (alabel : δ → Option L) (R : σ → τ → Prop) : Prop :=
  ∀ s a e t, R s a → step s e = some t →
    ∃ ds b, run astep a ds = some b ∧ trace alabel ds = trace label [e] ∧ R t b

variable {step : σ → ε → Option σ} {label : ε → Option L} {astep : τ → δ → Option τ}
  {alabel : δ → Option L} {R : σ → τ → Prop}

theorem Forward.run (hf : Forward step label astep alabel R) {s t : σ} {a : τ} {es : List ε}
    (hR : R s a) (h : run step s es = some t) :
    ∃ ds b, run astep a ds = some b ∧ trace alabel ds = trace label es ∧ R t b := by
  induction es generalizing s a with
  | nil =>
    obtain rfl : s = t := by simpa using h
    exact ⟨[], a, rfl, rfl, hR⟩
  | cons e es ih =>
    obtain ⟨r, hr, hrun⟩ := run_cons.mp h
    obtain ⟨ds, b, hds, hlabel, hRb⟩ := hf s a e r hR hr
    obtain ⟨ds', b', hds', hlabel', hRb'⟩ := ih hRb hrun
    refine ⟨ds ++ ds', b', ?_, ?_, hRb'⟩
    · rw [run_append, hds]
      exact hds'
    · have hcut : trace label (e :: es) = trace label [e] ++ trace label es := by
        simp only [trace, ← List.filterMap_append, List.singleton_append]
      rw [hcut, ← hlabel, ← hlabel', trace, trace, trace, List.filterMap_append]

section Atomic
variable {θ Op Ans Res : Type*}

/-- A sequential object: the event a call is, with what the outside world answers to it,
what the event does to the state and what the call returns. -/
structure Object (θ Op Ans Res τ δ : Type*) where
  event : θ → Op → Ans → δ
  step : τ → δ → Option τ
  result : τ → Op → Ans → Res

/-- Where a thread is with its call. -/
inductive Phase (Op Res : Type*) where
  | idle
  | called (op : Op)
  | done (op : Op) (res : Res)

inductive Mark (θ Op Ans Res : Type*) where
  | call (thread : θ) (op : Op)
  | point (thread : θ) (answer : Ans)
  | ret (thread : θ) (res : Res)

/-- What the threads see. -/
inductive Action (θ Op Res : Type*) where
  | call (thread : θ) (op : Op)
  | ret (thread : θ) (res : Res)
deriving DecidableEq

def Mark.seen : Mark θ Op Ans Res → Option (Action θ Op Res)
  | .call t op => some (.call t op)
  | .point _ _ => none
  | .ret t res => some (.ret t res)

abbrev Shared (θ Op Res τ : Type*) := τ × (θ → Phase Op Res)

variable [DecidableEq θ] [DecidableEq Res] (obj : Object θ Op Ans Res τ δ)

/-- The object with one point for every call. -/
def atomicStep (x : Shared θ Op Res τ) : Mark θ Op Ans Res → Option (Shared θ Op Res τ)
  | .call t op =>
    match x.2 t with
    | .idle => some (x.1, Function.update x.2 t (.called op))
    | _ => none
  | .point t answer =>
    match x.2 t with
    | .called op => (obj.step x.1 (obj.event t op answer)).map fun y =>
        (y, Function.update x.2 t (.done op (obj.result x.1 op answer)))
    | _ => none
  | .ret t res =>
    match x.2 t with
    | .done _ r => if r = res then some (x.1, Function.update x.2 t .idle) else none
    | _ => none

/-- The calls and returns of a history fit a run in which every call takes effect at one
point after it is made and before it returns. -/
def Linearizable (x : τ) (history : List (Action θ Op Res)) : Prop :=
  ∃ ms y, run (atomicStep obj) (x, fun _ => .idle) ms = some y ∧ trace Mark.seen ms = history

variable {obj}

theorem atomicStep_call {x : Shared θ Op Res τ} {t : θ} (h : x.2 t = .idle) (op : Op) :
    atomicStep obj x (.call t op) = some (x.1, Function.update x.2 t (.called op)) := by
  simp [atomicStep, h]

theorem atomicStep_point {x : Shared θ Op Res τ} {t : θ} {op : Op} {answer : Ans} {y : τ}
    (h : x.2 t = .called op) (hy : obj.step x.1 (obj.event t op answer) = some y) :
    atomicStep obj x (.point t answer) =
      some (y, Function.update x.2 t (.done op (obj.result x.1 op answer))) := by
  simp [atomicStep, h, hy]

theorem atomicStep_ret {x : Shared θ Op Res τ} {t : θ} {op : Op} {res : Res}
    (h : x.2 t = .done op res) :
    atomicStep obj x (.ret t res) = some (x.1, Function.update x.2 t .idle) := by
  simp [atomicStep, h]

/-- The points of a run, in their order, are a run of the sequential object. -/
theorem run_points {x y : Shared θ Op Res τ} {ms : List (Mark θ Op Ans Res)}
    (h : run (atomicStep obj) x ms = some y) : ∃ ds, run obj.step x.1 ds = some y.1 := by
  induction ms generalizing x with
  | nil =>
    obtain rfl : x = y := by simpa using h
    exact ⟨[], rfl⟩
  | cons m ms ih =>
    obtain ⟨z, hz, hrun⟩ := run_cons.mp h
    obtain ⟨ds, hds⟩ := ih hrun
    cases m with
    | call t op =>
      simp only [atomicStep] at hz
      split at hz
      · cases hz
        exact ⟨ds, hds⟩
      · cases hz
    | point t answer =>
      simp only [atomicStep] at hz
      split at hz
      · rename_i op _
        obtain ⟨w, hw, rfl⟩ := Option.map_eq_some_iff.mp hz
        exact ⟨obj.event t op answer :: ds, run_cons.mpr ⟨w, hw, hds⟩⟩
      · cases hz
    | ret t res =>
      simp only [atomicStep] at hz
      split at hz
      · split at hz
        · cases hz
          exact ⟨ds, hds⟩
        · cases hz
      · cases hz

end Atomic
end LSU.Simulation
