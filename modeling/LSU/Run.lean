import Mathlib.Data.List.Induction

/-! Finite runs of a partial step function driven by a list of events. A schedule, a
fault and an answer of the outside world are events, so a statement about every event
list is a statement about every schedule. States and events are arbitrary types. -/
namespace LSU.Run
variable {σ ε : Type*}

def run (step : σ → ε → Option σ) : σ → List ε → Option σ
  | s, [] => some s
  | s, e :: es => (step s e).bind fun t => run step t es

@[simp] theorem run_nil (step : σ → ε → Option σ) (s : σ) : run step s [] = some s := rfl

theorem run_cons {step : σ → ε → Option σ} {s t : σ} {e : ε} {es : List ε} :
    run step s (e :: es) = some t ↔ ∃ r, step s e = some r ∧ run step r es = some t := by
  simp [run, Option.bind_eq_some_iff]

theorem run_append (step : σ → ε → Option σ) (s : σ) (u v : List ε) :
    run step s (u ++ v) = (run step s u).bind fun t => run step t v := by
  induction u generalizing s with
  | nil => rfl
  | cons e u ih =>
    cases h : step s e with
    | none => simp [run, h]
    | some t => simpa [run, h] using ih t

theorem run_concat {step : σ → ε → Option σ} {s t : σ} {e : ε} {es : List ε} :
    run step s (es ++ [e]) = some t ↔ ∃ r, run step s es = some r ∧ step r e = some t := by
  simp [run_append, run, Option.bind_eq_some_iff]

/-- A run that is evaluated. -/
theorem run_reaches {step : σ → ε → Option σ} {P : σ → Prop} [DecidablePred P] {s : σ}
    {es : List ε} (h : (run step s es).any (fun t => decide (P t)) = true) :
    ∃ t, run step s es = some t ∧ P t := by
  obtain ⟨t, ht, hp⟩ := (Option.any_eq_true _ _).mp h
  exact ⟨t, ht, of_decide_eq_true hp⟩

/-- What the start satisfies and every step keeps, with the events so far at hand, holds
at the end of every run. -/
theorem run_history {step : σ → ε → Option σ} {s : σ} (P : List ε → σ → Prop) (h0 : P [] s)
    (hstep : ∀ es r e t, run step s es = some r → P es r → step r e = some t → P (es ++ [e]) t)
    {es : List ε} {t : σ} (h : run step s es = some t) : P es t := by
  induction es using List.reverseRecOn generalizing t with
  | nil => simpa using (Option.some.inj h) ▸ h0
  | append_singleton es e ih =>
    obtain ⟨r, hr, he⟩ := run_concat.mp h
    exact hstep es r e t hr (ih hr) he

theorem run_invariant {step : σ → ε → Option σ} {s t : σ} {es : List ε} (Inv : σ → Prop)
    (hstep : ∀ r e t, Inv r → step r e = some t → Inv t) (h0 : Inv s)
    (h : run step s es = some t) : Inv t :=
  run_history (fun _ => Inv) h0 (fun _ r e t _ hr he => hstep r e t hr he) h

/-- What every step makes smaller bounds the length of a run. -/
theorem run_length_le {step : σ → ε → Option σ} (μ : σ → Nat)
    (hstep : ∀ r e t, step r e = some t → μ t < μ r) {s t : σ} {es : List ε}
    (h : run step s es = some t) : es.length + μ t ≤ μ s := by
  induction es generalizing s with
  | nil =>
    obtain rfl : s = t := by simpa using h
    simp
  | cons e es ih =>
    obtain ⟨r, hr, hrun⟩ := run_cons.mp h
    have hone := hstep s e r hr
    have hrest := ih hrun
    simp only [List.length_cons]
    omega

/-- Every step of the run is taken from a state and by an event that meet `ok`. -/
def Meets (step : σ → ε → Option σ) (ok : σ → ε → Prop) : σ → List ε → Prop
  | _, [] => True
  | s, e :: es => ok s e ∧ ∀ t, step s e = some t → Meets step ok t es

instance decidableMeets {step : σ → ε → Option σ} {ok : σ → ε → Prop}
    [∀ s e, Decidable (ok s e)] : ∀ s es, Decidable (Meets step ok s es)
  | _, [] => isTrue trivial
  | s, e :: es =>
    match h : step s e with
    | none => decidable_of_iff (ok s e) (by simp [Meets, h])
    | some t =>
      have : Decidable (Meets step ok t es) := decidableMeets t es
      decidable_of_iff (ok s e ∧ Meets step ok t es) (by simp [Meets, h])

theorem meets_append {step : σ → ε → Option σ} {ok : σ → ε → Prop} {s r : σ} {u v : List ε}
    (h : run step s u = some r) :
    Meets step ok s (u ++ v) ↔ Meets step ok s u ∧ Meets step ok r v := by
  induction u generalizing s with
  | nil => simp_all [Meets]
  | cons e u ih =>
    obtain ⟨t, ht, hr⟩ := run_cons.mp h
    simp only [List.cons_append, Meets, ht, Option.some.injEq, forall_eq', ih hr, and_assoc]

theorem meets_concat {step : σ → ε → Option σ} {ok : σ → ε → Prop} {s r t : σ} {e : ε}
    {es : List ε} (h : run step s es = some r) (he : step r e = some t) :
    Meets step ok s (es ++ [e]) ↔ Meets step ok s es ∧ ok r e := by
  rw [meets_append h]
  simp [Meets, he]

/-- The invariant rule for runs whose steps all meet a condition. -/
theorem meets_invariant {step : σ → ε → Option σ} {ok : σ → ε → Prop} {s t : σ} {es : List ε}
    (Inv : σ → Prop) (hstep : ∀ r e t, Inv r → ok r e → step r e = some t → Inv t) (h0 : Inv s)
    (hm : Meets step ok s es) (h : run step s es = some t) : Inv t := by
  refine run_history (fun es t => Meets step ok s es → Inv t) (fun _ => h0) ?_ h hm
  intro es r e t hr ih he hm
  obtain ⟨hes, hok⟩ := (meets_concat hr he).mp hm
  exact hstep r e t (ih hes) hok he

/-- How many steps of the run are of a kind. -/
def occurrences (step : σ → ε → Option σ) (kind : σ → ε → Prop) [∀ s e, Decidable (kind s e)] :
    σ → List ε → Nat
  | _, [] => 0
  | s, e :: es =>
    (if kind s e then 1 else 0) + (step s e).elim 0 fun t => occurrences step kind t es

/-- A measure that grows by one with each step of a kind counts them. `Q` is what the end of
the run lets one say about every state before. -/
theorem run_measure {step : σ → ε → Option σ} {kind : σ → ε → Prop} [∀ s e, Decidable (kind s e)]
    (f : σ → Nat) (Q : σ → Prop) (hback : ∀ r e t, step r e = some t → Q t → Q r)
    (hstep : ∀ r e t, step r e = some t → Q t → f t = f r + if kind r e then 1 else 0)
    {s t : σ} {es : List ε} (h : run step s es = some t) (ht : Q t) :
    f t = f s + occurrences step kind s es ∧ Q s := by
  induction es generalizing s with
  | nil =>
    obtain rfl : s = t := by simpa using h
    exact ⟨rfl, ht⟩
  | cons e es ih =>
    obtain ⟨r, hr, hrun⟩ := run_cons.mp h
    obtain ⟨hf, hq⟩ := ih hrun
    have hone := hstep s e r hr hq
    refine ⟨?_, hback s e r hr hq⟩
    simp only [occurrences, hr, Option.elim_some]
    omega

theorem meets_of_occurrences_eq_zero {step : σ → ε → Option σ} {kind : σ → ε → Prop}
    [∀ s e, Decidable (kind s e)] {s : σ} {es : List ε} (h : occurrences step kind s es = 0) :
    Meets step (fun r e => ¬ kind r e) s es := by
  induction es generalizing s with
  | nil => trivial
  | cons e es ih =>
    have hk : ¬ kind s e := by
      intro hk
      simp [occurrences, hk] at h
    refine ⟨hk, fun t ht => ih ?_⟩
    simpa [occurrences, hk, ht] using h

end LSU.Run
