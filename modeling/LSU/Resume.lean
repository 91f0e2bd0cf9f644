import Mathlib.Data.List.Basic
import Mathlib.Order.Defs.Unbundled

/-! Jobs that can be stopped before each of their operations and are then started again from the
beginning. A job resumes if started again it ends as it would have ended at first. States,
operations and notes are arbitrary. -/
namespace LSU.Resume
variable {σ α β : Type}

/-- `op f` is one operation, with none for a failure that changes nothing. A note is for the
reader of the job's output. -/
inductive Job (σ α : Type) where
  | skip
  | raise
  | op (f : σ → Option σ)
  | note (a : α)
  | seq (p q : Job σ α)
  | read (next : σ → Job σ α)

namespace Job

/-- The state at the end, or none where the job does not get there. -/
def result : Job σ α → σ → Option σ
  | skip, s => some s
  | raise, _ => none
  | op f, s => f s
  | note _, s => some s
  | seq p q, s => (p.result s).bind fun t => q.result t
  | read next, s => (next s).result s

/-- The states the job can be stopped in, the first and the last among them. -/
def stops : Job σ α → σ → List σ
  | skip, s => [s]
  | raise, s => [s]
  | op f, s => s :: (f s).toList
  | note _, s => [s]
  | seq p q, s => p.stops s ++ (p.result s).elim [] fun t => q.stops t
  | read next, s => (next s).stops s

/-- The notes it makes. -/
def said : Job σ α → σ → List α
  | skip, _ => []
  | raise, _ => []
  | op _, _ => []
  | note a, _ => [a]
  | seq p q, s => p.said s ++ (p.result s).elim [] fun t => q.said t
  | read next, s => (next s).said s

def guarded (test : σ → Bool) (body : Job σ α) : Job σ α :=
  read fun s => if test s then skip else body

def require (test : σ → Bool) : Job σ α := read fun s => if test s then skip else raise

def each (l : List β) (body : β → Job σ α) : Job σ α := l.foldr (fun b => seq (body b)) skip

theorem result_seq {p q : Job σ α} {s u : σ} :
    (seq p q).result s = some u ↔ ∃ t, p.result s = some t ∧ q.result t = some u := by
  rw [result, Option.bind_eq_some_iff]

theorem mem_stops_seq {p q : Job σ α} {s u : σ} :
    u ∈ (seq p q).stops s ↔ u ∈ p.stops s ∨ ∃ t, p.result s = some t ∧ u ∈ q.stops t := by
  rw [stops, List.mem_append]
  cases p.result s <;> simp

theorem mem_stops_op {f : σ → Option σ} {s u : σ} :
    u ∈ (op f : Job σ α).stops s ↔ u = s ∨ f s = some u := by
  rw [stops, List.mem_cons, Option.mem_toList]

theorem mem_stops_guarded {test : σ → Bool} {body : Job σ α} {s u : σ} :
    u ∈ (guarded test body).stops s ↔
      test s = true ∧ u = s ∨ test s = false ∧ u ∈ body.stops s := by
  rw [guarded, stops]
  cases h : test s with
  | true => simp [stops]
  | false => simp

theorem result_guarded {test : σ → Bool} {body : Job σ α} {s u : σ} :
    (guarded test body).result s = some u ↔
      test s = true ∧ u = s ∨ test s = false ∧ body.result s = some u := by
  rw [guarded, result]
  cases h : test s with
  | true => simp [result, eq_comm]
  | false => simp

theorem result_require {test : σ → Bool} {s u : σ} :
    (require test : Job σ α).result s = some u ↔ test s = true ∧ u = s := by
  rw [require, result]
  by_cases h : test s = true
  · simp [h, result, eq_comm]
  · simp [h, result]

theorem stops_require (test : σ → Bool) (s : σ) : (require test : Job σ α).stops s = [s] := by
  rw [require, stops]
  by_cases h : test s = true <;> simp [h, stops]

theorem self_mem_stops (p : Job σ α) (s : σ) : s ∈ p.stops s := by
  induction p generalizing s with
  | skip => exact List.mem_singleton_self s
  | raise => exact List.mem_singleton_self s
  | op f => exact List.mem_cons_self
  | note a => exact List.mem_singleton_self s
  | seq p q ihp ihq => exact List.mem_append_left _ (ihp s)
  | read next ih => exact ih s s

theorem mem_stops_note {a : α} {p : Job σ α} {s u : σ} :
    u ∈ (seq (note a) p).stops s ↔ u ∈ p.stops s := by
  rw [mem_stops_seq]
  constructor
  · intro h
    obtain h | ⟨t, ht, h⟩ := h
    · rw [List.mem_singleton.mp h]
      exact self_mem_stops p s
    · obtain rfl := Option.some.inj ht
      exact h
  · intro h
    exact Or.inr ⟨s, rfl, h⟩

theorem result_note (a : α) (p : Job σ α) (s : σ) :
    (seq (note a) p).result s = p.result s := rfl

theorem result_mem_stops {p : Job σ α} {s u : σ} (h : p.result s = some u) : u ∈ p.stops s := by
  induction p generalizing s u with
  | skip => simpa [result, stops, eq_comm] using h
  | raise => simp [result] at h
  | op f => exact mem_stops_op.mpr (Or.inr h)
  | note a => simpa [result, stops, eq_comm] using h
  | seq p q ihp ihq =>
    obtain ⟨t, hp, hq⟩ := result_seq.mp h
    exact mem_stops_seq.mpr (Or.inr ⟨t, hp, ihq hq⟩)
  | read next ih => exact ih s h

end Job

open Job

/-- All a job does to the states it is started in keeps to a relation. -/
def Stays (R : σ → σ → Prop) (p : Job σ α) : Prop := ∀ s t, t ∈ p.stops s → R s t

section Stays
variable {R : σ → σ → Prop}

theorem Stays.result {p : Job σ α} (h : Stays R p) {s t : σ} (hend : p.result s = some t) :
    R s t := h s t (result_mem_stops hend)

theorem Stays.imp {R' : σ → σ → Prop} {p : Job σ α} (h : Stays R p)
    (himp : ∀ s t, R s t → R' s t) : Stays R' p := fun s t ht => himp s t (h s t ht)

variable [Std.Refl R]

theorem stays_skip : Stays R (skip : Job σ α) := by
  intro s t ht
  rw [List.mem_singleton.mp ht]
  exact refl_of R s

theorem stays_raise : Stays R (raise : Job σ α) := by
  intro s t ht
  rw [List.mem_singleton.mp ht]
  exact refl_of R s

theorem stays_note (a : α) : Stays R (note a : Job σ α) := by
  intro s t ht
  rw [List.mem_singleton.mp ht]
  exact refl_of R s

theorem stays_require (test : σ → Bool) : Stays R (require test : Job σ α) := by
  intro s t ht
  rw [stops_require, List.mem_singleton] at ht
  rw [ht]
  exact refl_of R s

theorem stays_op {f : σ → Option σ} (h : ∀ s t, f s = some t → R s t) :
    Stays R (op f : Job σ α) := by
  intro s t ht
  obtain rfl | hf := mem_stops_op.mp ht
  · exact refl_of R t
  · exact h s t hf

theorem Stays.guarded {test : σ → Bool} {body : Job σ α} (h : Stays R body) :
    Stays R (guarded test body) := by
  intro s t ht
  obtain ⟨_, rfl⟩ | ⟨_, ht⟩ := mem_stops_guarded.mp ht
  · exact refl_of R t
  · exact h s t ht

variable [IsTrans σ R]

omit [Std.Refl R] in
theorem Stays.seq {p q : Job σ α} (hp : Stays R p) (hq : Stays R q) : Stays R (seq p q) := by
  intro s u hu
  obtain hu | ⟨t, hend, hu⟩ := mem_stops_seq.mp hu
  · exact hp s u hu
  · exact trans_of R (hp.result hend) (hq t u hu)

theorem stays_each {body : β → Job σ α} (l : List β) (h : ∀ b ∈ l, Stays R (body b)) :
    Stays R (each l body) := by
  induction l with
  | nil => exact stays_skip
  | cons b l ih =>
    apply Stays.seq (h b List.mem_cons_self)
    exact ih fun x hx => h x (List.mem_cons_of_mem b hx)

end Stays

/-- Stopped in a state of `T` and started again the job ends as it would have; and what it has
done it does not do again, as long as only `R` happens. -/
structure Resumable (R : σ → σ → Prop) (T : σ → Prop) (p : Job σ α) : Prop where
  resumes : ∀ {s t u}, t ∈ p.stops s → T t → p.result t = some u → p.result s = some u
  lasting : ∀ {s s' t u}, p.result s = some s' → R s' t → T t → p.result t = some u → u = t
  stays : Stays R p

section Resumable
variable {R : σ → σ → Prop} {T : σ → Prop}

/-- A job that changes nothing. -/
theorem Resumable.idle [Std.Refl R] {p : Job σ α} (hstops : ∀ s, p.stops s = [s]) :
    Resumable R T p where
  resumes ht _ hu := by
    rw [hstops, List.mem_singleton] at ht
    rwa [← ht]
  lasting _ _ _ hu := by
    have hmem := result_mem_stops hu
    rwa [hstops, List.mem_singleton] at hmem
  stays := by
    intro s t ht
    rw [hstops, List.mem_singleton] at ht
    rw [ht]
    exact refl_of R s

theorem resumable_skip [Std.Refl R] : Resumable R T (skip : Job σ α) := .idle fun _ => rfl

theorem resumable_note [Std.Refl R] (a : α) : Resumable R T (note a : Job σ α) :=
  .idle fun _ => rfl

theorem resumable_require [Std.Refl R] (test : σ → Bool) :
    Resumable R T (require test : Job σ α) := .idle (stops_require test)

/-- The first part does nothing to a state in which the second was stopped. -/
theorem Resumable.seq [Std.Refl R] [IsTrans σ R] {p q : Job σ α} (hp : Resumable R T p)
    (hq : Resumable R T q) : Resumable R T (seq p q) where
  resumes := by
    intro s t u ht hT hu
    obtain ⟨t', hpt, hqt⟩ := result_seq.mp hu
    apply result_seq.mpr
    obtain ht | ⟨s', hps, ht⟩ := mem_stops_seq.mp ht
    · exact ⟨t', hp.resumes ht hT hpt, hqt⟩
    · obtain rfl := hp.lasting hps (hq.stays s' t ht) hT hpt
      exact ⟨s', hps, hq.resumes ht hT hqt⟩
  lasting := by
    intro s s' t u hs hR hT hu
    obtain ⟨r, hps, hqs⟩ := result_seq.mp hs
    obtain ⟨t', hpt, hqt⟩ := result_seq.mp hu
    have hrt : R r t := trans_of R (hq.stays.result hqs) hR
    obtain rfl := hp.lasting hps hrt hT hpt
    exact hq.lasting hqs hR hT hqt
  stays := hp.stays.seq hq.stays

theorem resumable_each [Std.Refl R] [IsTrans σ R] {body : β → Job σ α} (l : List β)
    (h : ∀ b ∈ l, Resumable R T (body b)) : Resumable R T (each l body) := by
  induction l with
  | nil => exact resumable_skip
  | cons b l ih =>
    apply Resumable.seq (h b List.mem_cons_self)
    exact ih fun x hx => h x (List.mem_cons_of_mem b hx)

/-- A guarded job, if its body resumes while the guard is open and is done where it is shut. -/
theorem Resumable.guarded [Std.Refl R] {test : σ → Bool} {body : Job σ α}
    (hkeep : ∀ s t, test s = true → R s t → test t = true)
    (hlast : ∀ s s' t u, body.result s = some s' → R s' t → T t → test t = false →
      body.result t = some u → u = t)
    (hopen : ∀ s t u, t ∈ body.stops s → T t → test t = false → body.result t = some u →
      body.result s = some u)
    (hdone : ∀ s t, test s = false → t ∈ body.stops s → T t → test t = true →
      body.result s = some t)
    (hstays : Stays R body) : Resumable R T (Job.guarded test body) where
  resumes := by
    intro s t u ht hT hu
    obtain ⟨_, rfl⟩ | ⟨hs, ht⟩ := mem_stops_guarded.mp ht
    · exact hu
    · apply result_guarded.mpr
      obtain ⟨htest, rfl⟩ | ⟨htest, hu⟩ := result_guarded.mp hu
      · exact Or.inr ⟨hs, hdone s u hs ht hT htest⟩
      · exact Or.inr ⟨hs, hopen s t u ht hT htest hu⟩
  lasting := by
    intro s s' t u hs hR hT hu
    obtain ⟨_, heq⟩ | ⟨htest, hu⟩ := result_guarded.mp hu
    · exact heq
    · obtain ⟨hs, rfl⟩ | ⟨_, hend⟩ := result_guarded.mp hs
      · rw [hkeep s' t hs hR] at htest
        cases htest
      · exact hlast s s' t u hend hR hT htest hu
  stays := hstays.guarded

/-- A body that shuts the guard has nothing to do a second time. -/
theorem last_of_shut {test : σ → Bool} {body : Job σ α}
    (hkeep : ∀ s t, test s = true → R s t → test t = true)
    (hshut : ∀ s u, body.result s = some u → test u = true) :
    ∀ s s' t u, body.result s = some s' → R s' t → T t → test t = false →
      body.result t = some u → u = t := by
  intro s s' t u hs hR _ htest _
  rw [hkeep s' t (hshut s s' hs) hR] at htest
  cases htest

/-- A single operation behind a guard that it shuts. -/
theorem Resumable.once [Std.Refl R] {test : σ → Bool} {f : σ → Option σ}
    (hkeep : ∀ s t, test s = true → R s t → test t = true)
    (hshut : ∀ s t, f s = some t → test t = true) (hR : ∀ s t, f s = some t → R s t) :
    Resumable R T (Job.guarded test (op f) : Job σ α) := by
  apply Resumable.guarded hkeep
  · exact last_of_shut hkeep hshut
  · intro s t u ht _ htest hu
    obtain rfl | hf := mem_stops_op.mp ht
    · exact hu
    · rw [hshut s t hf] at htest
      cases htest
  · intro s t hs ht _ htest
    obtain rfl | hf := mem_stops_op.mp ht
    · rw [hs] at htest
      cases htest
    · exact hf
  · exact stays_op hR

end Resumable

/-- `Restarted T p s t`: from `s` on the job was started any number of times, each time stopped
in a state of `T`, the last time in `t`. -/
inductive Restarted (T : σ → Prop) (p : Job σ α) (s : σ) : σ → Prop
  | fresh : Restarted T p s s
  | again {t u : σ} (h : Restarted T p s t) (hstop : u ∈ p.stops t) (hT : T u) :
      Restarted T p s u

/-- However often it was stopped, a job that resumes ends as it would have without a stop. -/
theorem Restarted.result {R : σ → σ → Prop} {T : σ → Prop} {p : Job σ α} {s t u : σ}
    (hp : Resumable R T p) (h : Restarted T p s t) (hu : p.result t = some u) :
    p.result s = some u := by
  induction h with
  | fresh => exact hu
  | again h hstop hT ih => exact ih (hp.resumes hstop hT hu)

/-! Notes that have levels. -/

/-- The notes of every run go up, between two levels. -/
structure Rising (level : α → Nat) (j k : Nat) (p : Job σ α) : Prop where
  le : j ≤ k
  within : ∀ s, ∀ a ∈ p.said s, j ≤ level a ∧ level a ≤ k
  rising : ∀ s, (p.said s).Pairwise fun a b => level a ≤ level b

section Rising
variable {level : α → Nat} {j k m : Nat}

theorem Rising.silent {p : Job σ α} (h : ∀ s, p.said s = []) : Rising level j j p where
  le := Nat.le_refl j
  within := by
    intro s a ha
    rw [h s] at ha
    cases ha
  rising := by
    intro s
    rw [h s]
    exact .nil

theorem rising_note (a : α) : Rising level (level a) (level a) (note a : Job σ α) where
  le := Nat.le_refl _
  within := by
    intro s b hb
    rw [List.mem_singleton.mp hb]
    exact ⟨Nat.le_refl _, Nat.le_refl _⟩
  rising := by
    intro s
    exact List.pairwise_singleton _ a

theorem Rising.seq {p q : Job σ α} (hp : Rising level j k p) (hq : Rising level k m q) :
    Rising level j m (seq p q) where
  le := Nat.le_trans hp.le hq.le
  within := by
    intro s a ha
    obtain ha | ha := List.mem_append.mp ha
    · obtain ⟨hj, hk⟩ := hp.within s a ha
      exact ⟨hj, Nat.le_trans hk hq.le⟩
    · cases hend : p.result s with
      | none => simp [hend] at ha
      | some t =>
        rw [hend] at ha
        obtain ⟨hk, hm⟩ := hq.within t a ha
        exact ⟨Nat.le_trans hp.le hk, hm⟩
  rising := by
    intro s
    rw [said]
    cases hend : p.result s with
    | none => simpa using hp.rising s
    | some t =>
      apply List.pairwise_append.mpr
      refine ⟨hp.rising s, hq.rising t, ?_⟩
      intro a ha b hb
      exact Nat.le_trans (hp.within s a ha).2 (hq.within t b hb).1

theorem Rising.read {next : σ → Job σ α} (hle : j ≤ k) (h : ∀ s, Rising level j k (next s)) :
    Rising level j k (read next) where
  le := hle
  within s := (h s).within s
  rising s := (h s).rising s

theorem Rising.mono {j' k' : Nat} {p : Job σ α} (h : Rising level j k p) (hj : j' ≤ j)
    (hk : k ≤ k') : Rising level j' k' p where
  le := Nat.le_trans hj (Nat.le_trans h.le hk)
  within := by
    intro s a ha
    obtain ⟨hja, hka⟩ := h.within s a ha
    exact ⟨Nat.le_trans hj hja, Nat.le_trans hka hk⟩
  rising := h.rising

theorem Rising.guarded {test : σ → Bool} {body : Job σ α} (h : Rising level j k body) :
    Rising level j k (guarded test body) := by
  apply Rising.read h.le
  intro s
  by_cases htest : test s = true
  · rw [if_pos htest]
    exact (Rising.silent (fun _ => rfl)).mono (Nat.le_refl j) h.le
  · rwa [if_neg htest]

theorem rising_require (test : σ → Bool) : Rising level j j (require test : Job σ α) := by
  apply Rising.silent
  intro s
  by_cases htest : test s = true <;> simp [require, said, htest]

theorem rising_op (f : σ → Option σ) : Rising level k k (op f : Job σ α) := .silent fun _ => rfl

theorem rising_each {body : β → Job σ α} (l : List β)
    (h : ∀ b ∈ l, Rising level k k (body b)) : Rising level k k (each l body) := by
  induction l with
  | nil => exact .silent fun _ => rfl
  | cons b l ih =>
    apply Rising.seq (h b List.mem_cons_self)
    exact ih fun x hx => h x (List.mem_cons_of_mem b hx)

end Rising
end LSU.Resume
