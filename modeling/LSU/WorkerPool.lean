import Mathlib.Algebra.Ring.Nat
import Mathlib.Data.List.Nodup
import Mathlib.Data.List.Pairwise
import LSU.Run

/-! Worker threads that take their items from one closed queue, and the call that joins them.
An item is worked on in stages, each of which ends with an answer of the outside world. A worker
that fails dies with its item, and the join of it raises its error. Items, stages, errors,
answers and what the workers share are arbitrary types. -/
namespace LSU.WorkerPool
open LSU.Run
variable {ι κ ε α σ ρ β : Type*}

/-- What follows an answer. -/
inductive After (κ ε : Type*) where
  | goesOn (stage : κ)
  | done
  | fails (error : ε)

/-- The body of the loop of a worker. -/
structure Work (ι κ ε α σ : Type*) where
  first : ι → κ
  next : ι → κ → α → σ → Option (σ × After κ ε)

inductive Worker (ι κ ε : Type*) where
  | idle
  | busy (item : ι) (stage : κ)
  | ended
  | dead (item : ι) (error : ε)

/-- `joined` workers have been joined, in their order. `finished` is what the workers have got
done, in the order in which they have. -/
structure Pool (ι κ ε σ : Type*) where
  queue : List ι
  workers : List (Worker ι κ ε)
  joined : Nat
  raised : Option ε
  shared : σ
  finished : List ι

inductive Event (α : Type*) where
  | deq (w : Nat)
  | answer (w : Nat) (a : α)
  | join

def Pool.start (n : Nat) (items : List ι) (shared : σ) : Pool ι κ ε σ :=
  ⟨items, List.replicate n .idle, 0, none, shared, []⟩

def Pool.put (p : Pool ι κ ε σ) (w : Nat) (x : Worker ι κ ε) : Pool ι κ ε σ :=
  { p with workers := p.workers.set w x }

/-- The worker's item has been answered. -/
def Pool.follow (p : Pool ι κ ε σ) (w : Nat) (i : ι) (shared : σ) : After κ ε → Pool ι κ ε σ
  | .goesOn k => { p.put w (.busy i k) with shared := shared }
  | .done => { p.put w .idle with shared := shared, finished := p.finished ++ [i] }
  | .fails error => { p.put w (.dead i error) with shared := shared }

/-- `deq` of a closed queue gives nil where it is empty, and the worker ends. -/
def Work.step (W : Work ι κ ε α σ) (p : Pool ι κ ε σ) : Event α → Option (Pool ι κ ε σ)
  | .deq w =>
    match p.workers[w]?, p.queue with
    | some .idle, [] => some (p.put w .ended)
    | some .idle, i :: rest => some { p.put w (.busy i (W.first i)) with queue := rest }
    | _, _ => none
  | .answer w a =>
    match p.workers[w]? with
    | some (.busy i k) => (W.next i k a p.shared).map fun (s, after) => p.follow w i s after
    | _ => none
  | .join =>
    match p.raised, p.workers[p.joined]? with
    | none, some .ended => some { p with joined := p.joined + 1 }
    | none, some (.dead _ error) => some { p with raised := some error }
    | _, _ => none

/-- All workers have been joined, and none of them has raised. -/
def Pool.Returned (p : Pool ι κ ε σ) : Prop := p.raised = none ∧ p.joined = p.workers.length

/-- Some item has failed in a worker. -/
def Pool.Failed (p : Pool ι κ ε σ) : Prop := ∃ i error, .dead i error ∈ p.workers

instance [DecidableEq ε] (p : Pool ι κ ε σ) : Decidable p.Returned :=
  inferInstanceAs (Decidable (p.raised = none ∧ p.joined = p.workers.length))

def Worker.isDead : Worker ι κ ε → Bool
  | .dead _ _ => true
  | _ => false

instance (p : Pool ι κ ε σ) : Decidable p.Failed :=
  decidable_of_iff (p.workers.any Worker.isDead = true) (by
    simp only [List.any_eq_true, Pool.Failed]
    constructor
    · rintro ⟨x, hx, hdead⟩
      cases x with
      | dead i error => exact ⟨i, error, hx⟩
      | _ => cases hdead
    · rintro ⟨i, error, hx⟩
      exact ⟨_, hx, rfl⟩)

/-- What a step does. -/
inductive Moves (W : Work ι κ ε α σ) (p : Pool ι κ ε σ) : Pool ι κ ε σ → Prop where
  | ends {w : Nat} (hw : p.workers[w]? = some .idle) (hq : p.queue = []) :
    Moves W p (p.put w .ended)
  | takes {w : Nat} {i : ι} {rest : List ι} (hw : p.workers[w]? = some .idle)
    (hq : p.queue = i :: rest) :
    Moves W p { p.put w (.busy i (W.first i)) with queue := rest }
  | answers {w : Nat} {i : ι} {k : κ} {a : α} {s : σ} {after : After κ ε}
    (hw : p.workers[w]? = some (.busy i k)) (hn : W.next i k a p.shared = some (s, after)) :
    Moves W p (p.follow w i s after)
  | joins (hr : p.raised = none) (hw : p.workers[p.joined]? = some .ended) :
    Moves W p { p with joined := p.joined + 1 }
  | raises {i : ι} {error : ε} (hr : p.raised = none)
    (hw : p.workers[p.joined]? = some (.dead i error)) :
    Moves W p { p with raised := some error }

variable {W : Work ι κ ε α σ} {p q : Pool ι κ ε σ}

theorem step_moves {e : Event α} (h : W.step p e = some q) : Moves W p q := by
  cases e with
  | deq w =>
    simp only [Work.step] at h
    split at h
    case h_1 hw hq => cases h; exact .ends hw hq
    case h_2 hw hq => cases h; exact .takes hw hq
    case h_3 => cases h
  | answer w a =>
    simp only [Work.step] at h
    split at h
    case h_1 hw =>
      obtain ⟨⟨s, after⟩, hn, rfl⟩ := Option.map_eq_some_iff.mp h
      exact .answers hw hn
    case h_2 => cases h
  | join =>
    simp only [Work.step] at h
    split at h
    case h_1 hr hw => cases h; exact .joins hr hw
    case h_2 hr hw => cases h; exact .raises hr hw
    case h_3 => cases h

/-! Where the items are. -/

inductive Phase (κ ε : Type*) where
  | waiting
  | at (stage : κ)
  | done
  | failed (error : ε)

def After.phase : After κ ε → Phase κ ε
  | .goesOn k => .at k
  | .done => .done
  | .fails error => .failed error

def Pool.In (p : Pool ι κ ε σ) : Phase κ ε → ι → Prop
  | .waiting, i => i ∈ p.queue
  | .at k, i => .busy i k ∈ p.workers
  | .done, i => i ∈ p.finished
  | .failed error, i => .dead i error ∈ p.workers

def Worker.phase : Worker ι κ ε → Option (Phase κ ε)
  | .busy _ k => some (.at k)
  | .dead _ error => some (.failed error)
  | _ => none

def Worker.held : Worker ι κ ε → List ι
  | .busy i _ => [i]
  | .dead i _ => [i]
  | _ => []

/-- Every item that has not been lost. -/
def Pool.items (p : Pool ι κ ε σ) : List ι :=
  p.queue ++ p.workers.flatMap Worker.held ++ p.finished

theorem set_split {γ : Type*} {l : List γ} {w : Nat} {a : γ} (h : l[w]? = some a) :
    ∃ u v, l = u ++ a :: v ∧ ∀ b, l.set w b = u ++ b :: v := by
  obtain ⟨hw, rfl⟩ := List.getElem?_eq_some_iff.mp h
  refine ⟨l.take w, l.drop (w + 1), ?_, fun b => List.set_eq_take_append_cons_drop .. ▸ if_pos hw⟩
  simp

theorem held_set {l : List (Worker ι κ ε)} {w : Nat} {x : Worker ι κ ε} (h : l[w]? = some x) :
    ∃ u v, l.flatMap Worker.held = u ++ (x.held ++ v) ∧
      ∀ y : Worker ι κ ε, (l.set w y).flatMap Worker.held = u ++ (y.held ++ v) := by
  obtain ⟨u, v, hl, hs⟩ := set_split h
  refine ⟨u.flatMap Worker.held, v.flatMap Worker.held, ?_, fun y => ?_⟩
  · simp [hl]
  · simp [hs]

theorem Moves.items (h : Moves W p q) : q.items.Perm p.items := by
  cases h with
  | ends hw hq =>
    obtain ⟨u, v, hl, hs⟩ := held_set hw
    simp [Pool.items, Pool.put, hs, hl, Worker.held]
  | @takes w i rest hw hq =>
    obtain ⟨u, v, hl, hs⟩ := held_set hw
    have h : (rest ++ u ++ i :: (v ++ p.finished)).Perm (i :: (rest ++ u ++ (v ++ p.finished))) :=
      List.perm_middle
    simpa [Pool.items, Pool.put, hs, hl, hq, Worker.held] using h
  | @answers w i k a s after hw hn =>
    obtain ⟨u, v, hl, hs⟩ := held_set hw
    cases after with
    | goesOn k => simp [Pool.items, Pool.follow, Pool.put, hs, hl, Worker.held]
    | done =>
      have h : (v ++ p.finished ++ [i]).Perm (i :: (v ++ p.finished)) :=
        List.perm_append_singleton i _
      simpa [Pool.items, Pool.follow, Pool.put, hs, hl, Worker.held] using
        (h.append_left u).append_left p.queue
    | fails error => simp [Pool.items, Pool.follow, Pool.put, hs, hl, Worker.held]
  | joins hr hw => exact .rfl
  | raises hr hw => exact .rfl

/-- No item is lost and none is there twice, whatever the schedule. -/
theorem run_items {es : List (Event α)} (h : run W.step p es = some q) :
    q.items.Perm p.items :=
  run_invariant (fun q => q.items.Perm p.items)
    (fun _ _ _ hr he => (step_moves he).items.trans hr) .rfl h

@[simp] theorem start_items (n : Nat) (items : List ι) (s : σ) :
    (Pool.start n items s : Pool ι κ ε σ).items = items := by
  simp [Pool.items, Pool.start, Worker.held]

theorem Pool.In.place {ph : Phase κ ε} {i : ι} (h : p.In ph i) :
    (i ∈ p.queue ∧ ph = .waiting) ∨
      (∃ x ∈ p.workers, i ∈ x.held ∧ x.phase = some ph) ∨ (i ∈ p.finished ∧ ph = .done) := by
  cases ph with
  | waiting => exact .inl ⟨h, rfl⟩
  | «at» k => exact .inr (.inl ⟨_, h, List.mem_singleton_self i, rfl⟩)
  | done => exact .inr (.inr ⟨h, rfl⟩)
  | failed error => exact .inr (.inl ⟨_, h, List.mem_singleton_self i, rfl⟩)

theorem Pool.In.mem {ph : Phase κ ε} {i : ι} (h : p.In ph i) : i ∈ p.items := by
  simp only [Pool.items, List.mem_append, List.mem_flatMap]
  obtain ⟨hq, -⟩ | ⟨x, hx, hi, -⟩ | ⟨hf, -⟩ := h.place
  · exact .inl (.inl hq)
  · exact .inl (.inr ⟨x, hx, hi⟩)
  · exact .inr hf

theorem Pool.exists_in {i : ι} (h : i ∈ p.items) : ∃ ph, p.In ph i := by
  simp only [Pool.items, List.mem_append, List.mem_flatMap] at h
  obtain (hq | ⟨x, hx, hi⟩) | hf := h
  · exact ⟨.waiting, hq⟩
  · cases x with
    | busy j k =>
      obtain rfl := List.mem_singleton.mp hi
      exact ⟨.at k, hx⟩
    | dead j error =>
      obtain rfl := List.mem_singleton.mp hi
      exact ⟨.failed error, hx⟩
    | idle => cases hi
    | ended => cases hi
  · exact ⟨.done, hf⟩

/-- An item that a worker holds has no other holder. -/
theorem holder_unique {l : List (Worker ι κ ε)} (hn : (l.flatMap Worker.held).Nodup)
    {x y : Worker ι κ ε} {i : ι} (hx : x ∈ l) (hy : y ∈ l) (hix : i ∈ x.held) (hiy : i ∈ y.held) :
    x = y := by
  by_contra hne
  have hd := (List.nodup_flatMap.mp hn).2
  have : Std.Symm (Function.onFun List.Disjoint (Worker.held : Worker ι κ ε → List ι)) :=
    ⟨fun _ _ h _ hx hy => h hy hx⟩
  exact hd.forall hx hy hne hix hiy

/-- An item is in one phase only. -/
theorem Pool.In.unique (hn : p.items.Nodup) {ph ph' : Phase κ ε} {i : ι} (h : p.In ph i)
    (h' : p.In ph' i) : ph = ph' := by
  obtain ⟨hqh, -, hfin⟩ := List.nodup_append'.mp hn
  obtain ⟨-, hheld, hqueue⟩ := List.nodup_append'.mp hqh
  have held {x : Worker ι κ ε} (hx : x ∈ p.workers) (hi : i ∈ x.held) :
      i ∈ p.workers.flatMap Worker.held := List.mem_flatMap.mpr ⟨x, hx, hi⟩
  obtain ⟨hq, rfl⟩ | ⟨x, hx, hi, hp⟩ | ⟨hf, rfl⟩ := h.place <;>
    obtain ⟨hq', rfl⟩ | ⟨y, hy, hi', hp'⟩ | ⟨hf', rfl⟩ := h'.place
  · rfl
  · exact (hqueue hq (held hy hi')).elim
  · exact (hfin (List.mem_append_left _ hq) hf').elim
  · exact (hqueue hq' (held hx hi)).elim
  · obtain rfl := holder_unique hheld hx hy hi hi'
    exact Option.some.inj (hp.symm.trans hp')
  · exact (hfin (List.mem_append_right _ (held hx hi)) hf').elim
  · exact (hfin (List.mem_append_left _ hq') hf).elim
  · exact (hfin (List.mem_append_right _ (held hy hi')) hf).elim
  · rfl

/-- The items other than the one a worker is given stay where they are. -/
theorem Pool.In.before {ph : Phase κ ε} {w : Nat} {x : Worker ι κ ε} {j : ι} (h : q.In ph j)
    (hw : q.workers = p.workers.set w x) (hx : j ∉ x.held) (hq : j ∈ q.queue → j ∈ p.queue)
    (hf : j ∈ q.finished → j ∈ p.finished) : p.In ph j := by
  have hold {y : Worker ι κ ε} (hy : y ∈ q.workers) (hj : j ∈ y.held) : y ∈ p.workers := by
    rw [hw] at hy
    rcases List.mem_or_eq_of_mem_set hy with hy | rfl
    · exact hy
    · exact (hx hj).elim
  cases ph with
  | waiting => exact hq h
  | «at» k => exact hold h (List.mem_singleton_self j)
  | done => exact hf h
  | failed error => exact hold h (List.mem_singleton_self j)

/-- A property of an item in each of its phases that the own steps of the item establish and
the steps of the others leave alone. -/
structure Work.Keeps (W : Work ι κ ε α σ) (items : List ι) (H : Phase κ ε → ι → σ → Prop) :
    Prop where
  first : ∀ i ∈ items, ∀ s, H .waiting i s → H (.at (W.first i)) i s
  own : ∀ i ∈ items, ∀ k a s t after, H (.at k) i s → W.next i k a s = some (t, after) →
    H after.phase i t
  others : ∀ i ∈ items, ∀ j ∈ items, i ≠ j → ∀ k a s t after, W.next i k a s = some (t, after) →
    ∀ ph, H ph j s → H ph j t

variable {items : List ι} {H : Phase κ ε → ι → σ → Prop}

theorem Work.Keeps.moves (hk : W.Keeps items H) (hi : p.items.Perm items) (hn : items.Nodup)
    (hp : ∀ ph i, p.In ph i → H ph i p.shared) (hm : Moves W p q) :
    ∀ ph i, q.In ph i → H ph i q.shared := by
  have hmem {ph : Phase κ ε} {i : ι} (h : p.In ph i) : i ∈ items := hi.mem_iff.mp h.mem
  have hnq : q.items.Nodup := (hm.items.trans hi).nodup_iff.mpr hn
  cases hm with
  | ends hw hq =>
    intro ph j hj
    exact hp ph j (hj.before rfl List.not_mem_nil id id)
  | @takes w i rest hw hq =>
    intro ph j hj
    have hwait : p.In .waiting i := by simp [Pool.In, hq]
    have hown : ({ p.put w (.busy i (W.first i)) with queue := rest } : Pool ι κ ε σ).In
        (.at (W.first i)) i := List.mem_set (List.getElem?_eq_some_iff.mp hw).1 _
    by_cases hji : j = i
    · subst hji
      rw [hj.unique hnq hown]
      exact hk.first j (hmem hwait) _ (hp _ _ hwait)
    · refine hp ph j (hj.before rfl (by simpa [Worker.held] using hji) (fun h => ?_) id)
      rw [hq]
      exact List.mem_cons_of_mem i h
  | @answers w i k a s after hw hnext =>
    intro ph j hj
    have hbusy : p.In (.at k) i := List.mem_of_getElem? hw
    have hown : (p.follow w i s after).In after.phase i := by
      have hlt := (List.getElem?_eq_some_iff.mp hw).1
      cases after with
      | goesOn k => exact List.mem_set hlt _
      | done => exact List.mem_append_right _ (List.mem_singleton_self i)
      | fails error => exact List.mem_set hlt _
    have hs : (p.follow w i s after).shared = s := by cases after <;> rfl
    rw [hs]
    by_cases hji : j = i
    · subst hji
      rw [hj.unique hnq hown]
      exact hk.own j (hmem hbusy) k a _ s after (hp _ _ hbusy) hnext
    · have hjp : p.In ph j := by
        cases after with
        | goesOn k => exact hj.before rfl (by simpa [Worker.held] using hji) id id
        | done => exact hj.before rfl List.not_mem_nil id (by simp [Pool.follow, hji])
        | fails error => exact hj.before rfl (by simpa [Worker.held] using hji) id id
      exact hk.others i (hmem hbusy) j (hmem hjp) (Ne.symm hji) k a _ s after hnext ph (hp _ _ hjp)
  | joins hr hw => exact hp
  | raises hr hw => exact hp

theorem start_in {n : Nat} {s : σ} {ph : Phase κ ε} {i : ι}
    (h : (Pool.start n items s : Pool ι κ ε σ).In ph i) : ph = .waiting ∧ i ∈ items := by
  cases ph with
  | waiting => exact ⟨rfl, h⟩
  | «at» k => cases List.eq_of_mem_replicate h
  | done => cases h
  | failed error => cases List.eq_of_mem_replicate h

/-- The rule for the progress of the items, one by one, under every schedule. -/
theorem Work.Keeps.run (hk : W.Keeps items H) (hn : items.Nodup) {n : Nat} {s : σ}
    (h0 : ∀ i ∈ items, H .waiting i s) {es : List (Event α)}
    (h : Run.run W.step (Pool.start n items s) es = some p) :
    ∀ ph i, p.In ph i → H ph i p.shared := by
  refine (run_invariant (fun p => p.items.Perm items ∧ ∀ ph i, p.In ph i → H ph i p.shared)
    ?_ ⟨?_, ?_⟩ h).2
  · rintro p e q ⟨hi, hp⟩ he
    have hm := step_moves he
    exact ⟨hm.items.trans hi, hk.moves hi hn hp hm⟩
  · rw [start_items]
  · intro ph i hi
    obtain ⟨rfl, hmem⟩ := start_in hi
    exact h0 i hmem

/-- The rule for what is true of the shared state all along. -/
theorem run_shared (G : σ → Prop)
    (hG : ∀ i ∈ items, ∀ k a s t after, W.next i k a s = some (t, after) → G s → G t) {n : Nat}
    {s : σ} (h0 : G s) {es : List (Event α)} (h : run W.step (Pool.start n items s) es = some p) :
    G p.shared := by
  refine (run_invariant (fun p => p.items.Perm items ∧ G p.shared) ?_ ⟨?_, h0⟩ h).2
  · rintro p e q ⟨hi, hp⟩ he
    have hm := step_moves he
    refine ⟨hm.items.trans hi, ?_⟩
    cases hm with
    | @answers w i k a s after hw hnext =>
      have hbusy : p.In (.at k) i := List.mem_of_getElem? hw
      have hs : (p.follow w i s after).shared = s := by cases after <;> rfl
      rw [hs]
      exact hG i (hi.mem_iff.mp hbusy.mem) k a p.shared s after hnext hp
    | _ => exact hp
  · rw [start_items]

/-! Joining. -/

theorem mem_set_of_ne {γ : Type*} {l : List γ} {w : Nat} {x y z : γ} (hx : x ∈ l)
    (hw : l[w]? = some y) (hne : x ≠ y) : x ∈ l.set w z := by
  obtain ⟨u, v, hl, hs⟩ := set_split hw
  rw [hl] at hx
  rw [hs]
  grind

structure Pool.Orderly (p : Pool ι κ ε σ) : Prop where
  le : p.joined ≤ p.workers.length
  joined : ∀ w < p.joined, p.workers[w]? = some .ended
  empty : .ended ∈ p.workers → p.queue = []
  manned : p.workers = [] → p.queue = []
  raised : ∀ error, p.raised = some error → ∃ i, .dead i error ∈ p.workers

theorem start_orderly {n : Nat} {s : σ} (hn : n = 0 → items = []) :
    (Pool.start n items s : Pool ι κ ε σ).Orderly where
  le := Nat.zero_le _
  joined _ hw := absurd hw (Nat.not_lt_zero _)
  empty h := by cases List.eq_of_mem_replicate h
  manned h := hn (by simpa [Pool.start] using h)
  raised _ h := by cases h

/-- The state of a worker that is at work changes. -/
theorem Pool.Orderly.change (h : p.Orderly) {w : Nat} {x y : Worker ι κ ε}
    (hw : p.workers[w]? = some x) (hx : x = .idle ∨ ∃ i k, x = .busy i k)
    (hq : q.workers = p.workers.set w y) (hj : q.joined = p.joined) (hr : q.raised = p.raised)
    (he : .ended ∈ q.workers → q.queue = []) : q.Orderly where
  le := by
    rw [hj, hq, List.length_set]
    exact h.le
  joined v hv := by
    rw [hj] at hv
    have hne : w ≠ v := by
      rintro rfl
      have := (h.joined w hv).symm.trans hw
      grind
    rw [hq, List.getElem?_set_ne hne]
    exact h.joined v hv
  empty := he
  manned hnil := by
    have hlt := (List.getElem?_eq_some_iff.mp hw).1
    have : q.workers.length = p.workers.length := by rw [hq, List.length_set]
    rw [hnil, List.length_nil] at this
    omega
  raised error herr := by
    rw [hr] at herr
    obtain ⟨i, hi⟩ := h.raised error herr
    refine ⟨i, ?_⟩
    rw [hq]
    exact mem_set_of_ne hi hw (by grind)

theorem Moves.orderly (hm : Moves W p q) (h : p.Orderly) : q.Orderly := by
  cases hm with
  | ends hw hq => exact h.change hw (.inl rfl) rfl rfl rfl fun _ => hq
  | @takes w i rest hw hq =>
    refine h.change hw (.inl rfl) rfl rfl rfl fun hmem => ?_
    rcases List.mem_or_eq_of_mem_set hmem with hold | hnew
    · rw [h.empty hold] at hq
      cases hq
    · cases hnew
  | @answers w i k a s after hw hnext =>
    have hqueue : (p.follow w i s after).queue = p.queue := by cases after <;> rfl
    have hnew (y : Worker ι κ ε) (hy : y ≠ .ended) (hmem : .ended ∈ p.workers.set w y) :
        p.queue = [] := by
      rcases List.mem_or_eq_of_mem_set hmem with hold | hnew
      · exact h.empty hold
      · exact (hy hnew.symm).elim
    cases after with
    | goesOn k => exact h.change hw (.inr ⟨i, _, rfl⟩) rfl rfl rfl (hnew _ (by simp))
    | done => exact h.change hw (.inr ⟨i, k, rfl⟩) rfl rfl rfl (hnew _ (by simp))
    | fails error => exact h.change hw (.inr ⟨i, k, rfl⟩) rfl rfl rfl (hnew _ (by simp))
  | joins hr hw =>
    refine ⟨(List.getElem?_eq_some_iff.mp hw).1, fun w hlt => ?_, h.empty, h.manned, h.raised⟩
    rcases Nat.lt_succ_iff_lt_or_eq.mp hlt with hlt | rfl
    · exact h.joined w hlt
    · exact hw
  | @raises i error hr hw =>
    refine ⟨h.le, h.joined, h.empty, h.manned, fun error' herr => ⟨i, ?_⟩⟩
    obtain rfl := Option.some.inj herr
    exact List.mem_of_getElem? hw

theorem run_orderly {n : Nat} {s : σ} (hn : n = 0 → items = []) {es : List (Event α)}
    (h : run W.step (Pool.start n items s) es = some p) : p.Orderly :=
  run_invariant Pool.Orderly (fun _ _ _ hr he => (step_moves he).orderly hr) (start_orderly hn) h

theorem Pool.Orderly.ended (h : p.Orderly) (hr : p.Returned) :
    ∀ x ∈ p.workers, x = .ended := by
  intro x hx
  obtain ⟨w, hw⟩ := List.mem_iff_getElem?.mp hx
  have hlt := (List.getElem?_eq_some_iff.mp hw).1
  have hend := h.joined w (hr.2 ▸ hlt)
  exact Option.some.inj (hw.symm.trans hend)

/-- Where the call has returned everything is done. -/
theorem Pool.Orderly.returned_items (h : p.Orderly) (hr : p.Returned) : p.items = p.finished := by
  have hall := h.ended hr
  have hqueue : p.queue = [] := by
    cases hw : p.workers with
    | nil => exact h.manned hw
    | cons x xs =>
      have hx : x ∈ p.workers := by simp [hw]
      exact h.empty (hall x hx ▸ hx)
  have hheld : p.workers.flatMap Worker.held = [] := by
    rw [List.flatMap_eq_nil_iff]
    intro x hx
    rw [hall x hx]
    rfl
  simp [Pool.items, hqueue, hheld]

/-- Wherever the call has returned, each item is done. -/
theorem run_done {n : Nat} {s : σ} (hn : n = 0 → items = []) {es : List (Event α)}
    (h : run W.step (Pool.start n items s) es = some p) (hr : p.Returned) {i : ι}
    (hi : i ∈ items) : p.In .done i := by
  have hperm := run_items h
  rw [start_items, (run_orderly hn h).returned_items hr] at hperm
  exact hperm.mem_iff.mpr hi

/-- Each item is in some phase all along. -/
theorem run_in {n : Nat} {s : σ} {es : List (Event α)}
    (h : run W.step (Pool.start n items s) es = some p) {i : ι} (hi : i ∈ items) :
    ∃ ph, p.In ph i := by
  have hperm := run_items h
  rw [start_items] at hperm
  apply Pool.exists_in
  exact hperm.mem_iff.mpr hi

theorem Pool.Orderly.failed (h : p.Orderly) (hf : p.Failed) : ¬ p.Returned := by
  intro hr
  obtain ⟨i, error, hd⟩ := hf
  cases h.ended hr _ hd

/-- What has failed stays failed. -/
theorem Moves.failed (hm : Moves W p q) (hf : p.Failed) : q.Failed := by
  obtain ⟨j, error, hd⟩ := hf
  refine ⟨j, error, ?_⟩
  cases hm with
  | ends hw hq => exact mem_set_of_ne hd hw (by simp)
  | takes hw hq => exact mem_set_of_ne hd hw (by simp)
  | @answers w i k a s after hw hnext =>
    cases after with
    | goesOn k => exact mem_set_of_ne hd hw (by simp)
    | done => exact mem_set_of_ne hd hw (by simp)
    | fails error => exact mem_set_of_ne hd hw (by simp)
  | joins hr hw => exact hd
  | raises hr hw => exact hd

/-! Every schedule comes to its end. -/

/-- A stage that goes on costs less, and there is an answer to each. -/
structure Work.Ends (W : Work ι κ ε α σ) (cost : ι → κ → Nat) : Prop where
  falls : ∀ i k a s t k', W.next i k a s = some (t, .goesOn k') → cost i k' < cost i k
  answers : ∀ i k s, ∃ a, (W.next i k a s).isSome

variable {cost : ι → κ → Nat}

def Worker.weight (cost : ι → κ → Nat) : Worker ι κ ε → Nat
  | .idle => 1
  | .busy i k => cost i k + 2
  | _ => 0

/-- How many steps are left at most. -/
def Pool.weight (W : Work ι κ ε α σ) (cost : ι → κ → Nat) (p : Pool ι κ ε σ) : Nat :=
  (p.queue.map fun i => cost i (W.first i) + 2).sum + (p.workers.map (Worker.weight cost)).sum +
    (p.workers.length - p.joined) + p.raised.elim 1 fun _ => 0

theorem weight_set (cost : ι → κ → Nat) {l : List (Worker ι κ ε)} {w : Nat} {x : Worker ι κ ε}
    (h : l[w]? = some x) :
    ∃ n, (l.map (Worker.weight cost)).sum = n + x.weight cost ∧
      ∀ y : Worker ι κ ε, ((l.set w y).map (Worker.weight cost)).sum = n + y.weight cost := by
  obtain ⟨u, v, hl, hs⟩ := set_split h
  refine ⟨(u.map (Worker.weight cost)).sum + (v.map (Worker.weight cost)).sum, ?_, fun y => ?_⟩
  · simp only [hl, List.map_append, List.map_cons, List.sum_append, List.sum_cons]
    omega
  · simp only [hs, List.map_append, List.map_cons, List.sum_append, List.sum_cons]
    omega

theorem Moves.weight (he : W.Ends cost) (hm : Moves W p q) :
    q.weight W cost < p.weight W cost := by
  cases hm with
  | ends hw hq =>
    obtain ⟨n, hn, hset⟩ := weight_set cost hw
    simp only [Pool.weight, Pool.put, List.length_set, hn, hset, Worker.weight]
    omega
  | takes hw hq =>
    obtain ⟨n, hn, hset⟩ := weight_set cost hw
    simp only [Pool.weight, Pool.put, List.length_set, hn, hset, Worker.weight, hq, List.map_cons,
      List.sum_cons]
    omega
  | @answers w i k a s after hw hnext =>
    obtain ⟨n, hn, hset⟩ := weight_set cost hw
    cases after with
    | goesOn k' =>
      have hfall := he.falls i k a p.shared s k' hnext
      simp only [Pool.weight, Pool.follow, Pool.put, List.length_set, hn, hset, Worker.weight]
      omega
    | done =>
      simp only [Pool.weight, Pool.follow, Pool.put, List.length_set, hn, hset, Worker.weight]
      omega
    | fails error =>
      simp only [Pool.weight, Pool.follow, Pool.put, List.length_set, hn, hset, Worker.weight]
      omega
  | joins hr hw =>
    have hlt := (List.getElem?_eq_some_iff.mp hw).1
    simp only [Pool.weight]
    omega
  | raises hr hw => simp [Pool.weight, hr]

/-- Where nothing can happen any more the call has come back. -/
theorem Pool.Orderly.halts (h : p.Orderly) (he : W.Ends cost)
    (hstuck : ∀ e : Event α, W.step p e = none) : p.raised ≠ none ∨ p.Returned := by
  by_contra hno
  have hraised : p.raised = none := by
    by_contra hr
    exact hno (.inl hr)
  have hlt : p.joined < p.workers.length := by
    have hne : p.joined ≠ p.workers.length := fun heq => hno (.inr ⟨hraised, heq⟩)
    have hle := h.le
    omega
  obtain ⟨x, hx⟩ : ∃ x, p.workers[p.joined]? = some x := ⟨_, List.getElem?_eq_getElem hlt⟩
  cases x with
  | idle =>
    have hdeq := hstuck (.deq p.joined)
    cases hq : p.queue <;> simp [Work.step, hx, hq] at hdeq
  | busy i k =>
    obtain ⟨a, ha⟩ := he.answers i k p.shared
    have hans := hstuck (.answer p.joined a)
    simp only [Work.step, hx, Option.map_eq_none_iff] at hans
    simp [hans] at ha
  | ended =>
    have hjoin := hstuck .join
    simp [Work.step, hx, hraised] at hjoin
  | dead i error =>
    have hjoin := hstuck .join
    simp [Work.step, hx, hraised] at hjoin

/-! The call that prepares the queue, starts the workers and joins them. -/

/-- `ρ` is what the preparation finds out for the workers. -/
inductive Call (ρ ι κ ε σ : Type*) where
  | entered (s : σ)
  | refused (error : ε) (s : σ)
  | working (r : ρ) (p : Pool ι κ ε σ)

inductive Call.Event (β α : Type*) where
  | prepare (b : β)
  | pool (e : WorkerPool.Event α)

structure Method (ρ ι κ ε α σ β : Type*) where
  prepare : β → σ → Except (ε × σ) (ρ × Pool ι κ ε σ)
  work : ρ → Work ι κ ε α σ

def Method.step (m : Method ρ ι κ ε α σ β) :
    Call ρ ι κ ε σ → Call.Event β α → Option (Call ρ ι κ ε σ)
  | .entered s, .prepare b =>
    match m.prepare b s with
    | .error (error, t) => some (.refused error t)
    | .ok (r, p) => some (.working r p)
  | .working r p, .pool e => ((m.work r).step p e).map (.working r)
  | _, _ => none

namespace Call

def shared : Call ρ ι κ ε σ → σ
  | .entered s => s
  | .refused _ s => s
  | .working _ p => p.shared

def Returned : Call ρ ι κ ε σ → Prop
  | .working _ p => p.Returned
  | _ => False

def Failed : Call ρ ι κ ε σ → Prop
  | .working _ p => p.Failed
  | _ => False

instance [DecidableEq ε] : ∀ c : Call ρ ι κ ε σ, Decidable c.Returned
  | .entered _ => isFalse id
  | .refused _ _ => isFalse id
  | .working _ p => inferInstanceAs (Decidable p.Returned)

instance : ∀ c : Call ρ ι κ ε σ, Decidable c.Failed
  | .entered _ => isFalse id
  | .refused _ _ => isFalse id
  | .working _ p => inferInstanceAs (Decidable p.Failed)

def raised : Call ρ ι κ ε σ → Option ε
  | .entered _ => none
  | .refused error _ => some error
  | .working _ p => p.raised

end Call

/-- Whatever happens from here on, the call never returns, and it raises before long. -/
def Method.Raises (m : Method ρ ι κ ε α σ β) (c : Call ρ ι κ ε σ) : Prop :=
  ∃ n, ∀ es d, run m.step c es = some d →
    es.length ≤ n ∧ ¬ d.Returned ∧ ((∀ e, m.step d e = none) → d.raised ≠ none)

variable {m : Method ρ ι κ ε α σ β}

/-- A run of the call is its preparation and then a run of the pool. -/
theorem call_run {s : σ} {es : List (Call.Event β α)} {c : Call ρ ι κ ε σ}
    (h : run m.step (.entered s) es = some c) :
    c = .entered s ∨
      (∃ b error t, m.prepare b s = .error (error, t) ∧ c = .refused error t) ∨
      ∃ b r p q es', m.prepare b s = .ok (r, p) ∧ run (m.work r).step p es' = some q ∧
        c = .working r q := by
  refine run_invariant (fun c => c = .entered s ∨
      (∃ b error t, m.prepare b s = .error (error, t) ∧ c = .refused error t) ∨
      ∃ b r p q es', m.prepare b s = .ok (r, p) ∧ run (m.work r).step p es' = some q ∧
        c = .working r q) ?_ (.inl rfl) h
  rintro c e d (rfl | ⟨b, error, t, -, rfl⟩ | ⟨b, r, p, q, es', hb, hrun, rfl⟩) he
  · cases e with
    | prepare b =>
      simp only [Method.step] at he
      split at he
      case h_1 error t hb => exact .inr (.inl ⟨b, error, t, hb, (Option.some.inj he).symm⟩)
      case h_2 r p hb => exact .inr (.inr ⟨b, r, p, p, [], hb, rfl, (Option.some.inj he).symm⟩)
    | pool e => cases he
  · cases e <;> cases he
  · cases e with
    | prepare b => cases he
    | pool e =>
      obtain ⟨q', hq', rfl⟩ := Option.map_eq_some_iff.mp he
      exact .inr (.inr ⟨b, r, p, q', es' ++ [e], hb, run_concat.mpr ⟨q, hrun, hq'⟩, rfl⟩)

theorem working_run {r : ρ} {es : List (Call.Event β α)} {d : Call ρ ι κ ε σ}
    (h : run m.step (.working r p) es = some d) :
    ∃ q es', run (m.work r).step p es' = some q ∧ es'.length = es.length ∧ d = .working r q := by
  refine run_history (fun (es : List (Call.Event β α)) d =>
    ∃ q es', run (m.work r).step p es' = some q ∧ es'.length = es.length ∧ d = Call.working r q)
    ⟨p, [], rfl, rfl, rfl⟩ ?_ h
  rintro es c e d - ⟨q, es', hrun, hlen, rfl⟩ he
  cases e with
  | prepare b => cases he
  | pool e =>
    obtain ⟨q', hq', rfl⟩ := Option.map_eq_some_iff.mp he
    exact ⟨q', es' ++ [e], run_concat.mpr ⟨q, hrun, hq'⟩, by simp [hlen], rfl⟩

/-- A call with a dead worker raises. -/
theorem Pool.Orderly.raises {r : ρ} (ho : p.Orderly) (hf : p.Failed)
    (he : (m.work r).Ends cost) : m.Raises (.working r p) := by
  refine ⟨p.weight (m.work r) cost, fun es d hd => ?_⟩
  obtain ⟨q, es', hrun, hlen, rfl⟩ := working_run hd
  obtain ⟨hoq, hfq⟩ := run_invariant (fun q => q.Orderly ∧ q.Failed)
    (fun _ _ _ hr hs => ⟨(step_moves hs).orderly hr.1, (step_moves hs).failed hr.2⟩) ⟨ho, hf⟩ hrun
  have hno : ¬ q.Returned := hoq.failed hfq
  refine ⟨?_, hno, fun hstuck => ?_⟩
  · have hbound := run_length_le (Pool.weight (m.work r) cost)
      (fun _ _ _ hs => (step_moves hs).weight he) hrun
    omega
  · have hpool (e : Event α) : (m.work r).step q e = none := by
      simpa [Method.step] using hstuck (.pool e)
    rcases hoq.halts he hpool with hr | hret
    · exact hr
    · exact (hno hret).elim

/-- Where the threads are started in order and each stage comes to its end, a call with a failed
item raises. -/
theorem Method.raises (ho : ∀ b s r p, m.prepare b s = .ok (r, p) → p.Orderly)
    (he : ∀ r, (m.work r).Ends cost) {s : σ} {es : List (Call.Event β α)} {c : Call ρ ι κ ε σ}
    (h : run m.step (.entered s) es = some c) (hf : c.Failed) : m.Raises c := by
  obtain rfl | ⟨b, error, t, hb, rfl⟩ | ⟨b, r, p, q, es', hb, hrun, rfl⟩ := call_run h
  · exact hf.elim
  · exact hf.elim
  · have hq : q.Orderly := run_invariant Pool.Orderly
      (fun _ _ _ hr hs => (step_moves hs).orderly hr) (ho b s r p hb) hrun
    exact hq.raises hf (he r)

end LSU.WorkerPool
