import LSU.DisplayLock

/-! The statements of XOpenDisplay and XCloseDisplay, interleaved, simulate the pool whose
calls are one step each; no schedule deadlocks. -/
namespace LSU.DisplayLock
open LSU.Run LSU.DisplayPool LSU.Simulation
variable {H : Type*}

/-- How the machine stands for the atomic pool. -/
structure Sim (s : Machine H) (x : Shared Nat (Call H) (Result H) (State H)) : Prop where
  pool : x.1.pool = s.published
  live : x.1.live = s.live
  inv : Inv x.1
  owns : Owns s.client (flight x.2) x.1.held
  control : Control s x.2

variable {s s' : Machine H} {x : Shared Nat (Call H) (Result H) (State H)} {t : Nat} {pc : Pc H}

/-- A statement that changes neither what the pool stands for nor how far a call is. -/
theorem Sim.silent (h : Sim s x) (hpc : s'.pc = Function.update s.pc t pc)
    (hmutex : ∀ u, s'.mutex = some u ↔ if u = t then pc.inside = true else s.mutex = some u)
    (hpool : s'.pool = s.pool ∨ s.mutex = some t ∧ Keeps s.pool s'.pool)
    (hstands : Stands s'.pool (x.2 t) pc) (hpub : s'.published = s.published)
    (hlive : s'.live = s.live) (hclient : s'.client = s.client) : Sim s' x where
  pool := h.pool.trans hpub.symm
  live := h.live.trans hlive.symm
  inv := h.inv
  owns := by
    rw [hclient]
    exact h.owns
  control := by
    have hc := h.control.move hpc hmutex hpool hstands
    rwa [Function.update_eq_self] at hc

/-- A statement at which the call of thread `t` takes effect. -/
theorem Sim.point {y : State H} {f : Phase (Call H) (Result H)} (h : Sim s x)
    (hpc : s'.pc = Function.update s.pc t pc)
    (hmutex : ∀ u, s'.mutex = some u ↔ if u = t then pc.inside = true else s.mutex = some u)
    (hpool : s'.pool = s.pool ∨ s.mutex = some t ∧ Keeps s.pool s'.pool)
    (hstands : Stands s'.pool f pc) (hpub : y.pool = s'.published) (hlive : y.live = s'.live)
    (hinv : Inv y)
    (howns : Owns s'.client (Function.update (flight x.2) t (inFlight t f)) y.held) :
    Sim s' (y, Function.update x.2 t f) where
  pool := hpub
  live := hlive
  inv := hinv
  owns := by
    rw [flight_update]
    exact howns
  control := h.control.move hpc hmutex hpool hstands

theorem Sim.goto (h : Sim s x) (hin : pc.inside = (s.pc t).inside)
    (hpub : pc.publish s.pool = (s.pc t).publish s.pool) (hstands : Stands s.pool (x.2 t) pc) :
    Sim (s.goto t pc) x := by
  refine h.silent rfl (h.control.keep hin) (Or.inl rfl) hstands ?_ rfl rfl
  by_cases ht : s.mutex = some t
  · simp [Machine.published, Machine.goto, ht, hpub]
  · exact published_outside ht rfl rfl rfl

theorem Sim.lock (h : Sim s x) (hfree : s.mutex = none) (hin : pc.inside = true)
    (hpub : pc.publish s.pool = s.pool) (hstands : Stands s.pool (x.2 t) pc) :
    Sim ({ s with mutex := some t }.goto t pc) x := by
  refine h.silent rfl (mutex_lock hfree hin) (Or.inl rfl) hstands ?_ rfl rfl
  simp [Machine.published, Machine.goto, hfree, hpub]

theorem Sim.unlock (h : Sim s x) (ht : s.mutex = some t) (hin : pc.inside = false)
    (hpub : (s.pc t).publish s.pool = s.pool) (hstands : Stands s.pool (x.2 t) pc) :
    Sim ({ s with mutex := none }.goto t pc) x := by
  refine h.silent rfl (mutex_unlock ht hin) (Or.inl rfl) hstands ?_ rfl rfl
  simp [Machine.published, Machine.goto, ht, hpub]

theorem Sim.holds (h : Sim s x) (hin : (s.pc t).inside = true) : s.mutex = some t :=
  (h.control.mutex t).mp hin

/-- Where the holder of the mutex has not settled on a slot the pool is as it is written. -/
theorem Sim.pool_eq (h : Sim s x) (hin : (s.pc t).inside = true)
    (hpub : (s.pc t).publish s.pool = s.pool) : x.1.pool = s.pool := by
  rw [h.pool, published_inside (h.holds hin), hpub]

theorem flight_open {ph : Phases H} {name : Option String} (h : ph t = .called (.open name)) :
    flight ph t = none := by
  simp [flight, h, inFlight]

theorem flight_close {ph : Phases H} {g : Holding H} (h : ph t = .called (.close g)) :
    flight ph t = some g := by
  simp [flight, h, inFlight]

theorem Sim.held_flight {g : Holding H} (h : Sim s x) (hf : x.2 t = .called (.close g)) :
    g ∈ x.1.held :=
  (h.owns.held_iff g).mpr (Or.inr ⟨t, flight_close hf⟩)

theorem Sim.borrow {i : Slot} (h : Sim s x) (hpc : s.pc t = .openBorrow i) :
    Sim ({ s with pool := s.pool.borrow i }.goto t (.openUnlock (some i))) x := by
  have hf : Stands s.pool (x.2 t) (.openBorrow i) := hpc ▸ h.control.stands t
  have ht := h.holds (t := t) (by simp [hpc, Pc.inside])
  refine h.silent rfl (h.control.keep (by simp [hpc, Pc.inside]))
    (Or.inr ⟨ht, keeps_borrow s.pool i⟩) ⟨hf, ?_⟩ ?_ rfl rfl
  · intro j hj _
    cases hj
    simp [Machine.goto, Pool.borrow]
  · simp [Machine.published, Machine.goto, ht, hpc, Pc.publish]

/-- The loop has not found the display: it was opened by name. -/
theorem Sim.closeMiss {g : Holding H} {i : Nat} (h : Sim s x) (hpc : s.pc t = .closeLoop g i)
    (hi : ¬ i < displayPoolSize) : Sim (s.goto t (.closeUnlock g false)) x := by
  obtain ⟨hf, hbefore⟩ : Stands s.pool (x.2 t) (.closeLoop g i) := hpc ▸ h.control.stands t
  have hin : (s.pc t).inside = true := by simp [hpc, Pc.inside]
  have hpool := h.pool_eq hin (by simp [hpc, Pc.publish])
  refine h.goto (by simp [hpc, Pc.inside]) (by simp [hpc, Pc.publish]) ⟨hf, fun hnone => ?_⟩
  obtain ⟨j, hj, _⟩ := h.inv.pooled g (h.held_flight hf) hnone
  have hj50 := j.isLt
  exact hbefore j (by omega) (by rw [← hpool]; exact hj)

variable [DecidableEq H]

/-- The atomic pool can follow. -/
def Follows (x : Shared Nat (Call H) (Result H) (State H)) (e : Act H) (s' : Machine H) : Prop :=
  ∃ ms y, run (atomicStep poolObject) x ms = some y ∧
    trace Mark.seen ms = trace Act.seen [e] ∧ Sim s' y

theorem follows_silent {answer : Answer H} (h : Sim s' x) : Follows x (.tick t answer) s' :=
  ⟨[], x, rfl, rfl, h⟩

theorem follows_point {c : Call H} {answer : Answer H} {y : State H}
    (hf : x.2 t = .called c)
    (hstep : DisplayPool.step x.1 (poolObject.event t c answer) = some y)
    (h : Sim s' (y, Function.update x.2 t (.done c (poolObject.result x.1 c answer)))) :
    Follows x (.tick t answer) s' := by
  refine ⟨[.point t answer], _, run_cons.mpr ⟨_, atomicStep_point hf hstep, rfl⟩, rfl, h⟩

theorem Sim.follows {c : Call H} {answer : Answer H} {y : State H} {r : Result H} (h : Sim s x)
    (hf : x.2 t = .called c)
    (hstep : DisplayPool.step x.1 (poolObject.event t c answer) = some y)
    (hresult : poolObject.result x.1 c answer = r) (hpc : s'.pc = Function.update s.pc t pc)
    (hmutex : ∀ u, s'.mutex = some u ↔ if u = t then pc.inside = true else s.mutex = some u)
    (hpool : s'.pool = s.pool ∨ s.mutex = some t ∧ Keeps s.pool s'.pool)
    (hstands : Stands s'.pool (.done c r) pc) (hpub : y.pool = s'.published)
    (hlive : y.live = s'.live)
    (howns : Owns s'.client (Function.update (flight x.2) t (inFlight t (.done c r))) y.held) :
    Follows x (.tick t answer) s' := by
  subst hresult
  exact follows_point hf hstep
    (h.point hpc hmutex hpool hstands hpub hlive (inv_step h.inv hstep) howns)

/-- The loop finds a display nobody has borrowed. -/
theorem follows_lend {i : Slot} {d : H} (h : Sim s x) (hpc : s.pc t = .openLoop i.val)
    (hb : s.pool.borrowed i = false) (hd : s.pool.displays i = some d) (answer : Answer H) :
    Follows x (.tick t answer) (s.goto t (.openBorrow i)) := by
  obtain ⟨hf, hbefore⟩ : Stands s.pool (x.2 t) (.openLoop i.val) := hpc ▸ h.control.stands t
  have hin : (s.pc t).inside = true := by simp [hpc, Pc.inside]
  have hpool := h.pool_eq hin (by simp [hpc, Pc.publish])
  have hfree : freeSlot x.1.pool = some i := by
    rw [hpool]
    exact freeSlot_eq hb hbefore
  have hd' : x.1.pool.displays i = some d := by rw [hpool]; exact hd
  have hnew : (⟨t, none, d⟩ : Holding H) ∉ x.1.held := fun hg =>
    h.inv.idle_not_held (freeSlot_some hfree) hd' (List.mem_map.mpr ⟨_, hg, rfl⟩)
  refine h.follows (r := .display (some d)) hf (step_lend hfree hd' t answer.display) ?_ rfl
    (h.control.keep (by simp [hpc, Pc.inside])) (Or.inl rfl) ?_ ?_ h.live ?_
  · simp [poolObject, xOpenDisplayImpl, hfree, hd']
  · simp [Stands, Machine.goto, hd]
  · simp [Machine.published, Machine.goto, h.holds hin, Pc.publish, hpool]
  · exact h.owns.take (flight_open hf) hnew

/-- The loop finds every slot borrowed. -/
theorem follows_refuse {i : Nat} (h : Sim s x) (hpc : s.pc t = .openLoop i)
    (hi : ¬ i < displayPoolSize) (answer : Answer H) :
    Follows x (.tick t answer) (s.goto t (.openUnlock none)) := by
  obtain ⟨hf, hbefore⟩ : Stands s.pool (x.2 t) (.openLoop i) := hpc ▸ h.control.stands t
  have hin : (s.pc t).inside = true := by simp [hpc, Pc.inside]
  have hpool := h.pool_eq hin (by simp [hpc, Pc.publish])
  have hfull : freeSlot x.1.pool = none := by
    cases hk : freeSlot x.1.pool with
    | none => rfl
    | some k =>
      have hfree := freeSlot_some hk
      have hk50 := k.isLt
      have hb := hbefore k (by omega)
      simp [hpool, hb] at hfree
  refine h.follows (r := .display none) hf (step_refuse hfull t answer.display) ?_ rfl
    (h.control.keep (by simp [hpc, Pc.inside])) (Or.inl rfl) ?_ ?_ h.live ?_
  · simp [poolObject, xOpenDisplayImpl, hfull]
  · simp [Stands]
  · simp [Machine.published, Machine.goto, h.holds hin, Pc.publish, hpool]
  · exact h.owns.keep (flight_open hf)

/-- The original library is asked for the display of an empty slot. -/
theorem follows_ask {i : Slot} {answer : Answer H} (h : Sim s x) (hpc : s.pc t = .openAsk i)
    (hfresh : ∀ d, answer.display = some d → d ∉ s.live) :
    Follows x (.tick t answer) ({ s with
        pool := ⟨Function.update s.pool.displays i answer.display, s.pool.borrowed⟩
        live := answer.display.elim s.live (insert · s.live) }.goto t (.openBorrow i)) := by
  obtain ⟨hf, hfree, hnone⟩ : Stands s.pool (x.2 t) (.openAsk i) := hpc ▸ h.control.stands t
  have hin : (s.pc t).inside = true := by simp [hpc, Pc.inside]
  have hpool := h.pool_eq hin (by simp [hpc, Pc.publish])
  rw [← hpool] at hfree hnone
  rw [← h.live] at hfresh
  refine h.follows (r := .display answer.display) hf (step_ask hfree hnone hfresh t) ?_ rfl
    (h.control.keep (by simp [hpc, Pc.inside])) (Or.inr ⟨h.holds hin, ?_⟩) ?_ ?_ ?_ ?_
  · simp [poolObject, xOpenDisplayImpl, hfree, hnone]
  · rw [← hpool]
    exact keeps_ask hnone (freeSlot_some hfree) answer.display
  · simp [Stands, Machine.goto]
  · simp [Machine.published, Machine.goto, h.holds hin, Pc.publish, hpool]
  · rw [h.live]
    rfl
  · cases hd : answer.display with
    | none => exact h.owns.keep (flight_open hf)
    | some d =>
      exact h.owns.take (flight_open hf) fun hg =>
        h.inv.fresh_not_held (hfresh d hd) (List.mem_map.mpr ⟨_, hg, rfl⟩)

/-- A display is opened by its name, outside the mutex. -/
theorem follows_named {name : String} {answer : Answer H} (h : Sim s x)
    (hpc : s.pc t = .namedAsk name) (hfresh : ∀ d, answer.display = some d → d ∉ s.live) :
    Follows x (.tick t answer) ({ s with
        live := answer.display.elim s.live (insert · s.live) }.goto t
      (.namedReturn name answer.display)) := by
  have hf : Stands s.pool (x.2 t) (.namedAsk name) := hpc ▸ h.control.stands t
  rw [← h.live] at hfresh
  have hout : s.mutex ≠ some t := fun ht => by
    simpa [hpc, Pc.inside] using (h.control.mutex t).mpr ht
  refine h.follows (r := .display answer.display) hf (step_named hfresh t name) ?_ rfl
    (h.control.keep (by simp [hpc, Pc.inside])) (Or.inl rfl) rfl ?_ ?_ ?_
  · simp [poolObject, xOpenDisplayImpl]
  · rw [h.pool]
    exact Eq.symm (published_outside hout rfl rfl rfl)
  · rw [h.live]
    rfl
  · cases hd : answer.display with
    | none => exact h.owns.keep (flight_open hf)
    | some d =>
      exact h.owns.take (flight_open hf) fun hg =>
        h.inv.fresh_not_held (hfresh d hd) (List.mem_map.mpr ⟨_, hg, rfl⟩)

theorem step_close {y : State H} {g : Holding H} {pool : Pool H} {passed : Bool}
    (hg : g ∈ y.held) (hc : xCloseDisplay (some g.handle) y.pool = (pool, passed)) :
    DisplayPool.step y (.close g) =
      some ⟨pool, if passed then y.live.erase g.handle else y.live, y.held.erase g⟩ := by
  simp [DisplayPool.step, hg, hc]

/-- The loop finds the display to be closed in the pool. -/
theorem follows_giveBack {g : Holding H} {i : Slot} (h : Sim s x)
    (hpc : s.pc t = .closeLoop g i.val) (hd : s.pool.displays i = some g.handle)
    (answer : Answer H) :
    Follows x (.tick t answer)
      ({ s with pool := s.pool.giveBack i }.goto t (.closeUnlock g true)) := by
  obtain ⟨hf, _⟩ : Stands s.pool (x.2 t) (.closeLoop g i.val) := hpc ▸ h.control.stands t
  have hin : (s.pc t).inside = true := by simp [hpc, Pc.inside]
  have hpool := h.pool_eq hin (by simp [hpc, Pc.publish])
  have hclose := xCloseDisplay_pooled h.inv (h := g) (i := i) (by rw [hpool]; exact hd)
  refine h.follows (r := .status 0) hf (step_close (h.held_flight hf) hclose) ?_ rfl
    (h.control.keep (by simp [hpc, Pc.inside])) (Or.inr ⟨h.holds hin, keeps_giveBack hd⟩) rfl
    ?_ h.live ?_
  · simp [poolObject, hclose]
  · simp [Machine.published, Machine.goto, h.holds hin, Pc.publish, hpool]
  · exact h.owns.drop (flight_close hf) (List.Nodup.of_map Holding.handle h.inv.heldNodup)

/-- A display the pool does not have goes to the original library, outside the mutex. -/
theorem follows_close {g : Holding H} (h : Sim s x) (hpc : s.pc t = .closeOriginal g)
    (answer : Answer H) :
    Follows x (.tick t answer)
      ({ s with live := s.live.erase g.handle }.goto t (.closeReturn g answer.status)) := by
  obtain ⟨hf, hname⟩ : Stands s.pool (x.2 t) (.closeOriginal g) := hpc ▸ h.control.stands t
  have hout : s.mutex ≠ some t := fun ht => by
    simpa [hpc, Pc.inside] using (h.control.mutex t).mpr ht
  have hclose := xCloseDisplay_other (h := g) (h.inv.named g (h.held_flight hf) hname)
  refine h.follows (r := .status answer.status) hf (step_close (h.held_flight hf) hclose) ?_ rfl
    (h.control.keep (by simp [hpc, Pc.inside])) (Or.inl rfl) rfl ?_ ?_ ?_
  · simp [poolObject, hclose]
  · rw [h.pool]
    exact Eq.symm (published_outside hout rfl rfl rfl)
  · rw [h.live]
    rfl
  · exact h.owns.drop (flight_close hf) (List.Nodup.of_map Holding.handle h.inv.heldNodup)

/-- Every statement of a thread. -/
theorem follows_tick {answer : Answer H} (h : Sim s x) (hstep : tick s t answer = some s') :
    Follows x (.tick t answer) s' := by
  have hst := h.control.stands t
  cases hpc : s.pc t with
  | idle | openReturn | namedReturn | closeReturn => simp [tick, hpc] at hstep
  | openLock =>
    simp only [tick, hpc, Option.ite_none_right_eq_some, Option.some.injEq] at hstep
    obtain ⟨hfree, rfl⟩ := hstep
    rw [hpc] at hst
    exact follows_silent (h.lock hfree rfl rfl ⟨hst, fun j hj => absurd hj (Nat.not_lt_zero _)⟩)
  | closeLock g =>
    simp only [tick, hpc, Option.ite_none_right_eq_some, Option.some.injEq] at hstep
    obtain ⟨hfree, rfl⟩ := hstep
    rw [hpc] at hst
    exact follows_silent (h.lock hfree rfl rfl ⟨hst, fun j hj => absurd hj (Nat.not_lt_zero _)⟩)
  | openLoop i =>
    rw [hpc] at hst
    obtain ⟨hf, hbefore⟩ := hst
    simp only [tick, hpc] at hstep
    split at hstep
    · rename_i hi
      split at hstep
      · cases hstep
        refine follows_silent (h.goto (by simp [hpc, Pc.inside]) (by simp [hpc, Pc.publish])
          ⟨hf, fun j hj => ?_⟩)
        obtain hlt | heq := Nat.lt_succ_iff_lt_or_eq.mp hj
        · exact hbefore j hlt
        · obtain rfl : j = ⟨i, hi⟩ := Fin.ext heq
          assumption
      · rename_i hb
        have hb : s.pool.borrowed ⟨i, hi⟩ = false := by simpa using hb
        split at hstep
        · cases hstep
          refine follows_silent (h.goto (by simp [hpc, Pc.inside]) (by simp [hpc, Pc.publish])
            ⟨hf, freeSlot_eq hb hbefore, Option.isNone_iff_eq_none.mp ‹_›⟩)
        · rename_i hd
          cases hstep
          obtain ⟨d, hd⟩ := Option.ne_none_iff_exists'.mp (by simpa using hd)
          exact follows_lend (i := ⟨i, hi⟩) h hpc hb hd answer
    · cases hstep
      exact follows_refuse h hpc ‹_› answer
  | openAsk i =>
    simp only [tick, hpc, Option.ite_none_right_eq_some, Option.some.injEq] at hstep
    obtain ⟨hfresh, rfl⟩ := hstep
    exact follows_ask h hpc hfresh
  | openBorrow i =>
    simp only [tick, hpc, Option.some.injEq] at hstep
    subst hstep
    exact follows_silent (h.borrow hpc)
  | openUnlock i =>
    simp only [tick, hpc, Option.some.injEq] at hstep
    subst hstep
    rw [hpc] at hst
    exact follows_silent (h.unlock (h.holds (by simp [hpc, Pc.inside])) rfl
      (by simp [hpc, Pc.publish]) hst)
  | namedAsk name =>
    simp only [tick, hpc, Option.ite_none_right_eq_some, Option.some.injEq] at hstep
    obtain ⟨hfresh, rfl⟩ := hstep
    exact follows_named h hpc hfresh
  | closeLoop g i =>
    rw [hpc] at hst
    obtain ⟨hf, hbefore⟩ := hst
    simp only [tick, hpc] at hstep
    split at hstep
    · rename_i hi
      split at hstep
      · cases hstep
        exact follows_giveBack (i := ⟨i, hi⟩) h hpc ‹_› answer
      · cases hstep
        refine follows_silent (h.goto (by simp [hpc, Pc.inside]) (by simp [hpc, Pc.publish])
          ⟨hf, fun j hj => ?_⟩)
        obtain hlt | heq := Nat.lt_succ_iff_lt_or_eq.mp hj
        · exact hbefore j hlt
        · obtain rfl : j = ⟨i, hi⟩ := Fin.ext heq
          assumption
    · cases hstep
      exact follows_silent (h.closeMiss hpc ‹_›)
  | closeUnlock g found =>
    simp only [tick, hpc, Option.some.injEq] at hstep
    subst hstep
    rw [hpc] at hst
    refine follows_silent (h.unlock (h.holds (by simp [hpc, Pc.inside])) ?_
      (by simp [hpc, Pc.publish]) ?_)
    · cases found <;> rfl
    · cases found <;> exact hst
  | closeOriginal g =>
    simp only [tick, hpc, Option.some.injEq] at hstep
    subst hstep
    exact follows_close h hpc answer

theorem follows_call {c : Call H} (h : Sim s x) (hstep : step s (.call t c) = some s') :
    Follows x (.call t c) s' := by
  cases hpc : s.pc t with
  | idle =>
    have hidle : x.2 t = .idle := by simpa [hpc, Stands] using h.control.stands t
    have hout : s.mutex ≠ some t := fun ht => by
      simpa [hpc, Pc.inside] using (h.control.mutex t).mpr ht
    have hnone : flight x.2 t = none := by simp [flight, hidle, inFlight]
    refine ⟨[.call t c], _, run_cons.mpr ⟨_, atomicStep_call hidle c, rfl⟩, rfl, ?_⟩
    cases c with
    | «open» displayName =>
      cases displayName with
      | none =>
        simp only [step, hpc, Option.some.injEq] at hstep
        subst hstep
        exact h.point rfl (h.control.keep (by simp [hpc, Pc.inside])) (Or.inl rfl) rfl
          (h.pool.trans (Eq.symm (published_outside hout rfl rfl rfl))) h.live h.inv
          (h.owns.keep hnone)
      | some name =>
        simp only [step, hpc, Option.some.injEq] at hstep
        subst hstep
        exact h.point rfl (h.control.keep (by simp [hpc, Pc.inside])) (Or.inl rfl) rfl
          (h.pool.trans (Eq.symm (published_outside hout rfl rfl rfl))) h.live h.inv
          (h.owns.keep hnone)
    | close g =>
      simp only [step, hpc, Option.ite_none_right_eq_some, Option.some.injEq] at hstep
      obtain ⟨hg, rfl⟩ := hstep
      exact h.point rfl (h.control.keep (by simp [hpc, Pc.inside])) (Or.inl rfl) rfl
        (h.pool.trans (Eq.symm (published_outside hout rfl rfl rfl))) h.live h.inv
        (h.owns.pass hnone (by simpa using hg))
  | _ => simp [step, hpc] at hstep

theorem follows_ret {res : Result H} (h : Sim s x) (hstep : step s (.ret t res) = some s') :
    Follows x (.ret t res) s' := by
  simp only [step] at hstep
  split at hstep
  · rename_i r hr
    simp only [Option.ite_none_right_eq_some, Option.some.injEq] at hstep
    obtain ⟨rfl, rfl⟩ := hstep
    obtain ⟨c, hf, hgrant⟩ := (h.control.stands t).returned hr t
    have hout : (s.pc t).inside = false := outside_of_returned hr
    have hmutex : s.mutex ≠ some t := fun ht => by
      simpa [hout] using (h.control.mutex t).mpr ht
    refine ⟨[.ret t r], _, run_cons.mpr ⟨_, atomicStep_ret hf, rfl⟩, rfl, ?_⟩
    refine h.point rfl (h.control.keep hout.symm) (Or.inl rfl) rfl
      (h.pool.trans (Eq.symm (published_outside hmutex rfl rfl rfl))) h.live h.inv ?_
    rw [hgrant]
    exact h.owns.hand
  · cases hstep

theorem forward : Forward (step (H := H)) Act.seen (atomicStep poolObject) Mark.seen Sim := by
  intro s x e s' h hstep
  cases e with
  | call t c => exact follows_call h hstep
  | tick t answer => exact follows_tick h hstep
  | ret t res => exact follows_ret h hstep

omit [DecidableEq H] in
theorem sim_boot : Sim (boot : Machine H) (DisplayPool.start, fun _ => .idle) where
  pool := rfl
  live := rfl
  inv := inv_start
  owns :=
    { held_iff := by simp [boot, DisplayPool.start, flight, inFlight]
      nodup := by simp [boot]
      apart := by simp [boot]
      single := by simp [flight, inFlight] }
  control :=
    { mutex := by simp [boot, Pc.inside]
      stands := fun _ => rfl }

/-- Whatever the schedule and the answers of the original library, the calls and the returns
of all threads are those of a pool whose calls take effect one at a time. -/
theorem linearizable (es : List (Act H)) (s : Machine H) (hrun : run step boot es = some s) :
    Linearizable poolObject DisplayPool.start (trace Act.seen es) := by
  obtain ⟨ms, y, hms, htrace, _⟩ := forward.run sim_boot hrun
  exact ⟨ms, y, hms, htrace⟩

/-- Thread 2 comes to the lock while thread 1 is asking the original library, and thread 1
reads its slot when thread 2 has the mutex. -/
def overlap : List (Act Nat) :=
  [.call 1 (.open none), .call 2 (.open none), .tick 1 ⟨none, 0⟩, .tick 1 ⟨none, 0⟩,
    .tick 1 ⟨some 7, 0⟩, .tick 1 ⟨none, 0⟩, .tick 1 ⟨none, 0⟩, .tick 2 ⟨none, 0⟩,
    .tick 2 ⟨none, 0⟩, .ret 1 (.display (some 7)), .call 1 (.close ⟨1, none, 7⟩)]

theorem linearizable_overlap :
    Linearizable poolObject (DisplayPool.start : State Nat)
      [.call 1 (.open none), .call 2 (.open none), .ret 1 (.display (some 7)),
        .call 1 (.close ⟨1, none, 7⟩)] :=
  linearizable overlap _ rfl

omit [DecidableEq H] in
theorem Sim.handles_nodup (h : Sim s x) : (s.client.map Holding.handle).Nodup := by
  refine h.owns.nodup.map_on fun g hg k hk heq => ?_
  have hg' := (h.owns.held_iff g).mpr (Or.inl hg)
  have hk' := (h.owns.held_iff k).mpr (Or.inl hk)
  exact List.inj_on_of_nodup_map h.inv.heldNodup hg' hk' heq

/-- At every moment the arrays are those of a pool of one-step calls. No two clients have one
display, every display a client has is open in the original library, and no two threads are
between lock and unlock. -/
theorem machine_refines_pool (es : List (Act H)) (s : Machine H)
    (hrun : run step boot es = some s) :
    (∃ ds x, run DisplayPool.step DisplayPool.start ds = some x ∧ x.pool = s.published ∧
      x.live = s.live ∧ ∀ g ∈ s.client, g ∈ x.held) ∧
    (s.client.map Holding.handle).Nodup ∧ (∀ g ∈ s.client, g.handle ∈ s.live) ∧
    ∀ t u, (s.pc t).inside = true → (s.pc u).inside = true → t = u := by
  obtain ⟨ms, y, hms, _, h⟩ := forward.run sim_boot hrun
  obtain ⟨ds, hds⟩ := run_points hms
  have hheld : ∀ g ∈ s.client, g ∈ y.1.held := fun g hg => (h.owns.held_iff g).mpr (Or.inl hg)
  refine ⟨⟨ds, y.1, hds, h.pool, h.live, hheld⟩, h.handles_nodup, ?_, ?_⟩
  · intro g hg
    rw [← h.live]
    exact h.inv.heldLive g (hheld g hg)
  · intro t u ht hu
    exact Option.some.inj ((h.holds ht).symm.trans (h.holds hu))

theorem machine_refines_pool_overlap :
    ∃ s, run step boot overlap = some s ∧ ∃ ds x,
      run DisplayPool.step DisplayPool.start ds = some x ∧ x.pool = s.published := by
  refine ⟨_, rfl, ?_⟩
  obtain ⟨⟨ds, x, hds, hpool, _⟩, _⟩ := machine_refines_pool overlap _ rfl
  exact ⟨ds, x, hds, hpool⟩

/-- Statements a thread has left before its call returns, if it never has to wait. -/
def Pc.left : Pc H → Nat
  | .idle => 0
  | .openReturn _ | .namedReturn _ _ | .closeReturn _ _ => 1
  | .openUnlock _ | .namedAsk _ | .closeOriginal _ => 2
  | .openBorrow _ | .closeUnlock _ _ => 3
  | .openAsk _ => 4
  | .openLoop i | .closeLoop _ i => 5 + (displayPoolSize - i)
  | .openLock | .closeLock _ => 6 + displayPoolSize

/-- At pthread_mutex_lock. -/
def Pc.waits : Pc H → Bool
  | .openLock | .closeLock _ => true
  | _ => false

omit [DecidableEq H] in
theorem left_le (pc : Pc H) : pc.left ≤ 6 + displayPoolSize := by
  cases pc <;> simp only [Pc.left, displayPoolSize] <;> omega

omit [DecidableEq H] in
theorem left_of_waits {pc : Pc H} (h : pc.waits = true) : pc.left = 6 + displayPoolSize := by
  cases pc with
  | openLock | closeLock => rfl
  | _ => cases h

omit [DecidableEq H] in
theorem outside_of_waits {pc : Pc H} (h : pc.inside = true) : pc.waits = false := by
  cases pc <;> first | rfl | cases h

omit [DecidableEq H] in
theorem left_goto {m s : Machine H} {pc : Pc H} (hm : m.pc = s.pc)
    (hless : pc.left < (s.pc t).left) :
    ((m.goto t pc).pc t).left < (s.pc t).left ∧ ∀ u, u ≠ t → (m.goto t pc).pc u = s.pc u := by
  refine ⟨by simpa [Machine.goto] using hless, ?_⟩
  intro u hu
  simp [Machine.goto, hu, hm]

theorem tick_left {answer : Answer H} (h : tick s t answer = some s') :
    (s'.pc t).left < (s.pc t).left ∧ ∀ u, u ≠ t → s'.pc u = s.pc u := by
  cases hpc : s.pc t with
  | idle | openReturn | namedReturn | closeReturn => simp [tick, hpc] at h
  | openLoop i =>
    simp only [tick, hpc] at h
    split at h
    · rw [← hpc]
      split at h
      · cases h
        exact left_goto rfl (by simp only [hpc, Pc.left]; omega)
      · split at h <;> cases h
        · exact left_goto rfl (by simp only [hpc, Pc.left]; omega)
        · exact left_goto rfl (by simp only [hpc, Pc.left]; omega)
    · cases h
      exact hpc ▸ left_goto rfl (by simp only [hpc, Pc.left]; omega)
  | closeLoop g i =>
    simp only [tick, hpc] at h
    split at h
    · rw [← hpc]
      split at h <;> cases h
      · exact left_goto rfl (by simp only [hpc, Pc.left]; omega)
      · exact left_goto rfl (by simp only [hpc, Pc.left]; omega)
    · cases h
      exact hpc ▸ left_goto rfl (by simp only [hpc, Pc.left]; omega)
  | closeUnlock g found =>
    simp only [tick, hpc, Option.some.injEq] at h
    subst h
    exact hpc ▸ left_goto rfl (by cases found <;> simp [hpc, Pc.left])
  | openBorrow | openUnlock | closeOriginal =>
    simp only [tick, hpc, Option.some.injEq] at h
    subst h
    exact hpc ▸ left_goto rfl (by simp [hpc, Pc.left])
  | openLock | closeLock | openAsk | namedAsk =>
    simp only [tick, hpc, Option.ite_none_right_eq_some, Option.some.injEq] at h
    obtain ⟨_, rfl⟩ := h
    exact hpc ▸ left_goto rfl (by simp [hpc, Pc.left])

/-- A thread in a call that does not wait for the mutex executes its next statement. -/
theorem advances (hcall : s.pc t ≠ .idle) (hready : (s.pc t).waits = true → s.mutex = none) :
    ∃ e s', step s e = some s' ∧ e.thread = t ∧ (s'.pc t).left < (s.pc t).left ∧
      ∀ u, u ≠ t → s'.pc u = s.pc u := by
  cases hret : returned s.pool (s.pc t) with
  | some res =>
    refine ⟨.ret t res, _, by simp only [step, hret, if_true]; rfl, rfl, ?_⟩
    refine left_goto rfl ?_
    cases hpc : s.pc t with
    | openReturn | namedReturn | closeReturn => simp [Pc.left]
    | _ => simp [hpc, returned] at hret
  | none =>
    -- the original library may always answer NULL
    cases htick : tick s t ⟨none, 0⟩ with
    | some s' => exact ⟨.tick t ⟨none, 0⟩, s', htick, rfl, tick_left htick⟩
    | none =>
      cases hpc : s.pc t with
      | idle => exact absurd hpc hcall
      | openReturn | namedReturn | closeReturn => simp [hpc, returned] at hret
      | openLock | closeLock => simp [tick, hpc, hready (by simp [hpc, Pc.waits])] at htick
      | openLoop i =>
        simp only [tick, hpc] at htick
        split at htick
        · split at htick
          · cases htick
          · split at htick <;> cases htick
        · cases htick
      | closeLoop g i =>
        simp only [tick, hpc] at htick
        split at htick
        · split at htick <;> cases htick
        · cases htick
      | _ => simp [tick, hpc] at htick

theorem control_of_run {es : List (Act H)} (hrun : run step boot es = some s) :
    ∀ u, (s.pc u).inside = true ↔ s.mutex = some u := by
  obtain ⟨_, _, _, _, h⟩ := forward.run sim_boot hrun
  exact h.control.mutex

/-- A thread that has no need of the mutex, or finds it free, is brought to its return. -/
theorem returns_of_ready (n : Nat) {us : List (Act H)} {s : Machine H}
    (hrun : run step boot us = some s) (hn : (s.pc t).left ≤ n)
    (hready : (s.pc t).waits = true → s.mutex = none) :
    ∃ es s', run step s es = some s' ∧ es.length ≤ n ∧ (∀ a ∈ es, a.thread = t) ∧
      s'.pc t = .idle ∧ ∀ u, u ≠ t → s'.pc u = s.pc u := by
  induction n generalizing us s with
  | zero =>
    have hidle : s.pc t = .idle := by
      cases hpc : s.pc t with
      | idle => rfl
      | _ => simp [hpc, Pc.left] at hn
    exact ⟨[], s, rfl, Nat.le_refl 0, nofun, hidle, fun _ _ => rfl⟩
  | succ n ih =>
    by_cases hidle : s.pc t = .idle
    · exact ⟨[], s, rfl, Nat.zero_le _, nofun, hidle, fun _ _ => rfl⟩
    · obtain ⟨e, r, he, hthread, hless, hframe⟩ := advances hidle hready
      have hrun' : run step boot (us ++ [e]) = some r := run_concat.mpr ⟨s, hrun, he⟩
      -- only a thread that has just called stands at the lock
      have hlock : (r.pc t).waits = true → r.mutex = none := by
        intro hw
        have hmax := left_of_waits hw
        have hle := left_le (s.pc t)
        omega
      obtain ⟨es, s', hes, hlen, hown, hdone, hrest⟩ := ih hrun' (by omega) hlock
      refine ⟨e :: es, s', run_cons.mpr ⟨r, he, hes⟩, by simpa using hlen,
        List.forall_mem_cons.mpr ⟨hthread, hown⟩, hdone, ?_⟩
      intro u hu
      rw [hrest u hu, hframe u hu]

/-- No schedule leads to a deadlock: whatever has happened, a call in progress is brought to
its return by statements of its own thread and of the one that has the mutex, and these are
at most twice as many as a call has. -/
theorem call_can_return (es : List (Act H)) (s : Machine H) (hrun : run step boot es = some s)
    (t : Nat) :
    ∃ us s', run step s us = some s' ∧ us.length ≤ 2 * (6 + displayPoolSize) ∧
      (∀ a ∈ us, a.thread = t ∨ s.mutex = some a.thread) ∧ s'.pc t = .idle := by
  by_cases hready : (s.pc t).waits = true → s.mutex = none
  · obtain ⟨us, s', hus, hlen, hown, hdone, _⟩ :=
      returns_of_ready (6 + displayPoolSize) hrun (left_le _) hready
    exact ⟨us, s', hus, by omega, fun a ha => Or.inl (hown a ha), hdone⟩
  · push Not at hready
    obtain ⟨hwait, hheld⟩ := hready
    obtain ⟨u, hu⟩ := Option.ne_none_iff_exists'.mp hheld
    have hin := (control_of_run hrun u).mpr hu
    obtain ⟨us, r, hus, hlen, hholder, hdone, hframe⟩ :=
      returns_of_ready (t := u) (6 + displayPoolSize) hrun (left_le _)
        (by simp [outside_of_waits hin])
    have hrun' : run step boot (es ++ us) = some r := by
      rw [run_append, hrun]
      exact hus
    have hfree : r.mutex = none := by
      by_contra hsome
      obtain ⟨v, hv⟩ := Option.ne_none_iff_exists'.mp hsome
      have hvin := (control_of_run hrun' v).mpr hv
      by_cases hvu : v = u
      · simp [hvu, hdone, Pc.inside] at hvin
      · rw [hframe v hvu] at hvin
        have hvs := (control_of_run hrun v).mp hvin
        exact hvu (Option.some.inj (hvs.symm.trans hu))
    obtain ⟨ws, s', hws, hlen', hown, hdone', _⟩ :=
      returns_of_ready (t := t) (6 + displayPoolSize) hrun' (left_le _) (fun _ => hfree)
    refine ⟨us ++ ws, s', ?_, by simp only [List.length_append]; omega, ?_, hdone'⟩
    · rw [run_append, hus]
      exact hws
    · intro a ha
      obtain ha | ha := List.mem_append.mp ha
      · exact Or.inr (by rw [hu, hholder a ha])
      · exact Or.inl (hown a ha)

theorem call_can_return_overlap :
    ∃ s, run step boot overlap = some s ∧ ∃ us s', run step s us = some s' ∧
      (∀ a ∈ us, a.thread = 1 ∨ s.mutex = some a.thread) ∧ s'.pc 1 = .idle := by
  refine ⟨_, rfl, ?_⟩
  obtain ⟨us, s', hus, _, hthreads, hdone⟩ := call_can_return overlap _ rfl 1
  exact ⟨us, s', hus, hthreads, hdone⟩

end LSU.DisplayLock
