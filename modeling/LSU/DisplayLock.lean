import LSU.DisplayPool
import LSU.Simulation

/-! XOpenDisplay and XCloseDisplay of steamfix.c statement by statement, under any
interleaving of the threads: the mutex, the two loops over the arrays, the calls of the
original library inside and outside the mutex, and the read of displays[i] after the
unlock. Whatever the schedule, the threads see what the pool of one-step calls can do. -/
namespace LSU.DisplayLock
open LSU.Run LSU.DisplayPool LSU.Simulation
variable {H : Type*}

/-- A call of the library, by the thread it is made in. -/
inductive Call (H : Type*) where
  | open (displayName : Option String)
  | close (holding : Holding H)
deriving DecidableEq

inductive Result (H : Type*) where
  | display (display : Option H)
  | status (status : Int)
deriving DecidableEq

/-- What the original XOpenDisplay or the original XCloseDisplay answers. -/
structure Answer (H : Type*) where
  display : Option H
  status : Int

/-- The next statement of a thread. A loop is at its head with the index it tries next;
`openReturn` reads displays[i] when the mutex is free again. -/
inductive Pc (H : Type*) where
  | idle
  | openLock
  | openLoop (i : Nat)
  | openAsk (i : Slot)
  | openBorrow (i : Slot)
  | openUnlock (i : Option Slot)
  | openReturn (i : Option Slot)
  | namedAsk (name : String)
  | namedReturn (name : String) (display : Option H)
  | closeLock (h : Holding H)
  | closeLoop (h : Holding H) (i : Nat)
  | closeUnlock (h : Holding H) (found : Bool)
  | closeOriginal (h : Holding H)
  | closeReturn (h : Holding H) (status : Int)

/-- `mutex` is the thread that has display_pool_mutex, `client` the displays returned to
their callers and not yet passed to XCloseDisplay. -/
structure Machine (H : Type*) where
  pool : Pool H
  mutex : Option Nat
  live : Finset H
  client : List (Holding H)
  pc : Nat → Pc H

def boot : Machine H := ⟨⟨fun _ => none, fun _ => false⟩, none, ∅, [], fun _ => .idle⟩

inductive Act (H : Type*) where
  | call (thread : Nat) (call : Call H)
  | tick (thread : Nat) (answer : Answer H)
  | ret (thread : Nat) (result : Result H)

def Machine.goto (s : Machine H) (t : Nat) (pc : Pc H) : Machine H :=
  { s with pc := Function.update s.pc t pc }

/-- What the call returns, by the statement its thread has come to. -/
def returned (p : Pool H) : Pc H → Option (Result H)
  | .openReturn i => some (.display (i.bind p.displays))
  | .namedReturn _ display => some (.display display)
  | .closeReturn _ status => some (.status status)
  | _ => none

/-- The display the client gets with a return. -/
def granted (t : Nat) : Pc H → Result H → Option (Holding H)
  | .openReturn _, .display d => d.map (Holding.mk t none)
  | .namedReturn name _, .display d => d.map (Holding.mk t (some name))
  | _, _ => none

section Steps
variable [DecidableEq H]

/-- One statement of thread `t`. -/
def tick (s : Machine H) (t : Nat) (answer : Answer H) : Option (Machine H) :=
  match s.pc t with
  | .openLock =>
    if s.mutex = none then some ({ s with mutex := some t }.goto t (.openLoop 0)) else none
  | .openLoop i =>
    if hi : i < displayPoolSize then
      if s.pool.borrowed ⟨i, hi⟩ then some (s.goto t (.openLoop (i + 1)))
      else if (s.pool.displays ⟨i, hi⟩).isNone then some (s.goto t (.openAsk ⟨i, hi⟩))
      else some (s.goto t (.openBorrow ⟨i, hi⟩))
    else
      some (s.goto t (.openUnlock none))
  | .openAsk i =>
    if ∀ d, answer.display = some d → d ∉ s.live then
      some ({ s with
        pool := ⟨Function.update s.pool.displays i answer.display, s.pool.borrowed⟩
        live := answer.display.elim s.live (insert · s.live) }.goto t (.openBorrow i))
    else
      none
  | .openBorrow i => some ({ s with pool := s.pool.borrow i }.goto t (.openUnlock (some i)))
  | .openUnlock i => some ({ s with mutex := none }.goto t (.openReturn i))
  | .namedAsk name =>
    if ∀ d, answer.display = some d → d ∉ s.live then
      some ({ s with live := answer.display.elim s.live (insert · s.live) }.goto t
        (.namedReturn name answer.display))
    else
      none
  | .closeLock h =>
    if s.mutex = none then some ({ s with mutex := some t }.goto t (.closeLoop h 0)) else none
  | .closeLoop h i =>
    if hi : i < displayPoolSize then
      if s.pool.displays ⟨i, hi⟩ = some h.handle then
        some ({ s with pool := s.pool.giveBack ⟨i, hi⟩ }.goto t (.closeUnlock h true))
      else
        some (s.goto t (.closeLoop h (i + 1)))
    else
      some (s.goto t (.closeUnlock h false))
  | .closeUnlock h found =>
    some ({ s with mutex := none }.goto t (if found then .closeReturn h 0 else .closeOriginal h))
  | .closeOriginal h =>
    some ({ s with live := s.live.erase h.handle }.goto t (.closeReturn h answer.status))
  | _ => none

/-- A thread calls when it is in no call, and closes a display that some client has. -/
def step (s : Machine H) : Act H → Option (Machine H)
  | .call t c =>
    match s.pc t with
    | .idle =>
      match c with
      | .open none => some (s.goto t .openLock)
      | .open (some name) => some (s.goto t (.namedAsk name))
      | .close h =>
        if s.client.contains h then
          some ({ s with client := s.client.erase h }.goto t (.closeLock h))
        else
          none
    | _ => none
  | .tick t answer => tick s t answer
  | .ret t res =>
    match returned s.pool (s.pc t) with
    | some r =>
      if r = res then
        some ({ s with client := (granted t (s.pc t) res).toList ++ s.client }.goto t .idle)
      else
        none
    | none => none

def Act.thread : Act H → Nat
  | .call t _ => t
  | .tick t _ => t
  | .ret t _ => t

def Act.seen : Act H → Option (Action Nat (Call H) (Result H))
  | .call t c => some (.call t c)
  | .tick _ _ => none
  | .ret t res => some (.ret t res)

/-- The pool with one step for a call, as an object. -/
def poolObject : Object Nat (Call H) (Answer H) (Result H) (State H) (Event H) where
  event t c answer :=
    match c with
    | .open name => .open t name answer.display
    | .close h => .close h
  step := DisplayPool.step
  result x c answer :=
    match c with
    | .open name => .display (xOpenDisplayImpl (fun _ => answer.display) name x.pool).display
    | .close h => .status (if (xCloseDisplay (some h.handle) x.pool).2 then answer.status else 0)

end Steps

theorem freeSlot_eq {p : Pool H} {i : Slot} (hi : p.borrowed i = false)
    (hbefore : ∀ j : Slot, j.val < i.val → p.borrowed j = true) : freeSlot p = some i := by
  cases hf : freeSlot p with
  | none => simp [freeSlot_none hf i] at hi
  | some k =>
    obtain ⟨_, n, hn, hk, hfirst⟩ := List.find?_eq_some_iff_getElem.mp hf
    have hkn : k.val = n := by rw [← hk]; simp
    have hki : k.val ≤ i.val := by
      by_contra hlt
      have hlen : i.val < n := by omega
      have hb := hfirst i.val hlen
      simp [hi] at hb
    have hik : ¬ k.val < i.val := by
      intro hlt
      have hb := hbefore k hlt
      simp [freeSlot_some hf] at hb
    exact congrArg some (Fin.ext (by omega))

/-- What a pool never takes back: a display in a slot stays there, and an empty slot that is
borrowed stays empty and borrowed. -/
structure Keeps (p q : Pool H) : Prop where
  filled : ∀ i d, p.displays i = some d → q.displays i = some d
  lost : ∀ i, p.displays i = none → p.borrowed i = true →
    q.displays i = none ∧ q.borrowed i = true

theorem keeps_borrow (p : Pool H) (i : Slot) : Keeps p (p.borrow i) where
  filled _ _ h := h
  lost j hj hb := ⟨hj, by by_cases hji : j = i <;> simp [Pool.borrow, hji, hb]⟩

theorem keeps_giveBack {p : Pool H} {i : Slot} {d : H} (hi : p.displays i = some d) :
    Keeps p (p.giveBack i) where
  filled _ _ h := h
  lost j hj hb := by
    have hji : j ≠ i := by rintro rfl; simp [hi] at hj
    exact ⟨hj, by simp [Pool.giveBack, hji, hb]⟩

theorem keeps_ask {p : Pool H} {i : Slot} (hi : p.displays i = none)
    (hb : p.borrowed i = false) (display : Option H) :
    Keeps p ⟨Function.update p.displays i display, p.borrowed⟩ where
  filled j d hj := by
    have hji : j ≠ i := by rintro rfl; simp [hi] at hj
    simpa [hji] using hj
  lost j hj hl := by
    have hji : j ≠ i := by rintro rfl; simp [hb] at hl
    exact ⟨by simpa [hji] using hj, hl⟩

abbrev Phases (H : Type*) := Nat → Phase (Call H) (Result H)

/-- Between the lock and the unlock. -/
def Pc.inside : Pc H → Bool
  | .openLoop _ | .openAsk _ | .openBorrow _ | .openUnlock _ => true
  | .closeLoop _ _ | .closeUnlock _ _ => true
  | _ => false

/-- The slot the loop has settled on counts as borrowed before it is marked. -/
def Pc.publish (p : Pool H) : Pc H → Pool H
  | .openBorrow i => p.borrow i
  | _ => p

def Machine.published (s : Machine H) : Pool H :=
  s.mutex.elim s.pool fun t => (s.pc t).publish s.pool

/-- What is known at each statement. An open has taken effect once its slot is settled, a
close of a pooled display once the slot is given back, and any other call with the call of
the original library. -/
def Stands (p : Pool H) (f : Phase (Call H) (Result H)) : Pc H → Prop
  | .idle => f = .idle
  | .openLock => f = .called (.open none)
  | .openLoop i => f = .called (.open none) ∧ ∀ j : Slot, j.val < i → p.borrowed j = true
  | .openAsk i => f = .called (.open none) ∧ freeSlot p = some i ∧ p.displays i = none
  | .openBorrow i => f = .done (.open none) (.display (p.displays i))
  | .openUnlock i | .openReturn i =>
    f = .done (.open none) (.display (i.bind p.displays)) ∧
      ∀ j, i = some j → p.displays j = none → p.borrowed j = true
  | .namedAsk name => f = .called (.open (some name))
  | .namedReturn name display => f = .done (.open (some name)) (.display display)
  | .closeLock h => f = .called (.close h)
  | .closeLoop h i =>
    f = .called (.close h) ∧ ∀ j : Slot, j.val < i → p.displays j ≠ some h.handle
  | .closeUnlock h true => f = .done (.close h) (.status 0)
  | .closeUnlock h false | .closeOriginal h => f = .called (.close h) ∧ h.displayName ≠ none
  | .closeReturn h status => f = .done (.close h) (.status status)

/-- What the others do to the pool does not matter outside the mutex. -/
theorem Stands.frame {p q : Pool H} {pc : Pc H} {f : Phase (Call H) (Result H)}
    (h : Stands p f pc) (hout : pc.inside = false) (hk : Keeps p q) : Stands q f pc := by
  cases pc with
  | openReturn i =>
    obtain ⟨hf, hlost⟩ := h
    cases i with
    | none => exact ⟨hf, by simp⟩
    | some i =>
      cases hd : p.displays i with
      | none =>
        obtain ⟨hq, hb⟩ := hk.lost i hd (hlost i rfl hd)
        refine ⟨by simpa [hd, hq] using hf, ?_⟩
        intro j hj _
        cases hj
        exact hb
      | some d =>
        have hq := hk.filled i d hd
        refine ⟨by simpa [hd, hq] using hf, ?_⟩
        intro j hj hnone
        cases hj
        simp [hq] at hnone
  | openLoop | openAsk | openBorrow | openUnlock | closeLoop | closeUnlock =>
    simp [Pc.inside] at hout
  | _ => exact h

/-- The thread inside the mutex has it, and every thread stands where its call has come to. -/
structure Control (s : Machine H) (ph : Phases H) : Prop where
  mutex : ∀ t, (s.pc t).inside = true ↔ s.mutex = some t
  stands : ∀ t, Stands s.pool (ph t) (s.pc t)

theorem Control.move {s s' : Machine H} {ph : Phases H} (hs : Control s ph) {t : Nat} {pc : Pc H}
    {f : Phase (Call H) (Result H)} (hpc : s'.pc = Function.update s.pc t pc)
    (hmutex : ∀ u, s'.mutex = some u ↔ if u = t then pc.inside = true else s.mutex = some u)
    (hpool : s'.pool = s.pool ∨ s.mutex = some t ∧ Keeps s.pool s'.pool)
    (hf : Stands s'.pool f pc) : Control s' (Function.update ph t f) where
  mutex u := by
    rw [hpc, hmutex u]
    by_cases hu : u = t
    · simp [hu]
    · simpa [hu] using hs.mutex u
  stands u := by
    rw [hpc]
    by_cases hu : u = t
    · subst hu
      simpa using hf
    · simp only [Function.update_of_ne hu]
      obtain hsame | ⟨ht, hk⟩ := hpool
      · rw [hsame]
        exact hs.stands u
      · refine (hs.stands u).frame ?_ hk
        by_contra hin
        have hmu := (hs.mutex u).mp (by simpa using hin)
        exact hu (Option.some.inj (hmu.symm.trans ht))

/-- The handle a call in progress has in its hands: the one it closes until that takes
effect, the one it returns from then on. -/
def inFlight (t : Nat) : Phase (Call H) (Result H) → Option (Holding H)
  | .called (.close h) => some h
  | .done (.open name) (.display (some d)) => some ⟨t, name, d⟩
  | _ => none

/-- Each held handle is with a client or in the hands of one thread. -/
structure Owns {α : Type*} (client : List α) (flight : Nat → Option α) (held : List α) : Prop where
  held_iff : ∀ g, g ∈ held ↔ g ∈ client ∨ ∃ t, flight t = some g
  nodup : client.Nodup
  apart : ∀ t g, flight t = some g → g ∉ client
  single : ∀ t u g, flight t = some g → flight u = some g → t = u

section Owns
variable {α : Type*} {client held : List α} {flight : Nat → Option α} {t : Nat} {g : α}

theorem update_flight {o : Option α} {u : Nat} :
    Function.update flight t o u = some g ↔
      u = t ∧ o = some g ∨ u ≠ t ∧ flight u = some g := by
  by_cases hu : u = t
  · subst hu; simp
  · simp [hu]

theorem Owns.keep (h : Owns client flight held) (ht : flight t = none) :
    Owns client (Function.update flight t none) held := by
  rwa [← ht, Function.update_eq_self]

/-- A client passes a handle over to a call. -/
theorem Owns.pass [DecidableEq α] (h : Owns client flight held) (ht : flight t = none)
    (hg : g ∈ client) : Owns (client.erase g) (Function.update flight t (some g)) held where
  held_iff k := by
    rw [h.held_iff, h.nodup.mem_erase_iff]
    constructor
    · rintro (hk | ⟨u, hu⟩)
      · by_cases hkg : k = g
        · exact Or.inr ⟨t, by simp [hkg]⟩
        · exact Or.inl ⟨hkg, hk⟩
      · have hut : u ≠ t := by rintro rfl; simp [ht] at hu
        exact Or.inr ⟨u, update_flight.mpr (Or.inr ⟨hut, hu⟩)⟩
    · rintro (⟨_, hk⟩ | ⟨u, hu⟩)
      · exact Or.inl hk
      · obtain ⟨_, hgk⟩ | ⟨_, hu⟩ := update_flight.mp hu
        · exact Or.inl (Option.some.inj hgk ▸ hg)
        · exact Or.inr ⟨u, hu⟩
  nodup := h.nodup.erase g
  apart u k hu := by
    rw [h.nodup.mem_erase_iff]
    obtain ⟨_, hgk⟩ | ⟨_, hu⟩ := update_flight.mp hu
    · exact fun hk => hk.1 (Option.some.inj hgk).symm
    · exact fun hk => h.apart u k hu hk.2
  single u v k hu hv := by
    obtain ⟨rfl, hgk⟩ | ⟨_, hu'⟩ := update_flight.mp hu
    · obtain ⟨rfl, _⟩ | ⟨_, hv'⟩ := update_flight.mp hv
      · rfl
      · exact absurd hg (Option.some.inj hgk ▸ h.apart v k hv')
    · obtain ⟨rfl, hgk⟩ | ⟨_, hv'⟩ := update_flight.mp hv
      · exact absurd hg (Option.some.inj hgk ▸ h.apart u k hu')
      · exact h.single u v k hu' hv'

/-- A call gets hold of a handle nobody held. -/
theorem Owns.take (h : Owns client flight held) (ht : flight t = none) (hg : g ∉ held) :
    Owns client (Function.update flight t (some g)) (g :: held) where
  held_iff k := by
    rw [List.mem_cons, h.held_iff]
    constructor
    · rintro (rfl | hk | ⟨u, hu⟩)
      · exact Or.inr ⟨t, by simp⟩
      · exact Or.inl hk
      · have hut : u ≠ t := by rintro rfl; simp [ht] at hu
        exact Or.inr ⟨u, update_flight.mpr (Or.inr ⟨hut, hu⟩)⟩
    · rintro (hk | ⟨u, hu⟩)
      · exact Or.inr (Or.inl hk)
      · obtain ⟨_, hgk⟩ | ⟨_, hu⟩ := update_flight.mp hu
        · exact Or.inl (Option.some.inj hgk).symm
        · exact Or.inr (Or.inr ⟨u, hu⟩)
  nodup := h.nodup
  apart u k hu hk := by
    obtain ⟨_, hgk⟩ | ⟨_, hu⟩ := update_flight.mp hu
    · exact hg ((h.held_iff g).mpr (Or.inl (Option.some.inj hgk ▸ hk)))
    · exact h.apart u k hu hk
  single u v k hu hv := by
    have hfree : ∀ w, flight w ≠ some g := fun w hw => hg ((h.held_iff g).mpr (Or.inr ⟨w, hw⟩))
    obtain ⟨rfl, hgk⟩ | ⟨_, hu'⟩ := update_flight.mp hu
    · obtain ⟨rfl, _⟩ | ⟨_, hv'⟩ := update_flight.mp hv
      · rfl
      · exact absurd (hv'.trans hgk.symm) (hfree v)
    · obtain ⟨rfl, hgk⟩ | ⟨_, hv'⟩ := update_flight.mp hv
      · exact absurd (hu'.trans hgk.symm) (hfree u)
      · exact h.single u v k hu' hv'

/-- No thread but `t` has `g`. -/
theorem Owns.elsewhere (h : Owns client flight held) (ht : flight t = some g) {u : Nat}
    {k : α} : Function.update flight t none u = some k ↔ k ≠ g ∧ flight u = some k := by
  rw [update_flight]
  constructor
  · rintro (⟨_, hnone⟩ | ⟨hut, hu⟩)
    · cases hnone
    · refine ⟨?_, hu⟩
      rintro rfl
      exact hut (h.single u t k hu ht)
  · rintro ⟨hkg, hu⟩
    refine Or.inr ⟨?_, hu⟩
    rintro rfl
    exact hkg (Option.some.inj (hu.symm.trans ht))

/-- A call lets go of the handle it has closed. -/
theorem Owns.drop [DecidableEq α] (h : Owns client flight held) (ht : flight t = some g)
    (hn : held.Nodup) : Owns client (Function.update flight t none) (held.erase g) where
  held_iff k := by
    simp only [hn.mem_erase_iff, h.held_iff, h.elsewhere ht]
    constructor
    · rintro ⟨hkg, hk | ⟨u, hu⟩⟩
      · exact Or.inl hk
      · exact Or.inr ⟨u, hkg, hu⟩
    · rintro (hk | ⟨u, hkg, hu⟩)
      · refine ⟨?_, Or.inl hk⟩
        rintro rfl
        exact h.apart t k ht hk
      · exact ⟨hkg, Or.inr ⟨u, hu⟩⟩
  nodup := h.nodup
  apart u k hu := h.apart u k ((h.elsewhere ht).mp hu).2
  single u v k hu hv := h.single u v k ((h.elsewhere ht).mp hu).2 ((h.elsewhere ht).mp hv).2

/-- A call returns the handle in its hands. -/
theorem Owns.receive (h : Owns client flight held) (ht : flight t = some g) :
    Owns (g :: client) (Function.update flight t none) held where
  held_iff k := by
    simp only [List.mem_cons, h.held_iff, h.elsewhere ht]
    constructor
    · rintro (hk | ⟨u, hu⟩)
      · exact Or.inl (Or.inr hk)
      · by_cases hkg : k = g
        · exact Or.inl (Or.inl hkg)
        · exact Or.inr ⟨u, hkg, hu⟩
    · rintro ((rfl | hk) | ⟨u, _, hu⟩)
      · exact Or.inr ⟨t, ht⟩
      · exact Or.inl hk
      · exact Or.inr ⟨u, hu⟩
  nodup := List.nodup_cons.mpr ⟨h.apart t g ht, h.nodup⟩
  apart u k hu := by
    obtain ⟨hkg, hu⟩ := (h.elsewhere ht).mp hu
    simpa [hkg] using h.apart u k hu
  single u v k hu hv := h.single u v k ((h.elsewhere ht).mp hu).2 ((h.elsewhere ht).mp hv).2

/-- A call returns what it has, if anything. -/
theorem Owns.hand (h : Owns client flight held) :
    Owns ((flight t).toList ++ client) (Function.update flight t none) held := by
  cases ht : flight t with
  | none => exact h.keep ht
  | some g => exact h.receive ht

end Owns

theorem Stands.returned {p : Pool H} {pc : Pc H} {f : Phase (Call H) (Result H)} {res : Result H}
    (h : Stands p f pc) (hr : returned p pc = some res) (t : Nat) :
    ∃ c, f = .done c res ∧ granted t pc res = inFlight t f := by
  cases pc with
  | openReturn i =>
    obtain rfl := Option.some.inj hr
    refine ⟨_, h.1, ?_⟩
    rw [h.1]
    cases hd : i.bind p.displays <;> rfl
  | namedReturn name display =>
    obtain rfl := Option.some.inj hr
    refine ⟨_, h, ?_⟩
    rw [show f = _ from h]
    cases display <;> rfl
  | closeReturn g status =>
    obtain rfl := Option.some.inj hr
    refine ⟨_, h, ?_⟩
    rw [show f = _ from h]
    rfl
  | _ => cases hr

theorem outside_of_returned {p : Pool H} {pc : Pc H} {res : Result H}
    (hr : returned p pc = some res) : pc.inside = false := by
  cases pc <;> first | rfl | cases hr

def flight (ph : Phases H) (t : Nat) : Option (Holding H) := inFlight t (ph t)

theorem flight_update (ph : Phases H) (t : Nat) (f : Phase (Call H) (Result H)) :
    flight (Function.update ph t f) = Function.update (flight ph) t (inFlight t f) := by
  funext u
  by_cases hu : u = t
  · subst hu; simp [flight]
  · simp [flight, hu]

section Atomic
variable [DecidableEq H]

theorem step_lend {x : State H} {i : Slot} {d : H} (hi : freeSlot x.pool = some i)
    (hd : x.pool.displays i = some d) (t : Nat) (answer : Option H) :
    DisplayPool.step x (.open t none answer) =
      some ⟨x.pool.borrow i, x.live, ⟨t, none, d⟩ :: x.held⟩ := by
  simp [DisplayPool.step, xOpenDisplayImpl, hi, hd, Pool.borrow]

theorem step_ask {x : State H} {i : Slot} {answer : Option H} (hi : freeSlot x.pool = some i)
    (he : x.pool.displays i = none) (hfresh : ∀ d, answer = some d → d ∉ x.live) (t : Nat) :
    DisplayPool.step x (.open t none answer) =
      some ⟨Pool.borrow ⟨Function.update x.pool.displays i answer, x.pool.borrowed⟩ i,
        answer.elim x.live (insert · x.live),
        (answer.map (Holding.mk t none)).toList ++ x.held⟩ := by
  simpa [DisplayPool.step, xOpenDisplayImpl, hi, he, Pool.borrow] using hfresh

theorem step_refuse {x : State H} (hi : freeSlot x.pool = none) (t : Nat) (answer : Option H) :
    DisplayPool.step x (.open t none answer) = some x := by
  simp [DisplayPool.step, xOpenDisplayImpl, hi]

theorem step_named {x : State H} {answer : Option H}
    (hfresh : ∀ d, answer = some d → d ∉ x.live) (t : Nat) (name : String) :
    DisplayPool.step x (.open t (some name) answer) =
      some ⟨x.pool, answer.elim x.live (insert · x.live),
        (answer.map (Holding.mk t (some name))).toList ++ x.held⟩ := by
  exact if_pos hfresh

theorem xCloseDisplay_pooled {x : State H} (hx : Inv x) {h : Holding H} {i : Slot}
    (hi : x.pool.displays i = some h.handle) :
    xCloseDisplay (some h.handle) x.pool = (x.pool.giveBack i, false) := by
  obtain ⟨j, hj, hc⟩ | ⟨hno, _⟩ := xCloseDisplay_cases (some h.handle) x.pool
  · rw [hc, hx.distinct i j h.handle hi hj]
  · exact absurd hi (hno i)

theorem xCloseDisplay_other {x : State H} {h : Holding H}
    (hno : ∀ i, x.pool.displays i ≠ some h.handle) :
    xCloseDisplay (some h.handle) x.pool = (x.pool, true) := by
  obtain ⟨j, hj, _⟩ | ⟨_, hc⟩ := xCloseDisplay_cases (some h.handle) x.pool
  · exact absurd hj (hno j)
  · exact hc

end Atomic

theorem published_inside {s : Machine H} {t : Nat} (h : s.mutex = some t) :
    s.published = (s.pc t).publish s.pool := by
  simp [Machine.published, h]

theorem published_free {s : Machine H} (h : s.mutex = none) : s.published = s.pool := by
  simp [Machine.published, h]

theorem published_outside {s s' : Machine H} {t : Nat} {pc : Pc H} (ht : s.mutex ≠ some t)
    (hpc : s'.pc = Function.update s.pc t pc) (hmutex : s'.mutex = s.mutex)
    (hpool : s'.pool = s.pool) : s'.published = s.published := by
  cases hu : s.mutex with
  | none => rw [published_free (hmutex.trans hu), published_free hu, hpool]
  | some u =>
    have hut : u ≠ t := by rintro rfl; exact ht hu
    rw [published_inside (hmutex.trans hu), published_inside hu, hpc, hpool]
    simp [hut]

section Mutex
variable {s : Machine H} {ph : Phases H} {t : Nat} {pc : Pc H}

theorem Control.keep (h : Control s ph) (hin : pc.inside = (s.pc t).inside) (u : Nat) :
    s.mutex = some u ↔ if u = t then pc.inside = true else s.mutex = some u := by
  by_cases hu : u = t
  · subst hu
    simp [hin, h.mutex]
  · simp [hu]

theorem mutex_lock (hfree : s.mutex = none) (hin : pc.inside = true) (u : Nat) :
    some t = some u ↔ if u = t then pc.inside = true else s.mutex = some u := by
  by_cases hu : u = t
  · simp [hu, hin]
  · simp [hu, hfree, Ne.symm hu]

theorem mutex_unlock (ht : s.mutex = some t) (hin : pc.inside = false) (u : Nat) :
    none = some u ↔ if u = t then pc.inside = true else s.mutex = some u := by
  by_cases hu : u = t
  · simp [hu, hin]
  · simp [hu, ht, Ne.symm hu]

end Mutex

end LSU.DisplayLock
