import Mathlib.Data.Fintype.Card
import Mathlib.Data.List.Count
import Mathlib.Data.List.FinRange
import LSU.Run

/-! The pool of X displays of steamfix.c under any number of client threads. Every call is
one step, as under display_pool_mutex; what the original library answers comes with it. -/
namespace LSU.DisplayPool
open LSU.Run
variable {H : Type*}

def displayPoolSize : Nat := 50

abbrev Slot := Fin displayPoolSize

/-- `displays[]` and `borrowed[]`. NULL is `none`. -/
structure Pool (H : Type*) where
  displays : Slot → Option H
  borrowed : Slot → Bool

/-- What a call of XOpenDisplayImpl leaves: the pool, the display it returns and what the
original XOpenDisplay has returned to it, if it was called. -/
structure Opened (H : Type*) where
  pool : Pool H
  display : Option H
  original : Option (Option H)

/-- The first slot the loop of XOpenDisplayImpl finds not borrowed. -/
def freeSlot (p : Pool H) : Option Slot :=
  (List.finRange displayPoolSize).find? fun i => !p.borrowed i

def xOpenDisplayImpl (origXOpenDisplay : Option String → Option H) (displayName : Option String)
    (p : Pool H) : Opened H :=
  match displayName with
  | none =>
    match freeSlot p with
    | some i =>
      match p.displays i with
      | none =>
        let display := origXOpenDisplay none
        ⟨⟨Function.update p.displays i display, Function.update p.borrowed i true⟩,
          display, some display⟩
      | some display => ⟨⟨p.displays, Function.update p.borrowed i true⟩, some display, none⟩
    | none => ⟨p, none, none⟩
  | some name =>
    let display := origXOpenDisplay (some name)
    ⟨p, display, some display⟩

/-- The second component tells whether `display` goes to the original XCloseDisplay. -/
def xCloseDisplay [DecidableEq H] (display : Option H) (p : Pool H) : Pool H × Bool :=
  match (List.finRange displayPoolSize).find? (fun i => p.displays i == display) with
  | some i => (⟨p.displays, Function.update p.borrowed i false⟩, false)
  | none => (p, true)

/-- A handle in the hands of a client, with the display name it was opened with. -/
structure Holding (H : Type*) where
  thread : Nat
  displayName : Option String
  handle : H
deriving DecidableEq

/-- `live` are the handles open in the original library. -/
structure State (H : Type*) where
  pool : Pool H
  live : Finset H
  held : List (Holding H)

def start : State H := ⟨⟨fun _ => none, fun _ => false⟩, ∅, []⟩

inductive Event (H : Type*) where
  | open (thread : Nat) (displayName : Option String) (answer : Option H)
  | close (holding : Holding H)

/-- The original library answers NULL or a handle that is not open; a client closes a
handle it holds. -/
def step [DecidableEq H] (s : State H) : Event H → Option (State H)
  | .open thread displayName answer =>
    let o := xOpenDisplayImpl (fun _ => answer) displayName s.pool
    let fresh := o.original.join
    if ∀ d, fresh = some d → d ∉ s.live then
      some ⟨o.pool, fresh.elim s.live (insert · s.live),
        (o.display.map (Holding.mk thread displayName)).toList ++ s.held⟩
    else
      none
  | .close holding =>
    if holding ∈ s.held then
      let (pool, passed) := xCloseDisplay (some holding.handle) s.pool
      some ⟨pool, if passed then s.live.erase holding.handle else s.live, s.held.erase holding⟩
    else
      none

theorem freeSlot_some {p : Pool H} {i : Slot} (h : freeSlot p = some i) :
    p.borrowed i = false := by
  simpa using List.find?_some h

theorem freeSlot_none {p : Pool H} (h : freeSlot p = none) (i : Slot) : p.borrowed i = true := by
  simpa using List.find?_eq_none.mp h i (List.mem_finRange i)

def Pool.borrow (p : Pool H) (i : Slot) : Pool H :=
  ⟨p.displays, Function.update p.borrowed i true⟩

def Pool.giveBack (p : Pool H) (i : Slot) : Pool H :=
  ⟨p.displays, Function.update p.borrowed i false⟩

def Pool.fill (p : Pool H) (i : Slot) (d : H) : Pool H :=
  ⟨Function.update p.displays i (some d), Function.update p.borrowed i true⟩

/-- Everything a call can do. `leak` is the pooled open that finds a free, empty slot
and whose original open fails: the slot stays borrowed, and nobody holds a handle for it. -/
inductive Effect [DecidableEq H] (s : State H) : Event H → State H → Prop where
  | lend {thread answer i d} (hi : freeSlot s.pool = some i) (hd : s.pool.displays i = some d) :
      Effect s (.open thread none answer)
        ⟨s.pool.borrow i, s.live, ⟨thread, none, d⟩ :: s.held⟩
  | fill {thread i d} (hi : freeSlot s.pool = some i) (he : s.pool.displays i = none)
      (hd : d ∉ s.live) : Effect s (.open thread none (some d))
        ⟨s.pool.fill i d, insert d s.live, ⟨thread, none, d⟩ :: s.held⟩
  | leak {thread i} (hi : freeSlot s.pool = some i) (he : s.pool.displays i = none) :
      Effect s (.open thread none none) ⟨s.pool.borrow i, s.live, s.held⟩
  | refuse {thread answer} (hi : freeSlot s.pool = none) :
      Effect s (.open thread none answer) s
  | openNamed {thread name d} (hd : d ∉ s.live) : Effect s (.open thread (some name) (some d))
      ⟨s.pool, insert d s.live, ⟨thread, some name, d⟩ :: s.held⟩
  | failNamed {thread name} : Effect s (.open thread (some name) none) s
  | giveBack {h i} (hh : h ∈ s.held) (hi : s.pool.displays i = some h.handle) :
      Effect s (.close h) ⟨s.pool.giveBack i, s.live, s.held.erase h⟩
  | closeOriginal {h} (hh : h ∈ s.held) (hi : ∀ i, s.pool.displays i ≠ some h.handle) :
      Effect s (.close h) ⟨s.pool, s.live.erase h.handle, s.held.erase h⟩

/-- The three ways a pooled open can go: a display waits in the free slot found, the slot
is empty and the original library is asked, or every slot is borrowed. -/
theorem xOpenDisplayImpl_pool (orig : Option String → Option H) (p : Pool H) :
    (∃ i d, freeSlot p = some i ∧ p.displays i = some d ∧
      xOpenDisplayImpl orig none p = ⟨p.borrow i, some d, none⟩) ∨
    (∃ i, freeSlot p = some i ∧ p.displays i = none ∧
      xOpenDisplayImpl orig none p =
        ⟨(orig none).elim (p.borrow i) (p.fill i), orig none, some (orig none)⟩) ∨
    (freeSlot p = none ∧ xOpenDisplayImpl orig none p = ⟨p, none, none⟩) := by
  cases hi : freeSlot p with
  | none => exact Or.inr (Or.inr ⟨rfl, by simp [xOpenDisplayImpl, hi]⟩)
  | some i =>
    cases hd : p.displays i with
    | none =>
      refine Or.inr (Or.inl ⟨i, rfl, hd, ?_⟩)
      -- writing NULL over NULL leaves the slot as it was
      have hu : Function.update p.displays i none = p.displays := by rw [← hd]; simp
      cases ho : orig none with
      | none => simp [xOpenDisplayImpl, hi, hd, ho, hu, Pool.borrow]
      | some d => simp [xOpenDisplayImpl, hi, hd, ho, Pool.fill]
    | some d => exact Or.inl ⟨i, d, rfl, hd, by simp [xOpenDisplayImpl, hi, hd, Pool.borrow]⟩

theorem xCloseDisplay_cases [DecidableEq H] (display : Option H) (p : Pool H) :
    (∃ i, p.displays i = display ∧ xCloseDisplay display p = (p.giveBack i, false)) ∨
    ((∀ i, p.displays i ≠ display) ∧ xCloseDisplay display p = (p, true)) := by
  cases hf : (List.finRange displayPoolSize).find? (fun i => p.displays i == display) with
  | none =>
    refine Or.inr ⟨?_, by simp [xCloseDisplay, hf]⟩
    intro i
    simpa using List.find?_eq_none.mp hf i (List.mem_finRange i)
  | some i =>
    have hi : p.displays i = display := by simpa using List.find?_some hf
    exact Or.inl ⟨i, hi, by simp [xCloseDisplay, hf, Pool.giveBack]⟩

theorem step_effect [DecidableEq H] {s t : State H} {e : Event H} (h : step s e = some t) :
    Effect s e t := by
  cases e with
  | «open» thread displayName answer =>
    cases displayName with
    | none =>
      obtain ⟨i, d, hi, hd, ho⟩ | ⟨i, hi, he, ho⟩ | ⟨hi, ho⟩ :=
          xOpenDisplayImpl_pool (fun _ => answer) s.pool
      · simp only [step, ho] at h
        obtain rfl : _ = t := by simpa using h
        exact .lend hi hd
      · cases answer with
        | none =>
          simp only [step, ho] at h
          obtain rfl : _ = t := by simpa using h
          exact .leak hi he
        | some d =>
          simp only [step, ho] at h
          obtain ⟨hd, rfl⟩ : d ∉ s.live ∧ _ = t := by simpa using h
          exact .fill hi he hd
      · simp only [step, ho] at h
        obtain rfl : _ = t := by simpa using h
        exact .refuse hi
    | some name =>
      cases answer with
      | none =>
        obtain rfl : _ = t := by simpa [step, xOpenDisplayImpl] using h
        exact .failNamed
      | some d =>
        obtain ⟨hd, rfl⟩ : d ∉ s.live ∧ _ = t := by simpa [step, xOpenDisplayImpl] using h
        exact .openNamed hd
  | close holding =>
    simp only [step] at h
    split at h
    · rename_i hh
      obtain ⟨i, hi, hc⟩ | ⟨hi, hc⟩ := xCloseDisplay_cases (some holding.handle) s.pool
      · obtain rfl : _ = t := by simpa [hc] using h
        exact .giveBack hh hi
      · obtain rfl : _ = t := by simpa [hc] using h
        exact .closeOriginal hh hi
    · cases h

/-- Who owns which handle. A pooled holding keeps its slot borrowed, a named one has none. -/
structure Inv (s : State H) : Prop where
  heldNodup : (s.held.map Holding.handle).Nodup
  distinct : ∀ i j d, s.pool.displays i = some d → s.pool.displays j = some d → i = j
  poolLive : ∀ i d, s.pool.displays i = some d → d ∈ s.live
  heldLive : ∀ h ∈ s.held, h.handle ∈ s.live
  pooled : ∀ h ∈ s.held, h.displayName = none →
    ∃ i, s.pool.displays i = some h.handle ∧ s.pool.borrowed i = true
  named : ∀ h ∈ s.held, h.displayName ≠ none → ∀ i, s.pool.displays i ≠ some h.handle

theorem inv_start : Inv (start : State H) :=
  ⟨by simp [start], by simp [start], by simp [start], by simp [start], by simp [start],
    by simp [start]⟩

/-- A display that waits in a free slot is in nobody's hands. -/
theorem Inv.idle_not_held {s : State H} (hs : Inv s) {i : Slot} {d : H}
    (hi : s.pool.borrowed i = false) (hd : s.pool.displays i = some d) :
    d ∉ s.held.map Holding.handle := by
  intro hmem
  obtain ⟨h, hh, rfl⟩ := List.mem_map.mp hmem
  cases hn : h.displayName with
  | none =>
    obtain ⟨j, hj, hb⟩ := hs.pooled h hh hn
    obtain rfl := hs.distinct i j _ hd hj
    simp [hi] at hb
  | some name => exact hs.named h hh (by simp [hn]) i hd

theorem Inv.fresh_not_held {s : State H} (hs : Inv s) {d : H} (hd : d ∉ s.live) :
    d ∉ s.held.map Holding.handle := by
  intro hmem
  obtain ⟨h, hh, rfl⟩ := List.mem_map.mp hmem
  exact hd (hs.heldLive h hh)

theorem Inv.fresh_not_pooled {s : State H} (hs : Inv s) {d : H} (hd : d ∉ s.live) (i : Slot) :
    s.pool.displays i ≠ some d :=
  fun hi => hd (hs.poolLive i d hi)

theorem Inv.pooled_of_slot {s : State H} (hs : Inv s) {h : Holding H} (hh : h ∈ s.held) {i : Slot}
    (hi : s.pool.displays i = some h.handle) : h.displayName = none ∧ s.pool.borrowed i = true := by
  have hn : h.displayName = none := by
    by_contra hn
    exact hs.named h hh hn i hi
  obtain ⟨j, hj, hb⟩ := hs.pooled h hh hn
  obtain rfl := hs.distinct i j _ hi hj
  exact ⟨hn, hb⟩

theorem Inv.lend {s : State H} (hs : Inv s) {thread : Nat} {i : Slot} {d : H}
    (hi : freeSlot s.pool = some i) (hd : s.pool.displays i = some d) :
    Inv ⟨s.pool.borrow i, s.live, ⟨thread, none, d⟩ :: s.held⟩ where
  heldNodup := List.nodup_cons.mpr ⟨hs.idle_not_held (freeSlot_some hi) hd, hs.heldNodup⟩
  distinct := hs.distinct
  poolLive := hs.poolLive
  heldLive := by simpa using ⟨hs.poolLive i d hd, hs.heldLive⟩
  pooled := by
    intro g hg hn
    obtain rfl | hg := List.mem_cons.mp hg
    · exact ⟨i, hd, by simp [Pool.borrow]⟩
    · obtain ⟨j, hj, hb⟩ := hs.pooled g hg hn
      exact ⟨j, hj, by by_cases hji : j = i <;> simp [Pool.borrow, hji, hb]⟩
  named := by
    intro g hg hn
    obtain rfl | hg := List.mem_cons.mp hg
    · exact absurd rfl hn
    · exact hs.named g hg hn

theorem Inv.leak {s : State H} (hs : Inv s) (i : Slot) :
    Inv ⟨s.pool.borrow i, s.live, s.held⟩ where
  heldNodup := hs.heldNodup
  distinct := hs.distinct
  poolLive := hs.poolLive
  heldLive := hs.heldLive
  pooled := by
    intro g hg hn
    obtain ⟨j, hj, hb⟩ := hs.pooled g hg hn
    exact ⟨j, hj, by by_cases hji : j = i <;> simp [Pool.borrow, hji, hb]⟩
  named := hs.named

theorem fill_displays {p : Pool H} {i j : Slot} {d d' : H} :
    (p.fill i d).displays j = some d' ↔ j = i ∧ d = d' ∨ j ≠ i ∧ p.displays j = some d' := by
  by_cases hj : j = i
  · subst hj; simp [Pool.fill]
  · simp [Pool.fill, hj]

section Runs
variable [DecidableEq H]

/-- A closed handle is in no other holding. -/
theorem Inv.handle_ne {s : State H} (hs : Inv s) {h g : Holding H} (hh : h ∈ s.held)
    (hg : g ∈ s.held.erase h) : g.handle ≠ h.handle := by
  intro he
  have hp : (s.held.map Holding.handle).Perm (h.handle :: (s.held.erase h).map Holding.handle) :=
    (List.perm_cons_erase hh).map _
  have hn := List.nodup_cons.mp (hp.nodup_iff.mp hs.heldNodup)
  exact hn.1 (List.mem_map.mpr ⟨g, hg, he⟩)

theorem Inv.erase_nodup {s : State H} (hs : Inv s) (h : Holding H) :
    ((s.held.erase h).map Holding.handle).Nodup :=
  hs.heldNodup.sublist (List.erase_sublist.map _)

theorem Inv.fill {s : State H} (hs : Inv s) {thread : Nat} {i : Slot} {d : H}
    (he : s.pool.displays i = none) (hd : d ∉ s.live) :
    Inv ⟨s.pool.fill i d, insert d s.live, ⟨thread, none, d⟩ :: s.held⟩ where
  heldNodup := List.nodup_cons.mpr ⟨hs.fresh_not_held hd, hs.heldNodup⟩
  distinct := by
    intro j k c hj hk
    obtain ⟨rfl, rfl⟩ | ⟨_, hj'⟩ := fill_displays.mp hj
    · obtain ⟨rfl, _⟩ | ⟨_, hk'⟩ := fill_displays.mp hk
      · rfl
      · exact absurd hk' (hs.fresh_not_pooled hd k)
    · obtain ⟨_, rfl⟩ | ⟨_, hk'⟩ := fill_displays.mp hk
      · exact absurd hj' (hs.fresh_not_pooled hd j)
      · exact hs.distinct j k c hj' hk'
  poolLive := by
    intro j c hj
    obtain ⟨rfl, rfl⟩ | ⟨hji, hj⟩ := fill_displays.mp hj
    · exact Finset.mem_insert_self _ _
    · exact Finset.mem_insert_of_mem (hs.poolLive j c hj)
  heldLive := by
    intro g hg
    obtain rfl | hg := List.mem_cons.mp hg
    · exact Finset.mem_insert_self _ _
    · exact Finset.mem_insert_of_mem (hs.heldLive g hg)
  pooled := by
    intro g hg hn
    obtain rfl | hg := List.mem_cons.mp hg
    · exact ⟨i, fill_displays.mpr (Or.inl ⟨rfl, rfl⟩), by simp [Pool.fill]⟩
    · obtain ⟨j, hj, hb⟩ := hs.pooled g hg hn
      have hji : j ≠ i := by rintro rfl; simp [he] at hj
      exact ⟨j, fill_displays.mpr (Or.inr ⟨hji, hj⟩), by simp [Pool.fill, hji, hb]⟩
  named := by
    intro g hg hn j hj
    obtain rfl | hg' := List.mem_cons.mp hg
    · exact absurd rfl hn
    · obtain ⟨_, hc⟩ | ⟨_, hj'⟩ := fill_displays.mp hj
      · exact hd (hc ▸ hs.heldLive g hg')
      · exact hs.named g hg' hn j hj'

theorem Inv.openNamed {s : State H} (hs : Inv s) {thread : Nat} {name : String} {d : H}
    (hd : d ∉ s.live) : Inv ⟨s.pool, insert d s.live, ⟨thread, some name, d⟩ :: s.held⟩ where
  heldNodup := List.nodup_cons.mpr ⟨hs.fresh_not_held hd, hs.heldNodup⟩
  distinct := hs.distinct
  poolLive := fun i c hi => Finset.mem_insert_of_mem (hs.poolLive i c hi)
  heldLive := by
    intro g hg
    obtain rfl | hg := List.mem_cons.mp hg
    · exact Finset.mem_insert_self _ _
    · exact Finset.mem_insert_of_mem (hs.heldLive g hg)
  pooled := by
    intro g hg hn
    obtain rfl | hg := List.mem_cons.mp hg
    · cases hn
    · exact hs.pooled g hg hn
  named := by
    intro g hg hn
    obtain rfl | hg := List.mem_cons.mp hg
    · exact hs.fresh_not_pooled hd
    · exact hs.named g hg hn

theorem Inv.giveBack {s : State H} (hs : Inv s) {h : Holding H} {i : Slot} (hh : h ∈ s.held)
    (hi : s.pool.displays i = some h.handle) :
    Inv ⟨s.pool.giveBack i, s.live, s.held.erase h⟩ where
  heldNodup := hs.erase_nodup h
  distinct := hs.distinct
  poolLive := hs.poolLive
  heldLive := fun g hg => hs.heldLive g (List.mem_of_mem_erase hg)
  pooled := by
    intro g hg hn
    obtain ⟨j, hj, hb⟩ := hs.pooled g (List.mem_of_mem_erase hg) hn
    have hji : j ≠ i := by
      rintro rfl
      exact hs.handle_ne hh hg (Option.some.inj (hj.symm.trans hi))
    exact ⟨j, hj, by simp [Pool.giveBack, hji, hb]⟩
  named := fun g hg => hs.named g (List.mem_of_mem_erase hg)

theorem Inv.closeOriginal {s : State H} (hs : Inv s) {h : Holding H} (hh : h ∈ s.held)
    (hi : ∀ i, s.pool.displays i ≠ some h.handle) :
    Inv ⟨s.pool, s.live.erase h.handle, s.held.erase h⟩ where
  heldNodup := hs.erase_nodup h
  distinct := hs.distinct
  poolLive := fun i d hd =>
    Finset.mem_erase.mpr ⟨fun he => hi i (he ▸ hd), hs.poolLive i d hd⟩
  heldLive := fun g hg =>
    Finset.mem_erase.mpr ⟨hs.handle_ne hh hg, hs.heldLive g (List.mem_of_mem_erase hg)⟩
  pooled := fun g hg => hs.pooled g (List.mem_of_mem_erase hg)
  named := fun g hg => hs.named g (List.mem_of_mem_erase hg)

theorem inv_step {s t : State H} {e : Event H} (hs : Inv s) (h : step s e = some t) : Inv t := by
  cases step_effect h with
  | lend hi hd => exact hs.lend hi hd
  | fill hi he hd => exact hs.fill he hd
  | leak hi he => exact hs.leak _
  | refuse hi => exact hs
  | openNamed hd => exact hs.openNamed hd
  | failNamed => exact hs
  | giveBack hh hi => exact hs.giveBack hh hi
  | closeOriginal hh hi => exact hs.closeOriginal hh hi

theorem inv_run {es : List (Event H)} {s : State H} (h : run step start es = some s) : Inv s :=
  run_invariant Inv (fun _ _ _ hr he => inv_step hr he) inv_start h

/-- Along every run no handle has two holders and the pool keeps no display twice; a close
spares the displays of the pool, and always closes a display opened by name. -/
theorem display_ownership (es : List (Event H)) (s : State H)
    (hrun : run step start es = some s) :
    (s.held.map Holding.handle).Nodup ∧
    (∀ h ∈ s.held, (∃ i, s.pool.displays i = some h.handle) →
      (xCloseDisplay (some h.handle) s.pool).2 = false) ∧
    (∀ h ∈ s.held, h.displayName ≠ none → (xCloseDisplay (some h.handle) s.pool).2 = true) ∧
    (∀ i j d, s.pool.displays i = some d → s.pool.displays j = some d → i = j) := by
  have hs := inv_run hrun
  refine ⟨hs.heldNodup, ?_, ?_, hs.distinct⟩
  · intro h _ ⟨i, hi⟩
    obtain ⟨_, _, hc⟩ | ⟨hno, _⟩ := xCloseDisplay_cases (some h.handle) s.pool
    · rw [hc]
    · exact absurd hi (hno i)
  · intro h hh hn
    obtain ⟨i, hi, _⟩ | ⟨_, hc⟩ := xCloseDisplay_cases (some h.handle) s.pool
    · exact absurd hi (hs.named h hh hn i)
    · rw [hc]

/-- Two opens and a close share the pool; thread 2 gets the display thread 1 gave back. -/
theorem display_ownership_reuse :
    ∃ s : State Nat, run step start [.open 1 none (some 7), .open 1 (some ":1") (some 8),
        .close ⟨1, none, 7⟩, .open 2 none none] = some s ∧
      (s.held.map Holding.handle).Nodup ∧
      (xCloseDisplay (some 8) s.pool).2 = true := by
  refine ⟨_, rfl, ?_⟩
  have h := display_ownership (H := Nat) [.open 1 none (some 7), .open 1 (some ":1") (some 8),
    .close ⟨1, none, 7⟩, .open 2 none none] _ rfl
  exact ⟨h.1, h.2.2.1 ⟨1, some ":1", 8⟩ (by decide) (by decide)⟩

end Runs

def borrowedCount (p : Pool H) : Nat := (Finset.univ.filter fun i => p.borrowed i = true).card

def pooledHeld (s : State H) : Nat := s.held.countP fun h => h.displayName.isNone

theorem borrowedCount_borrow {p : Pool H} {i : Slot} (hi : p.borrowed i = false) :
    borrowedCount (p.borrow i) = borrowedCount p + 1 := by
  have hset : (Finset.univ.filter fun j => (p.borrow i).borrowed j = true) =
      insert i (Finset.univ.filter fun j => p.borrowed j = true) := by
    ext j
    rw [Finset.mem_insert, Finset.mem_filter, Finset.mem_filter]
    by_cases hj : j = i <;> simp [Pool.borrow, hj]
  rw [borrowedCount, hset, Finset.card_insert_of_notMem (by simp [hi]), borrowedCount]

theorem borrowedCount_fill {p : Pool H} {i : Slot} (d : H) (hi : p.borrowed i = false) :
    borrowedCount (p.fill i d) = borrowedCount p + 1 :=
  borrowedCount_borrow hi

theorem borrowedCount_giveBack {p : Pool H} {i : Slot} (hi : p.borrowed i = true) :
    borrowedCount (p.giveBack i) + 1 = borrowedCount p := by
  have hfree : (p.giveBack i).borrowed i = false := by simp [Pool.giveBack]
  have hp : ((p.giveBack i).borrow i).borrowed = p.borrowed := by
    funext j
    by_cases hj : j = i <;> simp [Pool.borrow, Pool.giveBack, hj, hi]
  rw [← borrowedCount_borrow hfree, borrowedCount, borrowedCount, hp]

theorem borrowedCount_full {p : Pool H} (hp : ∀ i, p.borrowed i = true) :
    borrowedCount p = displayPoolSize := by
  simp [borrowedCount, hp]

/-- The first free slot has no display and the original library has none to give. -/
def FailsPooledOpen (s : State H) : Event H → Prop
  | .open _ none none => ∃ i, freeSlot s.pool = some i ∧ s.pool.displays i = none
  | _ => False

/-- Every borrowed slot is one pooled handle in a client's hands, and an open is refused
only when all of them are, or when the original library fails in that call. -/
def Accounted (s : State H) : Prop :=
  borrowedCount s.pool = pooledHeld s ∧
    ∀ answer, (xOpenDisplayImpl (fun _ => answer) none s.pool).display = none →
      pooledHeld s = displayPoolSize ∨
        (xOpenDisplayImpl (fun _ => answer) none s.pool).original = some none

theorem accounted_of_eq {s : State H} (h : borrowedCount s.pool = pooledHeld s) :
    Accounted s := by
  refine ⟨h, fun answer hnone => ?_⟩
  obtain ⟨i, d, _, _, ho⟩ | ⟨i, _, _, ho⟩ | ⟨hfull, _⟩ :=
      xOpenDisplayImpl_pool (fun _ => answer) s.pool
  · simp [ho] at hnone
  · rw [ho] at hnone ⊢
    exact Or.inr (congrArg some hnone)
  · exact Or.inl (h.symm.trans (borrowedCount_full (freeSlot_none hfull)))

section Accounting
variable [DecidableEq H]

theorem pooledHeld_erase {s : State H} {h : Holding H} (hh : h ∈ s.held) :
    pooledHeld s = (s.held.erase h).countP (fun g => g.displayName.isNone) +
      if h.displayName.isNone then 1 else 0 := by
  rw [pooledHeld, (List.perm_cons_erase hh).countP_eq, List.countP_cons]

/-- A step keeps the account, save for a failing pooled open, which leaves one slot too
many borrowed. -/
theorem account_step {s t : State H} {e : Event H} (hs : Inv s) (h : step s e = some t)
    (hacc : borrowedCount s.pool = pooledHeld s) :
    borrowedCount t.pool = pooledHeld t ∧ ¬ FailsPooledOpen s e ∨
      borrowedCount t.pool = pooledHeld t + 1 ∧ FailsPooledOpen s e := by
  cases step_effect h with
  | @lend thread answer i d hi hd =>
    refine Or.inl ⟨?_, ?_⟩
    · simp [borrowedCount_borrow (freeSlot_some hi), hacc, pooledHeld]
    · cases answer <;> simp [FailsPooledOpen, hi, hd]
  | fill hi he hd =>
    refine Or.inl ⟨?_, by simp [FailsPooledOpen]⟩
    simp [borrowedCount_fill _ (freeSlot_some hi), hacc, pooledHeld]
  | leak hi he =>
    refine Or.inr ⟨?_, _, hi, he⟩
    simp [borrowedCount_borrow (freeSlot_some hi), hacc, pooledHeld]
  | @refuse thread answer hi =>
    exact Or.inl ⟨hacc, by cases answer <;> simp [FailsPooledOpen, hi]⟩
  | openNamed hd => exact Or.inl ⟨by simpa [pooledHeld] using hacc, by simp [FailsPooledOpen]⟩
  | failNamed => exact Or.inl ⟨hacc, by simp [FailsPooledOpen]⟩
  | giveBack hh hi =>
    refine Or.inl ⟨?_, by simp [FailsPooledOpen]⟩
    obtain ⟨hn, hb⟩ := hs.pooled_of_slot hh hi
    have hcount := borrowedCount_giveBack hb
    rw [hacc, pooledHeld_erase hh, hn] at hcount
    simpa [pooledHeld] using hcount
  | @closeOriginal g hh hi =>
    refine Or.inl ⟨?_, by simp [FailsPooledOpen]⟩
    have hn : g.displayName.isNone = false := by
      by_contra hn
      obtain ⟨i, hg, _⟩ := hs.pooled g hh (by simpa using hn)
      exact hi i hg
    rw [hacc, pooledHeld_erase hh, hn]
    simp [pooledHeld]

theorem accounted_of_meets {es : List (Event H)} {s : State H} (h : run step start es = some s)
    (hm : Meets step (fun s e => ¬ FailsPooledOpen s e) start es) :
    borrowedCount s.pool = pooledHeld s := by
  refine (meets_invariant (fun s => Inv s ∧ borrowedCount s.pool = pooledHeld s) ?_
    ⟨inv_start, by simp [borrowedCount, pooledHeld, start]⟩ hm h).2
  intro r e t ⟨hr, hacc⟩ hok he
  obtain ⟨ht, _⟩ | ⟨_, hfail⟩ := account_step hr he hacc
  · exact ⟨inv_step hr he, ht⟩
  · exact absurd hfail hok

/-- The account is in order all along a run exactly when none of its pooled opens has
failed in the original library. -/
theorem accounted_iff_no_failed_open (es : List (Event H)) (s : State H)
    (hrun : run step start es = some s) :
    (∀ u t, u <+: es → run step start u = some t → Accounted t) ↔
      Meets step (fun s e => ¬ FailsPooledOpen s e) start es := by
  constructor
  · intro hall
    induction es using List.reverseRecOn generalizing s with
    | nil => trivial
    | append_singleton es e ih =>
      obtain ⟨r, hr, he⟩ := run_concat.mp hrun
      refine (meets_concat hr he).mpr ⟨ih r hr ?_, ?_⟩
      · exact fun u t hu ht => hall u t (hu.trans (List.prefix_append _ _)) ht
      · intro hfail
        have hacc := (hall es r (List.prefix_append _ _) hr).1
        have hlast := (hall _ s (List.prefix_refl _) hrun).1
        obtain ⟨_, hno⟩ | ⟨hone, _⟩ := account_step (inv_run hr) he hacc
        · exact hno hfail
        · omega
  · rintro hm u t ⟨v, rfl⟩ ht
    exact accounted_of_eq (accounted_of_meets ht ((meets_append ht).mp hm).1)

theorem accounted_iff_no_failed_open_ok :
    ∃ s : State Nat, run step start
      [.open 1 none (some 7), .open 2 (some ":1") none, .close ⟨1, none, 7⟩] = some s ∧
        Accounted s := by
  refine ⟨_, rfl, (accounted_iff_no_failed_open [.open 1 none (some 7),
    .open 2 (some ":1") none, .close ⟨1, none, 7⟩] _ rfl).mpr ?_ _ _ (List.prefix_refl _) rfl⟩
  simp [Meets, FailsPooledOpen]

/-- One failed open and the pool has lost a slot that nobody will give back. -/
theorem failed_open_loses_slot :
    ∃ s : State Nat, run step start [.open 1 none none] = some s ∧
      borrowedCount s.pool = 1 ∧ pooledHeld s = 0 := by
  refine ⟨_, rfl, ?_, rfl⟩
  exact borrowedCount_borrow (p := (start : State Nat).pool) (i := ⟨0, by decide⟩) rfl

end Accounting
end LSU.DisplayPool
