import Mathlib.Data.List.Nodup
import LSU.Run
import LSU.CallConstructors

/-! The dlopen of dt_init-fix.c over the dlopen it wraps. Nothing is unloaded, so the list of
link maps only grows, at its end. -/
namespace LSU.Dlopen
open LSU.Run LSU.PatchInit LSU.CallConstructors

/-- An object in memory. Its dynamic section ends with DT_NULL. -/
structure Loaded (c : ElfClass) where
  map : LinkMap
  dyns : List Dyn
  terminated : map.dyns c = some dyns

variable {c : ElfClass}

/-- The environment, the memory and what the C library decides: the object a path denotes
and the one dlinfo takes for a NULL handle. -/
structure Config where
  steamclientPath : String
  steamclientAlt : String
  resolve : Option String → String
  dlinfoNull : Option String
  mem : Nat → Nat

/-- `lName` of the object that is opened for LSU_STEAMCLIENT_PATH. -/
def Config.steamclient (cfg : Config) : String := cfg.resolve (some cfg.steamclientAlt)

/-- A call of dlopen, and the answer of the original one: NULL or the objects it had to map. -/
structure Open (c : ElfClass) where
  path : Option String
  noload : Bool
  answer : Option (List (Loaded c))

/-- `aborted` after a failed assertion. `opened` tells that a dlopen of LSU_STEAMCLIENT_PATH
without RTLD_NOLOAD has returned a handle. -/
structure State (c : ElfClass) where
  maps : List (Loaded c)
  calls : List Call
  aborted : Bool
  opened : Bool

def start (maps : List (Loaded c)) : State c := ⟨maps, [], false, false⟩

def names (maps : List (Loaded c)) : List String := maps.map fun o => o.map.lName

/-- The handle and the link maps after a call of the original dlopen, as far as the answer is
one it can give. -/
def origDlopen (cfg : Config) (maps : List (Loaded c)) (path : Option String) (noload : Bool) :
    Option (List (Loaded c)) → Option (Option String × List (Loaded c))
  | none => some (none, maps)
  | some new =>
    if (names (maps ++ new)).Nodup ∧ cfg.resolve path ∈ names (maps ++ new) ∧
        (noload = true → new = []) then
      some (some (cfg.resolve path), maps ++ new)
    else
      none

def dlinfo (cfg : Config) : Option String → Option String
  | some obj => some obj
  | none => cfg.dlinfoNull

/-- The link maps from one object on. -/
def walk (maps : List (Loaded c)) (obj : String) : List (Loaded c) :=
  maps.dropWhile fun o => o.map.lName ≠ obj

def redirected (cfg : Config) (e : Open c) : Prop :=
  e.path = some cfg.steamclientPath ∧ e.noload = false

instance (cfg : Config) (e : Open c) : Decidable (redirected cfg e) :=
  inferInstanceAs (Decidable (_ ∧ _))

/-- dlopen -/
def step (cfg : Config) (s : State c) (e : Open c) : Option (State c) :=
  if s.aborted then
    none
  else if redirected cfg e then do
    let (obj, maps) ← origDlopen cfg s.maps (some cfg.steamclientAlt) e.noload e.answer
    match dlinfo cfg obj with
    | none => return { s with maps := maps, aborted := true }
    | some map =>
      let calls ← callConstructors c cfg.mem ((walk maps map).map Loaded.map)
      return ⟨maps, s.calls ++ calls, false, s.opened || obj.isSome⟩
  else do
    let (_, maps) ← origDlopen cfg s.maps e.path e.noload e.answer
    return { s with maps := maps }

/-- The calls due to one object. -/
def Loaded.calls (mem : Nat → Nat) (o : Loaded c) : List Call := o.map.calls c mem o.dyns

theorem callConstructors_loaded (mem : Nat → Nat) (maps : List (Loaded c)) :
    callConstructors c mem (maps.map Loaded.map) = some (maps.flatMap (Loaded.calls mem)) := by
  induction maps with
  | nil => rfl
  | cons o maps ih => exact callConstructors_cons o.terminated ih

/-- A call reaches steamclient when the walk it starts comes past it: it is opened, or the
open fails and dlinfo takes an object before it. -/
def reaches (cfg : Config) (s : State c) (e : Open c) : Bool :=
  redirected cfg e &&
    match e.answer, cfg.dlinfoNull with
    | some _, _ => true
    | none, some map => cfg.steamclient ∈ names (walk s.maps map)
    | none, none => false

/-- Everything a call can do. -/
inductive Effect (cfg : Config) (s : State c) (e : Open c) : State c → Prop
  | passOn (maps : List (Loaded c)) (hr : ¬ redirected cfg e) (hmaps : s.maps <+: maps)
      (hnodup : (names s.maps).Nodup → (names maps).Nodup) : Effect cfg s e { s with maps := maps }
  | abort (hr : redirected cfg e) (ha : e.answer = none) (hd : cfg.dlinfoNull = none) :
      Effect cfg s e { s with aborted := true }
  | failed (map : String) (hr : redirected cfg e) (ha : e.answer = none)
      (hd : cfg.dlinfoNull = some map) :
      Effect cfg s e ⟨s.maps, s.calls ++ (walk s.maps map).flatMap (Loaded.calls cfg.mem), false,
        s.opened⟩
  | opened (new : List (Loaded c)) (hr : redirected cfg e) (ha : e.answer = some new)
      (hnodup : (names (s.maps ++ new)).Nodup) (hclient : cfg.steamclient ∈ names (s.maps ++ new)) :
      Effect cfg s e ⟨s.maps ++ new,
        s.calls ++ (walk (s.maps ++ new) cfg.steamclient).flatMap (Loaded.calls cfg.mem), false,
        true⟩

theorem origDlopen_some {cfg : Config} {maps new : List (Loaded c)} {path : Option String}
    {noload : Bool} {out : Option String × List (Loaded c)}
    (h : origDlopen cfg maps path noload (some new) = some out) :
    (names (maps ++ new)).Nodup ∧ cfg.resolve path ∈ names (maps ++ new) ∧
      out = (some (cfg.resolve path), maps ++ new) := by
  by_cases hg : (names (maps ++ new)).Nodup ∧ cfg.resolve path ∈ names (maps ++ new) ∧
      (noload = true → new = [])
  · rw [origDlopen, if_pos hg] at h
    exact ⟨hg.1, hg.2.1, (Option.some.inj h).symm⟩
  · rw [origDlopen, if_neg hg] at h
    cases h

theorem step_effect {cfg : Config} {s t : State c} {e : Open c} (h : step cfg s e = some t) :
    Effect cfg s e t := by
  unfold step at h
  split at h
  · cases h
  split at h
  · rename_i hr
    obtain ⟨⟨obj, maps⟩, horig, h⟩ := Option.bind_eq_some_iff.mp h
    cases ha : e.answer with
    | none =>
      obtain ⟨rfl, rfl⟩ : none = obj ∧ s.maps = maps := by simpa [origDlopen, ha] using horig
      cases hd : cfg.dlinfoNull with
      | none =>
        obtain rfl : _ = t := by simpa [dlinfo, hd] using h
        exact .abort hr ha hd
      | some map =>
        obtain rfl : _ = t := by simpa [dlinfo, hd, callConstructors_loaded] using h
        exact .failed map hr ha hd
    | some new =>
      rw [ha] at horig
      obtain ⟨hnodup, hclient, hout⟩ := origDlopen_some horig
      obtain ⟨rfl, rfl⟩ := Prod.mk.inj hout
      obtain rfl : _ = t := by simpa [dlinfo, callConstructors_loaded] using h
      exact .opened new hr ha hnodup hclient
  · rename_i hr
    obtain ⟨⟨obj, maps⟩, horig, h⟩ := Option.bind_eq_some_iff.mp h
    obtain rfl : _ = t := by simpa using h
    cases ha : e.answer with
    | none =>
      obtain ⟨rfl, rfl⟩ : none = obj ∧ s.maps = maps := by simpa [origDlopen, ha] using horig
      exact .passOn _ hr List.prefix_rfl id
    | some new =>
      rw [ha] at horig
      obtain ⟨hnodup, -, hout⟩ := origDlopen_some horig
      obtain ⟨rfl, rfl⟩ := Prod.mk.inj hout
      exact .passOn _ hr (List.prefix_append _ _) fun _ => hnodup

theorem step_maps {cfg : Config} {s t : State c} {e : Open c} (h : step cfg s e = some t) :
    s.maps <+: t.maps := by
  cases step_effect h with
  | passOn maps hr hmaps hnodup => exact hmaps
  | abort hr ha hd => exact List.prefix_rfl
  | failed map hr ha hd => exact List.prefix_rfl
  | opened new hr ha hnodup hclient => exact List.prefix_append _ _

/-- No two objects of one name, and after an open of steamclient it is among them. -/
structure Inv (cfg : Config) (s : State c) : Prop where
  nodup : (names s.maps).Nodup
  client : s.opened = true → cfg.steamclient ∈ names s.maps

theorem names_mono {maps maps' : List (Loaded c)} (h : maps <+: maps') {lName : String}
    (hn : lName ∈ names maps) : lName ∈ names maps' :=
  (h.map fun o => o.map.lName).subset hn

theorem inv_step {cfg : Config} {s t : State c} {e : Open c} (hs : Inv cfg s)
    (h : step cfg s e = some t) : Inv cfg t := by
  have hmaps := step_maps h
  cases step_effect h with
  | passOn maps hr hmaps hnodup =>
    exact ⟨hnodup hs.nodup, fun ho => names_mono hmaps (hs.client ho)⟩
  | abort hr ha hd => exact ⟨hs.nodup, hs.client⟩
  | failed map hr ha hd => exact ⟨hs.nodup, hs.client⟩
  | opened new hr ha hnodup hclient => exact ⟨hnodup, fun _ => hclient⟩

theorem inv_run {cfg : Config} {maps : List (Loaded c)} (hnodup : (names maps).Nodup)
    {es : List (Open c)} {s : State c} (h : run (step cfg) (start maps) es = some s) : Inv cfg s :=
  run_invariant (Inv cfg) (fun _ _ _ hr he => inv_step hr he) ⟨hnodup, by simp [start]⟩ h

/-! An object has one call for each of its entries. -/

theorem arrayCalls_entries (mem : Nat → Nat) (table : Nat) (is : List Nat) :
    ((is.filterMap (arrayCall c mem table)).map Prod.fst).Sublist (is.map InitEntry.array) := by
  induction is with
  | nil => exact List.Sublist.slnil
  | cons i is ih =>
    by_cases h : mem (address c table (i * c.wordsize)) ≠ 0 ∧
        mem (address c table (i * c.wordsize)) ≠ 1
    · simpa [arrayCall, h] using ih
    · simpa [List.filterMap_cons, arrayCall, if_neg h] using ih.cons _

theorem initCalls_nodup (mem : Nat → Nat) (lAddr : Nat) (dyns : List Dyn) :
    ((initCalls c mem lAddr dyns).map Prod.fst).Nodup := by
  unfold initCalls
  generalize dyns.foldl (scan c lAddr) ⟨0, 0, 0⟩ = l
  have hsub := arrayCalls_entries (c := c) mem l.dtInitArray (List.range l.dtInitArraySize.toNat)
  have harray : ((List.range l.dtInitArraySize.toNat).map InitEntry.array).Nodup :=
    List.Pairwise.map _ (fun i j hne h => hne (InitEntry.array.inj h)) List.nodup_range
  have hinit : InitEntry.init ∉ (List.range l.dtInitArraySize.toNat).map InitEntry.array := by
    simp
  dsimp only
  by_cases h1 : l.dtInit ≠ 0
  · by_cases h2 : l.dtInitArray ≠ 0
    · rw [if_pos h1, if_pos h2, List.map_append, List.map_singleton, List.singleton_append,
        List.nodup_cons]
      exact ⟨fun h => hinit (hsub.subset h), harray.sublist hsub⟩
    · simp [h1, h2]
  · by_cases h2 : l.dtInitArray ≠ 0
    · rw [if_neg h1, if_pos h2, List.nil_append]
      exact harray.sublist hsub
    · simp [h1, h2]

def timesCalled (calls : List Call) (lName : String) (entry : InitEntry) : Nat :=
  calls.countP fun call => call.lName = lName ∧ call.entry = entry

theorem timesCalled_own (mem : Nat → Nat) (o : Loaded c) {call : Call}
    (hcall : call ∈ o.calls mem) : timesCalled (o.calls mem) o.map.lName call.entry = 1 := by
  have hcount : timesCalled (o.calls mem) o.map.lName call.entry =
      ((initCalls c mem o.map.lAddr o.dyns).map Prod.fst).count call.entry := by
    simp [timesCalled, Loaded.calls, LinkMap.calls, List.countP_map, List.count, Function.comp_def,
      beq_eq_decide]
  obtain ⟨own, hown, rfl⟩ := List.mem_map.mp hcall
  rw [hcount]
  exact List.count_eq_one_of_mem (initCalls_nodup mem _ _) (List.mem_map_of_mem hown)

theorem timesCalled_other (mem : Nat → Nat) (o : Loaded c) {lName : String}
    (hne : o.map.lName ≠ lName) (entry : InitEntry) :
    timesCalled (o.calls mem) lName entry = 0 := by
  apply List.countP_eq_zero.mpr
  intro call hcall
  obtain ⟨own, -, rfl⟩ := List.mem_map.mp hcall
  simp [hne]

theorem timesCalled_append (u v : List Call) (lName : String) (entry : InitEntry) :
    timesCalled (u ++ v) lName entry = timesCalled u lName entry + timesCalled v lName entry :=
  List.countP_append

/-- A walk calls each entry of an object it comes past once. -/
theorem timesCalled_walk (mem : Nat → Nat) {o : Loaded c} {call : Call} (hcall : call ∈ o.calls mem)
    {maps : List (Loaded c)} (hnodup : (names maps).Nodup)
    (hunique : ∀ x ∈ maps, x.map.lName = o.map.lName → x = o) :
    timesCalled (maps.flatMap (Loaded.calls mem)) o.map.lName call.entry =
      if o.map.lName ∈ names maps then 1 else 0 := by
  induction maps with
  | nil => rfl
  | cons x maps ih =>
    have hnext := ih (List.nodup_cons.mp hnodup).2
      fun y hy => hunique y (List.mem_cons_of_mem x hy)
    rw [List.flatMap_cons, timesCalled_append, hnext]
    by_cases hx : x.map.lName = o.map.lName
    · obtain rfl := hunique x List.mem_cons_self hx
      have hnot : x.map.lName ∉ names maps := (List.nodup_cons.mp hnodup).1
      have hin : x.map.lName ∈ names (x :: maps) := List.mem_cons_self
      rw [timesCalled_own mem x hcall, if_neg hnot, if_pos hin]
    · have hx' : o.map.lName ≠ x.map.lName := fun h => hx h.symm
      simp [timesCalled_other mem x hx, names, hx']

/-- `o` is the only object of its name. -/
structure Unique (o : Loaded c) (maps : List (Loaded c)) : Prop where
  nodup : (names maps).Nodup
  eq : ∀ x ∈ maps, x.map.lName = o.map.lName → x = o

theorem Unique.sublist {o : Loaded c} {maps maps' : List (Loaded c)} (h : Unique o maps')
    (hsub : maps.Sublist maps') : Unique o maps :=
  ⟨h.nodup.sublist (hsub.map _), fun x hx => h.eq x (hsub.subset hx)⟩

theorem Inv.unique {cfg : Config} {s : State c} (hs : Inv cfg s) {o : Loaded c} (ho : o ∈ s.maps) :
    Unique o s.maps :=
  ⟨hs.nodup, fun _ hx hname => List.inj_on_of_nodup_map hs.nodup hx ho hname⟩

theorem walk_sublist (maps : List (Loaded c)) (obj : String) : (walk maps obj).Sublist maps :=
  List.dropWhile_sublist _

theorem mem_names_walk {maps : List (Loaded c)} {obj : String} (h : obj ∈ names maps) :
    obj ∈ names (walk maps obj) := by
  induction maps with
  | nil => exact h
  | cons o maps ih =>
    by_cases ho : o.map.lName = obj
    · simp [walk, names, ho]
    · have hnext := ih (by simpa [names, ho, Ne.symm ho] using h)
      simpa [walk, ho] using hnext

/-- One call of dlopen calls an entry of steamclient once if it reaches it, and else not. -/
theorem timesCalled_step {cfg : Config} {o : Loaded c} (ho : o.map.lName = cfg.steamclient)
    {call : Call} (hcall : call ∈ o.calls cfg.mem) {s t : State c} {e : Open c}
    (h : step cfg s e = some t) (ht : Unique o t.maps) :
    timesCalled t.calls o.map.lName call.entry =
      timesCalled s.calls o.map.lName call.entry + if reaches cfg s e then 1 else 0 := by
  cases step_effect h with
  | passOn maps hr hmaps hnodup => simp [reaches, hr]
  | abort hr ha hd => simp [reaches, ha, hd]
  | failed map hr ha hd =>
    have hw := ht.sublist (walk_sublist s.maps map)
    have hcount := timesCalled_walk cfg.mem hcall hw.nodup hw.eq
    rw [ho] at hcount
    simp [timesCalled_append, hcount, reaches, hr, ha, hd, ho]
  | opened new hr ha hnodup hclient =>
    have hw := ht.sublist (walk_sublist (s.maps ++ new) cfg.steamclient)
    have hcount := timesCalled_walk cfg.mem hcall hw.nodup hw.eq
    rw [ho] at hcount
    have hin := mem_names_walk hclient
    simp [timesCalled_append, hcount, reaches, hr, ha, ho, hin]

theorem timesCalled_run {cfg : Config} {o : Loaded c} (ho : o.map.lName = cfg.steamclient)
    {call : Call} (hcall : call ∈ o.calls cfg.mem) {maps : List (Loaded c)} {es : List (Open c)}
    {s : State c} (h : run (step cfg) (start maps) es = some s) (hs : Unique o s.maps) :
    timesCalled s.calls o.map.lName call.entry =
      occurrences (step cfg) (fun r e => reaches cfg r e = true) (start maps) es := by
  have hrun : timesCalled s.calls o.map.lName call.entry =
      timesCalled (start maps).calls o.map.lName call.entry +
        occurrences (step cfg) (fun r e => reaches cfg r e = true) (start maps) es :=
    (run_measure (fun r => timesCalled r.calls o.map.lName call.entry) (fun r => Unique o r.maps)
      (fun r e t hstep ht => ht.sublist (step_maps hstep).sublist)
      (fun r e t hstep ht => timesCalled_step ho hcall hstep ht) h hs).1
  simpa [start, timesCalled] using hrun

/-- Without a call that reaches steamclient no dlopen has opened it. -/
theorem not_opened_of_no_reach {cfg : Config} {maps : List (Loaded c)} {es : List (Open c)}
    {s : State c} (h : run (step cfg) (start maps) es = some s)
    (hzero : occurrences (step cfg) (fun r e => reaches cfg r e = true) (start maps) es = 0) :
    s.opened = false := by
  refine meets_invariant (fun r : State c => r.opened = false) ?_ rfl
    (meets_of_occurrences_eq_zero hzero) h
  intro r e t hr hno he
  cases step_effect he with
  | passOn maps hr' hmaps hnodup => exact hr
  | abort hr' ha hd => exact hr
  | failed map hr' ha hd => exact hr
  | opened new hr' ha hnodup hclient => exact absurd (by simp [reaches, hr', ha]) hno

/-- What the loader of the system does for an object: no entry of steamclient is called twice,
and each has been called once a dlopen has opened it. -/
def InitialisedOnce (cfg : Config) (s : State c) : Prop :=
  (s.opened = true → cfg.steamclient ∈ names s.maps) ∧
    ∀ o ∈ s.maps, o.map.lName = cfg.steamclient → ∀ call ∈ o.calls cfg.mem,
      timesCalled s.calls cfg.steamclient call.entry ≤ 1 ∧
        (s.opened = true → timesCalled s.calls cfg.steamclient call.entry = 1)

/-- The initialisers of steamclient run as the loader would run them exactly when there are
none or at most one call of the run reaches it. -/
theorem initialised_once_iff (cfg : Config) (maps : List (Loaded c)) (hnodup : (names maps).Nodup)
    (es : List (Open c)) (s : State c) (h : run (step cfg) (start maps) es = some s) :
    InitialisedOnce cfg s ↔
      (∀ o ∈ s.maps, o.map.lName = cfg.steamclient → o.calls cfg.mem = []) ∨
        occurrences (step cfg) (fun r e => reaches cfg r e = true) (start maps) es ≤ 1 := by
  have hinv := inv_run hnodup h
  have hcount : ∀ o ∈ s.maps, o.map.lName = cfg.steamclient → ∀ call ∈ o.calls cfg.mem,
      timesCalled s.calls cfg.steamclient call.entry =
        occurrences (step cfg) (fun r e => reaches cfg r e = true) (start maps) es := by
    intro o ho hname call hcall
    have hrun := timesCalled_run hname hcall h (hinv.unique ho)
    rwa [hname] at hrun
  have hopened := not_opened_of_no_reach h
  generalize occurrences (step cfg) (fun r e => reaches cfg r e = true) (start maps) es = n at *
  constructor
  · intro ⟨_, honce⟩
    by_cases hn : n ≤ 1
    · exact Or.inr hn
    · refine Or.inl fun o ho hname => List.eq_nil_iff_forall_not_mem.mpr fun call hcall => ?_
      have hle := (honce o ho hname call hcall).1
      rw [hcount o ho hname call hcall] at hle
      exact hn hle
  · intro hor
    refine ⟨hinv.client, fun o ho hname call hcall => ?_⟩
    rw [hcount o ho hname call hcall]
    cases hor with
    | inl hnone => simp [hnone o ho hname] at hcall
    | inr hn =>
      refine ⟨hn, fun hop => ?_⟩
      have hpos : n ≠ 0 := fun hz => by simp [hopened hz] at hop
      omega

def wineConfig : Config where
  steamclientPath := "steamclient.so"
  steamclientAlt := "alt.so"
  resolve path := path.getD "wine"
  dlinfoNull := some "dt_init-fix.so"
  mem _ := 0

def wrapperObject : Loaded .elf32 :=
  ⟨⟨"dt_init-fix.so", 0x800, sectionBytes .elf32 [⟨0, 0⟩]⟩, [], by decide⟩

def clientObject : Loaded .elf32 :=
  ⟨⟨"alt.so", 0x1000, sectionBytes .elf32 [⟨0x42420000 + dtInit, 0x20⟩, ⟨0, 0⟩]⟩,
    [⟨0x42420000 + dtInit, 0x20⟩], by decide⟩

def wineOpens : List (Open .elf32) :=
  [⟨some "steamclient.so", true, none⟩, ⟨some "steamclient.so", false, some [clientObject]⟩,
    ⟨some "alt.so", false, some []⟩]

theorem initialised_once_client :
    ∃ s, run (step wineConfig) (start [wrapperObject]) wineOpens = some s ∧
      s.opened = true ∧ InitialisedOnce wineConfig s := by
  have hnodup : (names [wrapperObject]).Nodup := by decide
  refine ⟨_, rfl, rfl, (initialised_once_iff wineConfig [wrapperObject] hnodup wineOpens _ rfl).mpr
    (Or.inr ?_)⟩
  decide

/-- The second successful open runs DT_INIT of steamclient again. -/
theorem second_open_initialises_again :
    ∃ s, run (step wineConfig) (start [wrapperObject])
        [⟨some "steamclient.so", false, some [clientObject]⟩,
          ⟨some "steamclient.so", false, some []⟩] = some s ∧
      ¬ InitialisedOnce wineConfig s := by
  refine ⟨_, rfl, fun ⟨_, honce⟩ => ?_⟩
  have htwice := (honce clientObject (by simp) rfl ⟨"alt.so", .init, 0x1020⟩ (by decide)).1
  revert htwice
  decide

end LSU.Dlopen
