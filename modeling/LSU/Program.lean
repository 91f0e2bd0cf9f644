/-! Programs that put questions to the outside world and go on with the answers, as trees, and
scripts: programs with variables and exceptions. A program is run on a history of turns, so a
statement about every history is one about every behaviour of the outside world. -/
namespace LSU.Program
variable {Op : Type} {Answer : Op → Type} {σ ε α β : Type}

inductive Prog (Answer : Op → Type) (α : Type) where
  | pure (a : α)
  | call (op : Op) (next : Answer op → Prog Answer α)

def Prog.bind : Prog Answer α → (α → Prog Answer β) → Prog Answer β
  | .pure a, f => f a
  | .call op next, f => .call op fun answer => (next answer).bind f

/-- A question and the answer to it. -/
abbrev Turn (Answer : Op → Type) := Sigma Answer

/-- `Feeds p tr q`: after the turns `tr` what is left of `p` is `q`. -/
inductive Feeds : Prog Answer α → List (Turn Answer) → Prog Answer α → Prop
  | nil (p : Prog Answer α) : Feeds p [] p
  | cons {op : Op} {next : Answer op → Prog Answer α} (answer : Answer op)
      {tr : List (Turn Answer)} {q : Prog Answer α} (h : Feeds (next answer) tr q) :
      Feeds (.call op next) (⟨op, answer⟩ :: tr) q

theorem Feeds.concat {p : Prog Answer α} {tr : List (Turn Answer)} {op : Op}
    {next : Answer op → Prog Answer α} (h : Feeds p tr (.call op next)) (answer : Answer op) :
    Feeds p (tr ++ [⟨op, answer⟩]) (next answer) := by
  generalize hq : Prog.call op next = q at h
  induction h with
  | nil p => exact hq ▸ .cons answer (.nil _)
  | cons a h ih => exact .cons a (ih hq)

theorem feeds_pure {a : α} {tr : List (Turn Answer)} {q : Prog Answer α} :
    Feeds (.pure a) tr q ↔ tr = [] ∧ q = .pure a := by
  constructor
  · intro h
    cases h
    exact ⟨rfl, rfl⟩
  · rintro ⟨rfl, rfl⟩
    exact .nil _

/-- A sequence ends where its first part has ended and then its second. -/
theorem feeds_bind {p : Prog Answer α} {f : α → Prog Answer β} {tr : List (Turn Answer)} {b : β} :
    Feeds (p.bind f) tr (.pure b) ↔
      ∃ u v a, tr = u ++ v ∧ Feeds p u (.pure a) ∧ Feeds (f a) v (.pure b) := by
  induction p generalizing tr with
  | pure a =>
    constructor
    · intro h
      exact ⟨[], tr, a, rfl, .nil _, h⟩
    · rintro ⟨u, v, a', rfl, hu, hv⟩
      obtain ⟨rfl, ha⟩ := feeds_pure.mp hu
      obtain rfl := Prog.pure.inj ha
      exact hv
  | call op next ih =>
    constructor
    · intro h
      cases h with
      | cons answer h =>
        obtain ⟨u, v, a, rfl, hu, hv⟩ := (ih answer).mp h
        exact ⟨⟨op, answer⟩ :: u, v, a, rfl, .cons answer hu, hv⟩
    · rintro ⟨u, v, a, rfl, hu, hv⟩
      cases hu with
      | cons answer hu => exact .cons answer ((ih answer).mpr ⟨_, v, a, rfl, hu, hv⟩)

/-- The turns of a program, `n` of them at most, with a world that gives to a question always the
same answer, and what is left of the program. -/
def Prog.play (world : ∀ op, Answer op) : Nat → Prog Answer α → List (Turn Answer) × Prog Answer α
  | 0, p => ([], p)
  | _ + 1, .pure a => ([], .pure a)
  | n + 1, .call op next =>
    let (tr, q) := Prog.play world n (next (world op))
    (⟨op, world op⟩ :: tr, q)

theorem feeds_play (world : ∀ op, Answer op) (n : Nat) (p : Prog Answer α) :
    Feeds p (p.play world n).1 (p.play world n).2 := by
  induction n generalizing p with
  | zero => exact .nil p
  | succ n ih =>
    cases p with
    | pure a => exact .nil _
    | call op next => exact .cons (world op) (ih (next (world op)))

theorem mem_play {world : ∀ op, Answer op} {n : Nat} {p : Prog Answer α} {turn : Turn Answer}
    (h : turn ∈ (p.play world n).1) : turn = ⟨turn.1, world turn.1⟩ := by
  induction n generalizing p with
  | zero => exact absurd h List.not_mem_nil
  | succ n ih =>
    cases p with
    | pure a => exact absurd h List.not_mem_nil
    | call op next =>
      cases h with
      | head => rfl
      | tail _ h => exact ih h

/-- Every question a program can put is of a kind. -/
def Prog.Calls (kind : Op → Prop) : Prog Answer α → Prop
  | .pure _ => True
  | .call op next => kind op ∧ ∀ answer, (next answer).Calls kind

theorem Prog.Calls.bind {kind : Op → Prop} {p : Prog Answer α} {f : α → Prog Answer β}
    (hp : p.Calls kind) (hf : ∀ a, (f a).Calls kind) : (p.bind f).Calls kind := by
  induction p with
  | pure a => exact hf a
  | call op next ih => exact ⟨hp.1, fun answer => ih answer (hp.2 answer)⟩

theorem Prog.Calls.feeds {kind : Op → Prop} {p q : Prog Answer α} {tr : List (Turn Answer)}
    (hp : p.Calls kind) (h : Feeds p tr q) : q.Calls kind := by
  induction h with
  | nil p => exact hp
  | cons answer h ih => exact ih (hp.2 answer)

/-- One answer of the world: the turn, and how the program goes on. -/
def Prog.reply (world : ∀ op, Answer op) : Prog Answer α → Option (Turn Answer × Prog Answer α)
  | .pure _ => none
  | .call op next => some (⟨op, world op⟩, next (world op))

theorem Feeds.reply {world : ∀ op, Answer op} {p q r : Prog Answer α} {tr : List (Turn Answer)}
    {turn : Turn Answer} (h : Feeds p tr q) (hr : q.reply world = some (turn, r)) :
    Feeds p (tr ++ [turn]) r := by
  cases q with
  | pure a => exact absurd hr (by simp [Prog.reply])
  | call op next =>
    obtain ⟨rfl, rfl⟩ := Prod.mk.inj (Option.some.inj hr)
    exact h.concat (world op)

theorem Prog.Calls.reply {kind : Op → Prop} {world : ∀ op, Answer op} {p q : Prog Answer α}
    {turn : Turn Answer} (hp : p.Calls kind) (hr : p.reply world = some (turn, q)) :
    kind turn.1 ∧ q.Calls kind := by
  cases p with
  | pure a => exact absurd hr (by simp [Prog.reply])
  | call op next =>
    obtain ⟨rfl, rfl⟩ := Prod.mk.inj (Option.some.inj hr)
    exact ⟨hp.1, hp.2 (world op)⟩

/-- A program with variables, which keep their values when it raises. -/
def Script (Answer : Op → Type) (σ ε α : Type) := σ → Prog Answer (Except ε α × σ)

namespace Script

instance : Monad (Script Answer σ ε) where
  pure a := fun v => .pure (.ok a, v)
  bind c f := fun v => (c v).bind fun
    | (.ok a, w) => f a w
    | (.error e, w) => .pure (.error e, w)

def ask (op : Op) : Script Answer σ ε (Answer op) :=
  fun v => .call op fun answer => .pure (.ok answer, v)

def raise (e : ε) : Script Answer σ ε α := fun v => .pure (.error e, v)

def vars : Script Answer σ ε σ := fun v => .pure (.ok v, v)

def modify (f : σ → σ) : Script Answer σ ε Unit := fun v => .pure (.ok (), f v)

/-- Turns an exception into a value. -/
def attempt (c : Script Answer σ ε α) : Script Answer σ ε (Except ε α) :=
  fun v => (c v).bind fun out => .pure (.ok out.1, out.2)

/-- The script ends after the turns, with a result and these variables. -/
def Ends (c : Script Answer σ ε α) (v : σ) (tr : List (Turn Answer)) (r : Except ε α) (w : σ) :
    Prop := Feeds (c v) tr (.pure (r, w))

theorem ends_play {world : ∀ op, Answer op} (n : Nat) {c : Script Answer σ ε α} {v w : σ}
    {r : Except ε α} (h : ((c v).play world n).2 = .pure (r, w)) :
    Ends c v ((c v).play world n).1 r w := by
  have hfeeds := feeds_play world n (c v)
  rwa [h] at hfeeds

theorem ends_bind {c : Script Answer σ ε α} {f : α → Script Answer σ ε β} {v w : σ}
    {tr : List (Turn Answer)} {r : Except ε β} :
    Ends (c >>= f) v tr r w ↔
      (∃ u u' a x, tr = u ++ u' ∧ Ends c v u (.ok a) x ∧ Ends (f a) x u' r w) ∨
        ∃ e, r = .error e ∧ Ends c v tr (.error e) w := by
  refine feeds_bind.trans ⟨?_, ?_⟩
  · rintro ⟨u, u', ⟨a | a, x⟩, rfl, hu, hv⟩
    · obtain ⟨rfl, hw⟩ := feeds_pure.mp hv
      obtain ⟨rfl, rfl⟩ := Prod.mk.inj (Prog.pure.inj hw)
      exact Or.inr ⟨a, rfl, by simpa [Ends] using hu⟩
    · exact Or.inl ⟨u, u', a, x, rfl, hu, hv⟩
  · rintro (⟨u, u', a, x, rfl, hu, hv⟩ | ⟨e, rfl, h⟩)
    · exact ⟨u, u', (.ok a, x), rfl, hu, hv⟩
    · exact ⟨tr, [], (.error e, w), by simp, h, .nil _⟩

theorem ends_silent {c : Script Answer σ ε α} {out : σ → Except ε α × σ}
    (hc : ∀ v, c v = .pure (out v)) {v w : σ} {tr : List (Turn Answer)} {r : Except ε α} :
    Ends c v tr r w ↔ tr = [] ∧ r = (out v).1 ∧ w = (out v).2 := by
  rw [Ends, hc v]
  refine feeds_pure.trans (and_congr_right fun _ => ?_)
  constructor
  · intro h
    have hout := Prog.pure.inj h
    exact ⟨congrArg Prod.fst hout, congrArg Prod.snd hout⟩
  · intro ⟨hr, hw⟩
    rw [hr, hw]

theorem ends_pure {a : α} {v w : σ} {tr : List (Turn Answer)} {r : Except ε α} :
    Ends (pure a) v tr r w ↔ tr = [] ∧ r = .ok a ∧ w = v :=
  ends_silent fun _ => rfl

theorem ends_modify {f : σ → σ} {v w : σ} {tr : List (Turn Answer)} {r : Except ε Unit} :
    Ends (modify f) v tr r w ↔ tr = [] ∧ r = .ok () ∧ w = f v :=
  ends_silent fun _ => rfl

theorem ends_vars {v w : σ} {tr : List (Turn Answer)} {r : Except ε σ} :
    Ends vars v tr r w ↔ tr = [] ∧ r = .ok v ∧ w = v :=
  ends_silent fun _ => rfl

/-- A sequence that ends normally has ended normally in both of its parts. -/
theorem ends_bind_ok {c : Script Answer σ ε α} {f : α → Script Answer σ ε β} {v w : σ}
    {tr : List (Turn Answer)} {b : β} (h : Ends (c >>= f) v tr (.ok b) w) :
    ∃ u u' a x, tr = u ++ u' ∧ Ends c v u (.ok a) x ∧ Ends (f a) x u' (.ok b) w := by
  obtain hok | ⟨e, he, -⟩ := ends_bind.mp h
  · exact hok
  · cases he

/-- Every question of the script is of a kind, whatever the variables. -/
def Calls (kind : Op → Prop) (c : Script Answer σ ε α) : Prop := ∀ v, (c v).Calls kind

section Calls
variable {kind : Op → Prop} {c : Script Answer σ ε α}

theorem Calls.bind {f : α → Script Answer σ ε β} (hc : c.Calls kind)
    (hf : ∀ a, (f a).Calls kind) : (c >>= f).Calls kind := by
  refine fun v => Prog.Calls.bind (hc v) fun out => ?_
  obtain ⟨a | e, w⟩ := out
  · exact trivial
  · exact hf _ w

theorem Calls.attempt (hc : c.Calls kind) : (attempt c).Calls kind :=
  fun v => Prog.Calls.bind (hc v) fun _ => trivial

theorem Calls.ask {op : Op} (h : kind op) :
    (ask op : Script Answer σ ε (Answer op)).Calls kind := fun _ => ⟨h, fun _ => trivial⟩

theorem Calls.forM {f : β → Script Answer σ ε Unit} (l : List β) (hf : ∀ b, (f b).Calls kind) :
    (l.forM f).Calls kind := by
  induction l with
  | nil => exact fun _ => trivial
  | cons b l ih => exact .bind (hf b) fun _ => ih

end Calls

/-- Pre- and postconditions on the variables and the history of all turns so far. -/
def Triple (P : σ → List (Turn Answer) → Prop) (c : Script Answer σ ε α)
    (Q : α → σ → List (Turn Answer) → Prop) (E : ε → σ → List (Turn Answer) → Prop) : Prop :=
  ∀ v hist, P v hist → ∀ tr r w, Ends c v tr r w →
    match r with
    | .ok a => Q a w (hist ++ tr)
    | .error e => E e w (hist ++ tr)

variable {P : σ → List (Turn Answer) → Prop} {Q Q' : α → σ → List (Turn Answer) → Prop}
  {E E' : ε → σ → List (Turn Answer) → Prop} {R : β → σ → List (Turn Answer) → Prop}

theorem Triple.conseq {P' : σ → List (Turn Answer) → Prop} {c : Script Answer σ ε α}
    (h : Triple P c Q E) (hP : ∀ v hist, P' v hist → P v hist)
    (hQ : ∀ a v hist, Q a v hist → Q' a v hist) (hE : ∀ e v hist, E e v hist → E' e v hist) :
    Triple P' c Q' E' := by
  intro v hist hpre tr r w hends
  have hpost := h v hist (hP v hist hpre) tr r w hends
  cases r with
  | ok a => exact hQ a w _ hpost
  | error e => exact hE e w _ hpost

theorem Triple.exists {ι : Type} {P : ι → σ → List (Turn Answer) → Prop}
    {c : Script Answer σ ε α} (h : ∀ i, Triple (P i) c Q E) :
    Triple (fun v hist => ∃ i, P i v hist) c Q E := by
  intro v hist hpre tr r w hends
  obtain ⟨i, hi⟩ := hpre
  exact h i v hist hi tr r w hends

theorem Triple.bind {c : Script Answer σ ε α} {f : α → Script Answer σ ε β}
    (hc : Triple P c Q E) (hf : ∀ a, Triple (Q a) (f a) R E) : Triple P (c >>= f) R E := by
  intro v hist hP tr r w h
  obtain ⟨u, u', a, x, rfl, hu, hu'⟩ | ⟨e, rfl, herr⟩ := ends_bind.mp h
  · have hQ : Q a x (hist ++ u) := hc v hist hP u (.ok a) x hu
    have hR := hf a x (hist ++ u) hQ u' r w hu'
    rwa [List.append_assoc] at hR
  · exact hc v hist hP tr (.error e) w herr

/-- A script without questions: what follows from the precondition. -/
theorem Triple.silent {c : Script Answer σ ε α} {out : σ → Except ε α × σ}
    (hc : ∀ v, c v = .pure (out v))
    (h : ∀ v hist, P v hist → match (out v).1 with
      | .ok a => Q a (out v).2 hist
      | .error e => E e (out v).2 hist) : Triple P c Q E := by
  intro v hist hP tr r w hends
  rw [Ends, hc v, feeds_pure] at hends
  obtain ⟨rfl, hw⟩ := hends
  have hout := Prog.pure.inj hw
  have hpost := h v hist hP
  rw [← hout] at hpost
  simpa using hpost

theorem Triple.pure (a : α) (h : ∀ v hist, P v hist → Q a v hist) :
    Triple P (pure a : Script Answer σ ε α) Q E :=
  .silent (fun _ => rfl) h

theorem Triple.raise (e : ε) (h : ∀ v hist, P v hist → E e v hist) :
    Triple P (raise e : Script Answer σ ε α) Q E :=
  .silent (fun _ => rfl) h

theorem Triple.modify (f : σ → σ) {Q : Unit → σ → List (Turn Answer) → Prop}
    (h : ∀ v hist, P v hist → Q () (f v) hist) :
    Triple P (modify f : Script Answer σ ε Unit) Q E :=
  .silent (fun _ => rfl) h

theorem Triple.vars {Q : σ → σ → List (Turn Answer) → Prop}
    (h : ∀ v hist, P v hist → Q v v hist) : Triple P (vars : Script Answer σ ε σ) Q E :=
  .silent (fun _ => rfl) h

theorem Triple.ask (op : Op) {Q : Answer op → σ → List (Turn Answer) → Prop}
    (h : ∀ answer v hist, P v hist → Q answer v (hist ++ [⟨op, answer⟩])) :
    Triple P (ask op : Script Answer σ ε (Answer op)) Q E := by
  intro v hist hP tr r w hends
  cases hends with
  | cons answer hends =>
    obtain ⟨rfl, hw⟩ := feeds_pure.mp hends
    obtain ⟨rfl, rfl⟩ := Prod.mk.inj (Prog.pure.inj hw)
    exact h answer _ hist hP

theorem Triple.attempt {c : Script Answer σ ε α} {S : Except ε α → σ → List (Turn Answer) → Prop}
    (hc : Triple P c (fun a => S (.ok a)) fun e => S (.error e)) : Triple P (attempt c) S E' := by
  intro v hist hP tr r w hends
  obtain ⟨u, u', ⟨out, x⟩, rfl, hu, hu'⟩ := feeds_bind.mp hends
  obtain ⟨rfl, hw⟩ := feeds_pure.mp hu'
  obtain ⟨rfl, rfl⟩ := Prod.mk.inj (Prog.pure.inj hw)
  have hpost := hc v hist hP u out w hu
  cases out with
  | ok a => simpa using hpost
  | error e => simpa using hpost

theorem Triple.forM {f : β → Script Answer σ ε Unit} (l : List β)
    (hf : ∀ b ∈ l, Triple P (f b) (fun _ => P) E) : Triple P (l.forM f) (fun _ => P) E := by
  induction l with
  | nil => exact .pure _ fun _ _ h => h
  | cons b l ih =>
    exact .bind (hf b List.mem_cons_self) fun _ => ih fun x hx => hf x (List.mem_cons_of_mem b hx)

/-- Whatever comes of the script, the variables still are as they were in this respect. -/
def Keeps (I : σ → Prop) (c : Script Answer σ ε α) : Prop :=
  Triple (fun v _ => I v) c (fun _ v _ => I v) fun _ v _ => I v

section Keeps
variable {I : σ → Prop}

theorem Keeps.pure (a : α) : Keeps I (pure a : Script Answer σ ε α) := Triple.pure a fun _ _ h => h

theorem Keeps.raise (e : ε) : Keeps I (raise e : Script Answer σ ε α) :=
  Triple.raise e fun _ _ h => h

theorem Keeps.ask (op : Op) : Keeps I (ask op : Script Answer σ ε (Answer op)) :=
  Triple.ask op fun _ _ _ h => h

theorem Keeps.modify (f : σ → σ) (h : ∀ v, I v → I (f v)) :
    Keeps I (modify f : Script Answer σ ε Unit) := Triple.modify f fun v _ hv => h v hv

theorem Keeps.bind {c : Script Answer σ ε α} {f : α → Script Answer σ ε β} (hc : Keeps I c)
    (hf : ∀ a, Keeps I (f a)) : Keeps I (c >>= f) := Triple.bind hc hf

theorem Keeps.attempt {c : Script Answer σ ε α} (hc : Keeps I c) : Keeps I (attempt c) :=
  Triple.attempt (S := fun _ v _ => I v) hc

end Keeps

/-- What one pass puts into the history, and later turns do not take back, is there after the
loop for each of its passes. -/
theorem Triple.forM_each {H : β → List (Turn Answer) → Prop}
    (hmono : ∀ b hist tr, H b hist → H b (hist ++ tr)) {f : β → Script Answer σ ε Unit}
    (l : List β)
    (hf : ∀ b ∈ l, Triple (fun _ _ => True) (f b) (fun _ _ => H b) fun _ _ _ => True) :
    Triple (fun _ _ => True) (l.forM f) (fun _ _ hist => ∀ b ∈ l, H b hist)
      fun _ _ _ => True := by
  induction l with
  | nil => exact .pure _ fun _ _ _ => nofun
  | cons b l ih =>
    refine .bind (hf b List.mem_cons_self) fun _ v hist hb tr r w hends => ?_
    have hrest := ih (fun x hx => hf x (List.mem_cons_of_mem b hx)) v hist trivial tr r w hends
    cases r with
    | ok a => exact List.forall_mem_cons.mpr ⟨hmono b hist tr hb, hrest⟩
    | error e => trivial

end Script
end LSU.Program
