import Mathlib.Logic.Function.Basic

/-! Entries at paths, some of them links to other paths. Paths, contents and the texts of links
are arbitrary, and so is where a text at a path leads. -/
namespace LSU.Links
variable {P C L : Type*}

inductive Node (C L : Type*) where
  | dir
  | file (content : C)
  | link (text : L)
deriving DecidableEq

abbrev Store (P C L : Type*) := P → Option (Node C L)

variable (leads : P → L → P)

/-- Where a path ends when at most `n` links are followed. -/
def follow (s : Store P C L) : Nat → P → Option P
  | 0, p =>
    match s p with
    | some (.link _) => none
    | _ => some p
  | n + 1, p =>
    match s p with
    | some (.link text) => follow s n (leads p text)
    | _ => some p

def content (s : Store P C L) (p : P) : Option C :=
  match s p with
  | some (.file c) => some c
  | _ => none

def read (s : Store P C L) (n : Nat) (p : P) : Option C := (follow leads s n p).bind (content s)

variable {leads} {s t : Store P C L} {p q : P} {n : Nat}

theorem follow_of_not_link (h : ∀ text, s p ≠ some (.link text)) : follow leads s n p = some p := by
  cases n with
  | zero =>
    rw [follow]
    split
    · rename_i hlink
      exact absurd hlink (h _)
    · rfl
  | succ n =>
    rw [follow]
    split
    · rename_i hlink
      exact absurd hlink (h _)
    · rfl

/-- A set of paths that the links in it do not lead out of. -/
def Closed (leads : P → L → P) (K : P → Prop) (s : Store P C L) : Prop :=
  ∀ p text, K p → s p = some (.link text) → K (leads p text)

theorem Closed.follow {K : P → Prop} (hK : Closed leads K s) (hp : K p)
    (h : follow leads s n p = some q) : K q := by
  induction n generalizing p with
  | zero =>
    rw [Links.follow] at h
    split at h
    · cases h
    · exact Option.some.inj h ▸ hp
  | succ n ih =>
    rw [Links.follow] at h
    split at h
    · rename_i text hlink
      exact ih (hK p text hp hlink) h
    · exact Option.some.inj h ▸ hp

/-- Links in a copy of a closed set lead where they led. -/
theorem follow_copy {K : P → Prop} {f : P → P} (hK : Closed leads K s)
    (hcopy : ∀ p, K p → t (f p) = s p)
    (hleads : ∀ p text, K p → s p = some (.link text) → leads (f p) text = f (leads p text))
    (hp : K p) : follow leads t n (f p) = (follow leads s n p).map f := by
  induction n generalizing p with
  | zero =>
    rw [follow, follow, hcopy p hp]
    split <;> rfl
  | succ n ih =>
    rw [follow, follow, hcopy p hp]
    split
    · rename_i text hlink
      rw [hleads p text hp hlink]
      exact ih (hK p text hp hlink)
    · rfl

theorem read_copy {K : P → Prop} {f : P → P} (hK : Closed leads K s)
    (hcopy : ∀ p, K p → t (f p) = s p)
    (hleads : ∀ p text, K p → s p = some (.link text) → leads (f p) text = f (leads p text))
    (hp : K p) : read leads t n (f p) = read leads s n p := by
  rw [read, read, follow_copy hK hcopy hleads hp]
  cases hq : follow leads s n p with
  | none => rfl
  | some q => simp [content, hcopy q (hK.follow hp hq)]

end LSU.Links
