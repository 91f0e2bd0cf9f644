import LSU.Links

/-! Paths walked from one directory to the next, up again, and through the links on the way. -/
namespace LSU.Walk
open LSU.Links
variable {N C L : Type*}

/-- What stands between two slashes. -/
inductive Piece (N : Type*) where
  | same
  | up
  | name (name : N)
deriving DecidableEq

/-- How the text of a link is read. -/
structure Reading (N L : Type*) where
  absolute : L → Bool
  pieces : L → List (Piece N)

abbrev Tree (N C L : Type*) := Store (List N) C L

/-- Everything there is in `s` is the same in `t`. -/
def Extends (s t : Tree N C L) : Prop := ∀ p node, s p = some node → t p = some node

theorem Extends.refl (s : Tree N C L) : Extends s s := fun _ _ h => h

theorem Extends.trans {s t u : Tree N C L} (h : Extends s t) (h' : Extends t u) : Extends s u :=
  fun p node hp => h' p node (h p node hp)

section Walk
variable [DecidableEq N] (reading : Reading N L) (root : List N)

/-- The walk up to a link; `next` goes on behind it. -/
def walkWith (next : List N → List (Piece N) → Option (List N)) (s : Tree N C L) :
    List N → List (Piece N) → Option (List N)
  | cur, [] => some cur
  | cur, .same :: rest => walkWith next s cur rest
  | cur, .up :: rest => walkWith next s (if cur = root then root else cur.dropLast) rest
  | cur, .name name :: rest =>
    match s (cur ++ [name]) with
    | none => none
    | some .dir => walkWith next s (cur ++ [name]) rest
    | some (.file _) => if rest.isEmpty then some (cur ++ [name]) else none
    | some (.link text) =>
      next (if reading.absolute text then root else cur) (reading.pieces text ++ rest)

/-- The walk with at most `n` links. -/
def walk (s : Tree N C L) : Nat → List N → List (Piece N) → Option (List N)
  | 0 => walkWith reading root (fun _ _ => none) s
  | n + 1 => walkWith reading root (walk s n) s

variable {reading root} {s t : Tree N C L} {cur q : List N} {rest : List (Piece N)} {n : Nat}

theorem walkWith_extends {next next' : List N → List (Piece N) → Option (List N)}
    (h : Extends s t) (hnext : ∀ cur rest q, next cur rest = some q → next' cur rest = some q)
    (hwalk : walkWith reading root next s cur rest = some q) :
    walkWith reading root next' t cur rest = some q := by
  induction rest generalizing cur with
  | nil => exact hwalk
  | cons piece rest ih =>
    cases piece with
    | same => exact ih hwalk
    | up => exact ih hwalk
    | name name =>
      rw [walkWith] at hwalk ⊢
      cases hnode : s (cur ++ [name]) with
      | none =>
        rw [hnode] at hwalk
        cases hwalk
      | some node =>
        rw [hnode] at hwalk
        rw [h _ node hnode]
        cases node with
        | dir => exact ih hwalk
        | file text => exact hwalk
        | link text => exact hnext _ _ q hwalk

/-- A path that leads somewhere leads there after the addition of entries. -/
theorem walk_extends (h : Extends s t) (hwalk : walk reading root s n cur rest = some q) :
    walk reading root t n cur rest = some q := by
  induction n generalizing cur rest q with
  | zero => exact walkWith_extends h (fun _ _ _ hnone => hnone) hwalk
  | succ n ih => exact walkWith_extends h (fun _ _ _ => ih) hwalk

theorem walk_up (h : cur ≠ root) :
    walk reading root s n cur (.up :: rest) = walk reading root s n cur.dropLast rest := by
  cases n <;> simp [walk, walkWith, h]

theorem walk_dir {name : N} (h : s (cur ++ [name]) = some .dir) :
    walk reading root s n cur (.name name :: rest) =
      walk reading root s n (cur ++ [name]) rest := by
  cases n <;> simp [walk, walkWith, h]

theorem walk_none {name : N} (h : s (cur ++ [name]) = none) :
    walk reading root s n cur (.name name :: rest) = none := by
  cases n <;> simp [walk, walkWith, h]

theorem walk_link {name : N} {text : L} (h : s (cur ++ [name]) = some (.link text))
    (habs : reading.absolute text = false) :
    walk reading root s (n + 1) cur (.name name :: rest) =
      walk reading root s n cur (reading.pieces text ++ rest) := by
  simp [walk, walkWith, h, habs]

/-- A way without links. -/
inductive Way (root : List N) (s : Tree N C L) : List N → List (Piece N) → List N → Prop
  | here (cur : List N) : Way root s cur [] cur
  | up {cur base : List N} {pieces : List (Piece N)} (h : cur ≠ root)
      (way : Way root s cur.dropLast pieces base) : Way root s cur (.up :: pieces) base
  | dir {cur base : List N} {name : N} {pieces : List (Piece N)}
      (h : s (cur ++ [name]) = some .dir) (way : Way root s (cur ++ [name]) pieces base) :
      Way root s cur (.name name :: pieces) base

omit [DecidableEq N] in
theorem Way.extends {pieces : List (Piece N)} {base : List N} (h : Extends s t)
    (way : Way root s cur pieces base) : Way root t cur pieces base := by
  induction way with
  | here cur => exact .here cur
  | up hne _ ih => exact .up hne ih
  | dir hdir _ ih => exact .dir (h _ _ hdir) ih

/-- What comes behind a way goes on from its end. -/
theorem Way.walk {pieces : List (Piece N)} {base : List N} (way : Way root s cur pieces base) :
    walk reading root s n cur (pieces ++ rest) = walk reading root s n base rest := by
  induction way with
  | here cur => rfl
  | up hne _ ih => rw [List.cons_append, walk_up hne, ih]
  | dir hdir _ ih => rw [List.cons_append, walk_dir hdir, ih]

end Walk
end LSU.Walk
