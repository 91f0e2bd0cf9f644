import Mathlib.Data.List.Nodup
import Mathlib.Tactic.Common

/-! JSON texts of objects and strings without escapes: the grammar, and a parser that reads
every text of it. -/
namespace LSU.Json

abbrev Str := List Char

mutual
inductive Value where
  | str (s : Str)
  | obj (members : Members)
deriving DecidableEq
/-- The members of an object, in order. -/
inductive Members where
  | nil
  | cons (key : Str) (value : Value) (rest : Members)
deriving DecidableEq
end

def Members.keys : Members → List Str
  | .nil => []
  | .cons key _ rest => key :: rest.keys

/-- The member of a key. -/
def Members.get? (key : Str) : Members → Option Value
  | .nil => none
  | .cons k v rest => if k = key then some v else rest.get? key

def isWs (c : Char) : Bool := c = ' ' || c = '\t' || c = '\n' || c = '\r'

/-- A character that stands for itself in a string. -/
def Plain (c : Char) : Prop := c ≠ '"' ∧ c ≠ '\\' ∧ 0x20 ≤ c.toNat

instance (c : Char) : Decidable (Plain c) := inferInstanceAs (Decidable (_ ∧ _))

/-- `Reads text sym rest`: a value, or the members of an object with its closing brace, stands
at the front of `text` and leaves `rest`. -/
inductive Reads : Str → Value ⊕ Members → Str → Prop
  | ws {c : Char} {text : Str} {v : Value} {rest : Str} (hc : isWs c = true)
      (hv : Reads text (.inl v) rest) : Reads (c :: text) (.inl v) rest
  | str {s rest : Str} (hs : ∀ c ∈ s, Plain c) :
      Reads ('"' :: (s ++ '"' :: rest)) (.inl (.str s)) rest
  | empty {ws rest : Str} (hws : ∀ c ∈ ws, isWs c = true) :
      Reads ('{' :: (ws ++ '}' :: rest)) (.inl (.obj .nil)) rest
  | obj {body rest : Str} {ms : Members} (hk : ms.keys.Nodup) (hm : Reads body (.inr ms) rest) :
      Reads ('{' :: body) (.inl (.obj ms)) rest
  | one {ws key ws' text ws'' rest : Str} {v : Value} (hws : ∀ c ∈ ws, isWs c = true)
      (hkey : ∀ c ∈ key, Plain c) (hws' : ∀ c ∈ ws', isWs c = true)
      (hws'' : ∀ c ∈ ws'', isWs c = true) (hv : Reads text (.inl v) (ws'' ++ '}' :: rest)) :
      Reads (ws ++ '"' :: (key ++ '"' :: (ws' ++ ':' :: text))) (.inr (.cons key v .nil)) rest
  | cons {ws key ws' text ws'' body rest : Str} {v : Value} {ms : Members}
      (hws : ∀ c ∈ ws, isWs c = true) (hkey : ∀ c ∈ key, Plain c)
      (hws' : ∀ c ∈ ws', isWs c = true) (hws'' : ∀ c ∈ ws'', isWs c = true)
      (hv : Reads text (.inl v) (ws'' ++ ',' :: body)) (hm : Reads body (.inr ms) rest) :
      Reads (ws ++ '"' :: (key ++ '"' :: (ws' ++ ':' :: text))) (.inr (.cons key v ms)) rest

theorem Reads.spaces (ws : Str) {text rest : Str} {v : Value} (hws : ∀ c ∈ ws, isWs c = true)
    (hv : Reads text (.inl v) rest) : Reads (ws ++ text) (.inl v) rest := by
  induction ws with
  | nil => exact hv
  | cons c ws ih =>
    exact .ws (hws c List.mem_cons_self) (ih fun x hx => hws x (List.mem_cons_of_mem c hx))

/-- The text of a value, with white space around it. -/
def Denotes (text : Str) (v : Value) : Prop :=
  ∃ rest, Reads text (.inl v) rest ∧ ∀ c ∈ rest, isWs c = true

def skipWs (text : Str) : Str := text.dropWhile isWs

/-- What follows the opening quote of a string. -/
def parseString : Str → Option (Str × Str)
  | [] => none
  | c :: text =>
    if c = '"' then some ([], text)
    else if Plain c then (parseString text).map fun out => (c :: out.1, out.2)
    else none

mutual
def parseValue : Nat → Str → Option (Value × Str)
  | 0, _ => none
  | fuel + 1, text =>
    match skipWs text with
    | '"' :: text => (parseString text).map fun out => (.str out.1, out.2)
    | '{' :: text =>
      match skipWs text with
      | '}' :: text => some (.obj .nil, text)
      | _ => (parseMembers fuel text).map fun out => (.obj out.1, out.2)
    | _ => none
def parseMembers : Nat → Str → Option (Members × Str)
  | 0, _ => none
  | fuel + 1, text =>
    match skipWs text with
    | '"' :: text => do
      let (key, text) ← parseString text
      match skipWs text with
      | ':' :: text =>
        let (v, text) ← parseValue fuel text
        match skipWs text with
        | ',' :: text =>
          let (ms, text) ← parseMembers fuel text
          return (.cons key v ms, text)
        | '}' :: text => return (.cons key v .nil, text)
        | _ => none
      | _ => none
    | _ => none
end

def parse (text : Str) : Option Value := do
  let (v, text) ← parseValue (text.length + 1) text
  if skipWs text = [] then some v else none

theorem skipWs_append {ws : Str} (hws : ∀ c ∈ ws, isWs c = true) (text : Str) :
    skipWs (ws ++ text) = skipWs text := by
  induction ws with
  | nil => rfl
  | cons c ws ih =>
    have hc := hws c List.mem_cons_self
    have hnext := ih fun x hx => hws x (List.mem_cons_of_mem c hx)
    simpa [skipWs, hc] using hnext

theorem skipWs_cons {c : Char} (hc : isWs c = false) (text : Str) :
    skipWs (c :: text) = c :: text := by
  simp [skipWs, hc]

theorem skipWs_all {ws : Str} (hws : ∀ c ∈ ws, isWs c = true) : skipWs ws = [] := by
  have h := skipWs_append hws []
  rwa [List.append_nil] at h

theorem parseString_plain {s : Str} (hs : ∀ c ∈ s, Plain c) (rest : Str) :
    parseString (s ++ '"' :: rest) = some (s, rest) := by
  induction s with
  | nil => rfl
  | cons c s ih =>
    have hc := hs c List.mem_cons_self
    have hnext := ih fun x hx => hs x (List.mem_cons_of_mem c hx)
    simp [parseString, hc.1, hc, hnext]

/-- Reading takes at least one character. -/
theorem Reads.length_lt {text rest : Str} {sym : Value ⊕ Members} (h : Reads text sym rest) :
    rest.length < text.length := by
  induction h with
  | ws hc hv ih => simp only [List.length_cons]; omega
  | str hs => simp only [List.length_cons, List.length_append]; omega
  | empty hws => simp only [List.length_cons, List.length_append]; omega
  | obj hk hm ih => simp only [List.length_cons]; omega
  | one hws hkey hws' hws'' hv ih => simp only [List.length_cons, List.length_append] at *; omega
  | cons hws hkey hws' hws'' hv hm ihv ihm =>
    simp only [List.length_cons, List.length_append] at *
    omega

/-- The members of an object do not start with its closing brace. -/
theorem Reads.skipWs_members {body rest : Str} {ms : Members} (h : Reads body (.inr ms) rest) :
    ∃ text, skipWs body = '"' :: text := by
  cases h with
  | one hws hkey hws' hws'' hv => exact ⟨_, (skipWs_append hws _).trans (skipWs_cons rfl _)⟩
  | cons hws hkey hws' hws'' hv hm => exact ⟨_, (skipWs_append hws _).trans (skipWs_cons rfl _)⟩

theorem parseValue_congr {text text' : Str} (h : skipWs text = skipWs text') (fuel : Nat) :
    parseValue fuel text = parseValue fuel text' := by
  cases fuel with
  | zero => rfl
  | succ fuel => simp only [parseValue, h]

/-- The parser with fuel for each character reads what the grammar says. -/
theorem parse_reads {text rest : Str} {sym : Value ⊕ Members} (h : Reads text sym rest) :
    ∀ fuel, text.length ≤ fuel → match sym with
      | .inl v => parseValue fuel text = some (v, rest)
      | .inr ms => parseMembers fuel text = some (ms, rest) := by
  induction h with
  | @ws c text v rest hc hv ih =>
    intro fuel hfuel
    have hskip : skipWs (c :: text) = skipWs text := by simp [skipWs, hc]
    refine (parseValue_congr hskip fuel).trans (ih fuel ?_)
    simp only [List.length_cons] at hfuel
    omega
  | str hs =>
    intro fuel hfuel
    obtain ⟨n, rfl⟩ : ∃ n, fuel = n + 1 := ⟨fuel - 1, by simp at hfuel; omega⟩
    simp [parseValue, skipWs_cons (c := '"') rfl, parseString_plain hs]
  | empty hws =>
    intro fuel hfuel
    obtain ⟨n, rfl⟩ : ∃ n, fuel = n + 1 := ⟨fuel - 1, by simp at hfuel; omega⟩
    simp [parseValue, skipWs_cons (c := '{') rfl, skipWs_append hws, skipWs_cons (c := '}') rfl]
  | obj hk hm ih =>
    intro fuel hfuel
    obtain ⟨n, rfl⟩ : ∃ n, fuel = n + 1 := ⟨fuel - 1, by simp at hfuel; omega⟩
    obtain ⟨body, hbody⟩ := hm.skipWs_members
    have hms := ih n (by simpa using hfuel)
    dsimp only at hms
    simp [parseValue, skipWs_cons (c := '{') rfl, hbody, hms]
  | one hws hkey hws' hws'' hv ih =>
    intro fuel hfuel
    simp only [List.length_cons, List.length_append] at hfuel
    obtain ⟨n, rfl⟩ : ∃ n, fuel = n + 1 := ⟨fuel - 1, by omega⟩
    have hval := ih n (by omega)
    dsimp only at hval
    simp [parseMembers, skipWs_append hws, skipWs_cons (c := '"') rfl, parseString_plain hkey,
      skipWs_append hws', skipWs_cons (c := ':') rfl, hval, skipWs_append hws'',
      skipWs_cons (c := '}') rfl]
  | cons hws hkey hws' hws'' hv hm ihv ihm =>
    intro fuel hfuel
    have hlt := hv.length_lt
    simp only [List.length_cons, List.length_append] at hfuel hlt
    obtain ⟨n, rfl⟩ : ∃ n, fuel = n + 1 := ⟨fuel - 1, by omega⟩
    have hval := ihv n (by omega)
    have hms := ihm n (by omega)
    dsimp only at hval hms
    simp [parseMembers, skipWs_append hws, skipWs_cons (c := '"') rfl, parseString_plain hkey,
      skipWs_append hws', skipWs_cons (c := ':') rfl, hval, skipWs_append hws'',
      skipWs_cons (c := ',') rfl, hms]

theorem parse_denotes {text : Str} {v : Value} (h : Denotes text v) : parse text = some v := by
  obtain ⟨rest, hv, hrest⟩ := h
  have hval := parse_reads hv (text.length + 1) (by omega)
  dsimp only at hval
  simp [parse, hval, skipWs_all hrest]

end LSU.Json
