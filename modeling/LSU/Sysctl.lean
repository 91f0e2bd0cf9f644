import Mathlib.Data.List.AList
import LSU.RubyString

/-! What fix-gamepad-permissions reads of a listing of sysctl: for every device a hash of its
properties. A raise is `none`. -/
namespace LSU.Sysctl
open LSU.Commands LSU.Numerals LSU.RubyString

/-- What is behind a pattern, in which a dot is any character. -/
def behindPattern : Str → Str → Option Str
  | [], s => some s
  | _ :: _, [] => none
  | p :: ps, c :: s => if p = '.' ∨ p = c then behindPattern ps s else none

def colon : Str := ": ".toList

/-- The first `n` characters as the index, any character, a key, and the value. -/
def keyAndValue (keys : List Str) (rest : Str) (n : Nat) : Option (Str × Str × Str) :=
  match rest.drop n with
  | [] => none
  | _ :: tail =>
    if n = 0 then none
    else (keys.find? fun key => (key ++ colon).isPrefixOf tail).map fun key =>
      (rest.take n, key, tail.drop (key ++ colon).length)

/-- `/^<pattern>(\d+).(<keys>): (.*)$/` on a line. The character behind the digits may be the
last one of them. -/
def sysctlLine (pattern : Str) (keys : List Str) (line : Str) : Option (Str × Str × Str) := do
  let rest ← behindPattern pattern line
  let digits := (rest.takeWhile Char.isDigit).length
  (keyAndValue keys rest digits).or (keyAndValue keys rest (digits - 1))

inductive Value where
  | text (s : Str)
  | hash (entries : AList fun _ : Str => Str)

/-- `to_h` on an array of arrays; every one of them must be a pair. -/
def toH (parts : List (List Str)) : Option (AList fun _ : Str => Str) :=
  parts.foldlM (fun (h : AList fun _ : Str => Str) part =>
    match part with
    | [key, value] => some (h.insert key value)
    | _ => none) ∅

/-- A subtree of sysctl: its pattern, the keys that are read, and the one whose value is taken
apart. -/
structure Subtree where
  pattern : Str
  keys : List Str
  special : Str
  apart : Str → List (List Str)

abbrev Props := AList fun _ : Str => Value
abbrev Devices := AList fun _ : Str => Props

def Subtree.value (t : Subtree) (key text : Str) : Option Value :=
  if key = t.special then (toH (t.apart text)).map .hash else some (.text text)

/-- The body of the loop over the lines; `||= {}` and the assignment behind it. -/
def Subtree.addLine (t : Subtree) (devices : Devices) (line : Str) : Option Devices :=
  match sysctlLine t.pattern t.keys line with
  | none => some devices
  | some (idx, key, text) => do
    let value ← t.value key text
    return devices.insert idx (((devices.lookup idx).getD ∅).insert key value)

def Subtree.read (t : Subtree) (listing : Str) : Option Devices :=
  (lines listing).foldlM t.addLine ∅

/-! What sysctl prints. -/

structure Entry where
  idx : Nat
  key : Str
  text : Str
deriving DecidableEq

def Entry.line (pattern : Str) (e : Entry) : Str :=
  pattern ++ (decimal e.idx ++ '.' :: (e.key ++ colon ++ e.text))

/-- A line about a device, or one that the pattern does not match, as about the class of the
devices. -/
inductive Line where
  | entry (e : Entry)
  | other (text : Str)

def Line.print (pattern : Str) : Line → Str
  | .entry e => e.line pattern
  | .other text => text

def Line.entry? : Line → Option Entry
  | .entry e => some e
  | .other _ => none

def Line.text? : Line → Option Str
  | .entry _ => none
  | .other text => some text

def entries (ls : List Line) : List Entry := ls.filterMap Line.entry?

/-- A key as sysctl prints it, and no end of a line. -/
structure Entry.Plain (e : Entry) : Prop where
  key : ':' ∉ e.key ∧ '\n' ∉ e.key
  text : '\n' ∉ e.text

instance (e : Entry) : Decidable e.Plain :=
  decidable_of_iff ((':' ∉ e.key ∧ '\n' ∉ e.key) ∧ '\n' ∉ e.text)
    ⟨fun h => ⟨h.1, h.2⟩, fun h => ⟨h.key, h.text⟩⟩

/-- Keys that end before the colon, and do not start with a dot. -/
def PlainKeys (keys : List Str) : Prop :=
  ∀ key ∈ keys, ':' ∉ key ∧ key ≠ [] ∧ key.head? ≠ some '.'

instance (keys : List Str) : Decidable (PlainKeys keys) :=
  inferInstanceAs (Decidable (∀ key ∈ keys, ':' ∉ key ∧ key ≠ [] ∧ key.head? ≠ some '.'))

theorem behindPattern_self (pattern rest : Str) :
    behindPattern pattern (pattern ++ rest) = some rest := by
  induction pattern with
  | nil => cases rest <;> rfl
  | cons c pattern ih => simpa [behindPattern] using ih

theorem key_unique {key key' text text' : Str} (h : ':' ∉ key) (h' : ':' ∉ key')
    (heq : key ++ ':' :: text = key' ++ ':' :: text') : key = key' := by
  have htake : ∀ k t : Str, ':' ∉ k → (k ++ ':' :: t).takeWhile (· ≠ ':') = k := by
    intro k t hk
    rw [List.takeWhile_append_of_pos fun c hc => by simpa using fun (he : c = ':') => hk (he ▸ hc)]
    simp
  rw [← htake key text h, heq, htake key' text' h']

theorem isPrefixOf_key {key key' text : Str} (h : ':' ∉ key) (h' : ':' ∉ key') :
    (key' ++ colon).isPrefixOf (key ++ colon ++ text) = true ↔ key' = key := by
  rw [List.isPrefixOf_iff_prefix]
  constructor
  · rintro ⟨rest, hrest⟩
    have heq : key' ++ ':' :: (' ' :: rest) = key ++ ':' :: (' ' :: text) := by
      simpa [colon] using hrest
    exact key_unique h' h heq
  · rintro rfl
    exact List.prefix_append _ _

section Line
variable {keys : List Str} (hkeys : PlainKeys keys)
include hkeys

theorem find?_key {key : Str} (h : ':' ∉ key) (text : Str) :
    (key ∈ keys → keys.find? (fun k => (k ++ colon).isPrefixOf (key ++ colon ++ text)) = some key) ∧
      (key ∉ keys →
        keys.find? (fun k => (k ++ colon).isPrefixOf (key ++ colon ++ text)) = none) := by
  have hiff : ∀ k ∈ keys, (k ++ colon).isPrefixOf (key ++ colon ++ text) = true ↔ k = key :=
    fun k hk => isPrefixOf_key h (hkeys k hk).1
  cases hfind : keys.find? fun k => (k ++ colon).isPrefixOf (key ++ colon ++ text) with
  | none =>
    refine ⟨fun hmem => ?_, fun _ => rfl⟩
    exact absurd ((hiff key hmem).mpr rfl) (List.find?_eq_none.mp hfind key hmem)
  | some k =>
    have hmem := List.mem_of_find?_eq_some hfind
    have hpre : (k ++ colon).isPrefixOf (key ++ colon ++ text) = true := by
      simpa using List.find?_some hfind
    obtain rfl := (hiff k hmem).mp hpre
    exact ⟨fun _ => rfl, fun hno => absurd hmem hno⟩

theorem find?_dot (rest : Str) :
    keys.find? (fun k => (k ++ colon).isPrefixOf ('.' :: rest)) = none := by
  refine List.find?_eq_none.mpr fun k hk hpre => ?_
  obtain ⟨-, hne, hdot⟩ := hkeys k hk
  cases k with
  | nil => exact hne rfl
  | cons d k =>
    obtain ⟨tail, htail⟩ := List.isPrefixOf_iff_prefix.mp hpre
    exact hdot (congrArg some (List.cons.inj htail).1)

/-- A line is read as it was printed, or not at all where its key is not one of the keys. -/
theorem sysctlLine_line (pattern : Str) {e : Entry} (h : e.Plain) :
    (e.key ∈ keys → sysctlLine pattern keys (e.line pattern) =
      some (decimal e.idx, e.key, e.text)) ∧
      (e.key ∉ keys → sysctlLine pattern keys (e.line pattern) = none) := by
  have hnumeral := decimal_numeral e.idx
  have hdigits : (decimal e.idx ++ '.' :: (e.key ++ colon ++ e.text)).takeWhile Char.isDigit =
      decimal e.idx := by
    rw [List.takeWhile_append_of_pos hnumeral.2, List.takeWhile_cons_of_neg (by decide),
      List.append_nil]
  have hlength : (decimal e.idx).length ≠ 0 := by simpa using hnumeral.1
  have hwhole : keyAndValue keys (decimal e.idx ++ '.' :: (e.key ++ colon ++ e.text))
      (decimal e.idx).length =
        (keys.find? fun k => (k ++ colon).isPrefixOf (e.key ++ colon ++ e.text)).map fun k =>
          (decimal e.idx, k, (e.key ++ colon ++ e.text).drop (k ++ colon).length) := by
    rw [keyAndValue, List.drop_left]
    simp only [if_neg hlength, List.take_left]
  have hshort : keyAndValue keys (decimal e.idx ++ '.' :: (e.key ++ colon ++ e.text))
      ((decimal e.idx).length - 1) = none := by
    obtain ⟨digits, digit, hlast⟩ := List.eq_nil_or_concat (decimal e.idx) |>.resolve_left
      hnumeral.1
    have hdrop : (decimal e.idx ++ '.' :: (e.key ++ colon ++ e.text)).drop
        ((decimal e.idx).length - 1) = digit :: '.' :: (e.key ++ colon ++ e.text) := by
      rw [hlast]
      simp
    rw [keyAndValue, hdrop]
    simp only [find?_dot hkeys]
    split <;> rfl
  have hfind := find?_key hkeys h.key.1 e.text
  have hline : sysctlLine pattern keys (e.line pattern) =
      (keys.find? fun k => (k ++ colon).isPrefixOf (e.key ++ colon ++ e.text)).map fun k =>
        (decimal e.idx, k, (e.key ++ colon ++ e.text).drop (k ++ colon).length) := by
    rw [sysctlLine, Entry.line, behindPattern_self]
    simp only [Option.bind_eq_bind, Option.bind_some, hdigits, hwhole, hshort, Option.or_none]
  rw [hline]
  constructor
  · intro hmem
    rw [hfind.1 hmem, Option.map_some, List.drop_left]
  · intro hmem
    rw [hfind.2 hmem, Option.map_none]

end Line

/-! What the loop has read of the lines. -/

/-- The value of a key of a device. -/
def valueOf (devices : Devices) (idx key : Str) : Option Value :=
  (devices.lookup idx).bind fun props => props.lookup key

theorem valueOf_insert (devices : Devices) (idx key : Str) (value : Value) (idx' key' : Str) :
    valueOf (devices.insert idx (((devices.lookup idx).getD ∅).insert key value)) idx' key' =
      if idx' = idx ∧ key' = key then some value else valueOf devices idx' key' := by
  by_cases hidx : idx' = idx
  · subst hidx
    by_cases hkey : key' = key
    · subst hkey
      simp [valueOf]
    · rw [if_neg fun h => hkey h.2, valueOf, AList.lookup_insert, Option.bind_some,
        AList.lookup_insert_ne hkey, valueOf]
      cases devices.lookup idx' with
      | none => rfl
      | some props => rfl
  · rw [if_neg fun h => hidx h.1, valueOf, AList.lookup_insert_ne hidx, valueOf]

/-- What has been read of some lines: the devices with a key, the values of the keys, and what was
there before of the others. -/
structure Added (t : Subtree) (entries : List Entry) (devices devices' : Devices) : Prop where
  mem : ∀ idx, idx ∈ devices' ↔
    idx ∈ devices ∨ ∃ e ∈ entries, e.key ∈ t.keys ∧ decimal e.idx = idx
  value : ∀ e ∈ entries, e.key ∈ t.keys →
    valueOf devices' (decimal e.idx) e.key = t.value e.key e.text
  other : ∀ idx key, (∀ e ∈ entries, ¬ (decimal e.idx = idx ∧ e.key = key)) →
    valueOf devices' idx key = valueOf devices idx key

/-- A listing that is read without a raise: no key of a device comes twice. -/
structure Readable (t : Subtree) (ls : List Line) : Prop where
  keys : PlainKeys t.keys
  pattern : '\n' ∉ t.pattern
  plain : ∀ e ∈ entries ls, e.Plain
  value : ∀ e ∈ entries ls, (t.value e.key e.text).isSome = true
  once : ((entries ls).map fun e => (e.idx, e.key)).Nodup
  other : ∀ text ∈ ls.filterMap Line.text?, '\n' ∉ text ∧ sysctlLine t.pattern t.keys text = none

theorem mem_entries {e : Entry} {ls : List Line} : e ∈ entries ls ↔ .entry e ∈ ls := by
  rw [entries, List.mem_filterMap]
  constructor
  · rintro ⟨l, hl, he⟩
    cases l with
    | entry d => exact Option.some.inj he ▸ hl
    | other text => cases he
  · exact fun he => ⟨_, he, rfl⟩

theorem mem_others {text : Str} {ls : List Line} :
    text ∈ ls.filterMap Line.text? ↔ .other text ∈ ls := by
  rw [List.mem_filterMap]
  constructor
  · rintro ⟨l, hl, htext⟩
    cases l with
    | entry d => cases htext
    | other text' => exact Option.some.inj htext ▸ hl
  · exact fun h => ⟨_, h, rfl⟩

theorem Readable.tail {t : Subtree} {l : Line} {ls : List Line} (h : Readable t (l :: ls)) :
    Readable t ls where
  keys := h.keys
  pattern := h.pattern
  plain e he := h.plain e (mem_entries.mpr (List.mem_cons_of_mem l (mem_entries.mp he)))
  value e he := h.value e (mem_entries.mpr (List.mem_cons_of_mem l (mem_entries.mp he)))
  once := h.once.sublist (((List.sublist_cons_self l ls).filterMap Line.entry?).map _)
  other text ht := h.other text (mem_others.mpr (List.mem_cons_of_mem l (mem_others.mp ht)))

theorem decimal_inj {m n : Nat} (h : decimal m = decimal n) : m = n := by
  rw [← value_decimal m, h, value_decimal]

/-- The other lines are about other keys, or about other devices. -/
theorem Readable.apart {t : Subtree} {e : Entry} {ls : List Line}
    (h : Readable t (.entry e :: ls)) :
    ∀ d ∈ entries ls, ¬ (decimal d.idx = decimal e.idx ∧ d.key = e.key) := by
  rintro d hd ⟨hidx, hkey⟩
  have hnew := (List.nodup_cons.mp h.once).1
  exact hnew (List.mem_map.mpr ⟨d, hd, by rw [decimal_inj hidx, hkey]⟩)

/-- A line that is skipped adds nothing. -/
theorem Added.skip {t : Subtree} {es : List Entry} {devices devices' : Devices} {e : Entry}
    (h : Added t es devices devices') (hkey : e.key ∉ t.keys) :
    Added t (e :: es) devices devices' := by
  refine ⟨fun idx => ?_, fun d hd hdkey => ?_, fun idx key hother =>
    h.other idx key fun d hd => hother d (List.mem_cons_of_mem e hd)⟩
  · rw [h.mem idx]
    refine or_congr_right ⟨?_, ?_⟩
    · rintro ⟨d, hd, hd'⟩
      exact ⟨d, List.mem_cons_of_mem e hd, hd'⟩
    · rintro ⟨d, hd, hdkey, hdidx⟩
      obtain rfl | hd := List.mem_cons.mp hd
      · exact absurd hdkey hkey
      · exact ⟨d, hd, hdkey, hdidx⟩
  · obtain rfl | hd := List.mem_cons.mp hd
    · exact absurd hdkey hkey
    · exact h.value d hd hdkey

/-- A line that is read puts its value at the key of its device. -/
theorem Added.line {t : Subtree} {es : List Entry} {devices devices' : Devices} {e : Entry}
    {v : Value} (hkey : e.key ∈ t.keys) (hv : t.value e.key e.text = some v)
    (hapart : ∀ d ∈ es, ¬ (decimal d.idx = decimal e.idx ∧ d.key = e.key))
    (h : Added t es (devices.insert (decimal e.idx)
      (((devices.lookup (decimal e.idx)).getD ∅).insert e.key v)) devices') :
    Added t (e :: es) devices devices' := by
  have hhead : e ∈ e :: es := List.mem_cons_self
  refine ⟨fun idx => ?_, fun d hd hdkey => ?_, fun idx key hother => ?_⟩
  · rw [h.mem idx, AList.mem_insert]
    constructor
    · rintro ((rfl | hmem) | ⟨d, hd, hdkey, hdidx⟩)
      · exact Or.inr ⟨e, hhead, hkey, rfl⟩
      · exact Or.inl hmem
      · exact Or.inr ⟨d, List.mem_cons_of_mem e hd, hdkey, hdidx⟩
    · rintro (hmem | ⟨d, hd, hdkey, rfl⟩)
      · exact Or.inl (Or.inr hmem)
      · obtain rfl | hd := List.mem_cons.mp hd
        · exact Or.inl (Or.inl rfl)
        · exact Or.inr ⟨d, hd, hdkey, rfl⟩
  · obtain rfl | hd := List.mem_cons.mp hd
    · rw [h.other _ _ hapart, valueOf_insert, if_pos ⟨rfl, rfl⟩, hv]
    · exact h.value d hd hdkey
  · have hne : ¬ (idx = decimal e.idx ∧ key = e.key) := fun heq =>
      hother e hhead ⟨heq.1.symm, heq.2.symm⟩
    rw [h.other idx key fun d hd => hother d (List.mem_cons_of_mem e hd), valueOf_insert, if_neg hne]

theorem foldlM_addLine {t : Subtree} {ls : List Line} (h : Readable t ls) (devices : Devices) :
    ∃ devices', (ls.map (Line.print t.pattern)).foldlM t.addLine devices = some devices' ∧
      Added t (entries ls) devices devices' := by
  induction ls generalizing devices with
  | nil => exact ⟨devices, rfl, ⟨by simp [entries], nofun, fun _ _ _ => rfl⟩⟩
  | cons l ls ih =>
    rw [List.map_cons, List.foldlM_cons]
    cases l with
    | other text =>
      have hno := (h.other text (mem_others.mpr List.mem_cons_self)).2
      have hline : t.addLine devices text = some devices := by rw [Subtree.addLine, hno]
      rw [Line.print, hline]
      exact ih h.tail devices
    | entry e =>
      have hhead : e ∈ entries (.entry e :: ls) := mem_entries.mpr List.mem_cons_self
      obtain ⟨hread, hskip⟩ := sysctlLine_line h.keys t.pattern (h.plain e hhead)
      by_cases hkey : e.key ∈ t.keys
      · obtain ⟨v, hv⟩ := Option.isSome_iff_exists.mp (h.value e hhead)
        have hline : t.addLine devices (e.line t.pattern) = some (devices.insert (decimal e.idx)
            (((devices.lookup (decimal e.idx)).getD ∅).insert e.key v)) := by
          rw [Subtree.addLine, hread hkey]
          simp only [hv, Option.bind_eq_bind, Option.bind_some, Option.pure_def]
        obtain ⟨devices', hfold, hadded⟩ := ih h.tail _
        rw [Line.print, hline]
        exact ⟨devices', hfold, hadded.line hkey hv h.apart⟩
      · have hline : t.addLine devices (e.line t.pattern) = some devices := by
          rw [Subtree.addLine, hskip hkey]
        obtain ⟨devices', hfold, hadded⟩ := ih h.tail devices
        rw [Line.print, hline]
        exact ⟨devices', hfold, hadded.skip hkey⟩

def listing (t : Subtree) (ls : List Line) : Str :=
  (ls.map fun l => l.print t.pattern ++ ['\n']).flatten

theorem Entry.Plain.oneLine {e : Entry} (h : e.Plain) {pattern : Str} (hpattern : '\n' ∉ pattern) :
    '\n' ∉ e.line pattern := by
  have hdigits : '\n' ∉ decimal e.idx := fun hmem =>
    absurd ((decimal_numeral e.idx).2 _ hmem) (by decide)
  have hcolon : '\n' ∉ colon := by decide
  simp [Entry.line, hpattern, hdigits, hcolon, h.key.2, h.text]

theorem Readable.oneLine {t : Subtree} {ls : List Line} (h : Readable t ls) {l : Line}
    (hl : l ∈ ls) : '\n' ∉ l.print t.pattern := by
  cases l with
  | entry e => exact (h.plain e (mem_entries.mpr hl)).oneLine h.pattern
  | other text => exact (h.other text (mem_others.mpr hl)).1

theorem lines_listing {t : Subtree} {ls : List Line} (h : Readable t ls) :
    lines (listing t ls) = ls.map (Line.print t.pattern) ++ [[]] := by
  induction ls with
  | nil => rfl
  | cons l ls ih =>
    have hline := h.oneLine List.mem_cons_self
    rw [listing, List.map_cons, List.flatten_cons, List.append_assoc, List.singleton_append,
      ← listing, lines, List.splitOn_append_cons_self_of_not_mem hline, ← lines, ih h.tail]
    rfl

theorem sysctlLine_nil (pattern : Str) (keys : List Str) : sysctlLine pattern keys [] = none := by
  cases pattern with
  | nil => rfl
  | cons p pattern => rfl

/-- A line that is not read for some keys is not read for fewer. -/
theorem sysctlLine_fewer {pattern text : Str} {keys keys' : List Str} (hsub : keys' ⊆ keys)
    (h : sysctlLine pattern keys text = none) : sysctlLine pattern keys' text = none := by
  have hfewer : ∀ rest n, keyAndValue keys rest n = none → keyAndValue keys' rest n = none := by
    intro rest n hnone
    rw [keyAndValue] at hnone ⊢
    split
    · rfl
    · rename_i tail hdrop
      simp only [hdrop] at hnone
      split at hnone
      · rename_i hzero
        rw [if_pos hzero]
      · rename_i hpos
        rw [if_neg hpos, Option.map_eq_none_iff, List.find?_eq_none]
        rw [Option.map_eq_none_iff, List.find?_eq_none] at hnone
        exact fun key hkey => hnone key (hsub hkey)
  rw [sysctlLine] at h ⊢
  cases hrest : behindPattern pattern text with
  | none => rfl
  | some rest =>
    simp only [hrest, Option.bind_eq_bind, Option.bind_some, Option.or_eq_none_iff] at h ⊢
    exact ⟨hfewer _ _ h.1, hfewer _ _ h.2⟩

/-- A listing is read without a raise, whatever the order of its lines. -/
theorem read_listing {t : Subtree} {ls : List Line} (h : Readable t ls) :
    ∃ devices, t.read (listing t ls) = some devices ∧ Added t (entries ls) ∅ devices := by
  obtain ⟨devices, hfold, hadded⟩ := foldlM_addLine h ∅
  refine ⟨devices, ?_, hadded⟩
  rw [Subtree.read, lines_listing h, List.foldlM_append, hfold, Option.bind_eq_bind,
    Option.bind_some, List.foldlM_cons, Subtree.addLine, sysctlLine_nil]
  rfl

end LSU.Sysctl
