import Mathlib.Data.Bool.AllAny
import Mathlib.Data.List.AList
import LSU.Undump

/-! The parsing of os-release in check_requirements of steam. A raise is `none`. -/
namespace LSU.OsRelease
open LSU.Commands LSU.RubyString LSU.Undump

abbrev Os := AList fun _ : Str => Str

def expectedDistros : List Str := ["centos".toList, "fedora".toList, "rocky".toList]

/-- A line feed takes the carriage return before it along. -/
def chompCr (line : Str) : Str := if line.getLast? = some '\r' then line.dropLast else line

/-- each_line with chomp. -/
def eachLine (content : Str) : List Str :=
  let pieces := content.splitOn '\n'
  let last := pieces.getLastD []
  pieces.dropLast.map chompCr ++ if last = [] then [] else [last]

variable (known : Str → Bool)

def parseLine (os : Os) (line : Str) : Option Os :=
  match split line '=' with
  | k :: v :: _ => (undump known v).map fun v => os.insert k v
  | _ => some os

def parse (content : Str) : Option Os := (eachLine content).foldlM (parseLine known) ∅

/-- split without an argument of its own drops all white space. -/
def splitSpaces (s : Str) : List Str := (s.splitOnP isSpace).filter (· ≠ [])

/-- The test for the expected distributions; ID_LIKE is asked for second, and must be there. -/
def isExpected (os : Os) : Option Bool :=
  if (os.lookup "ID".toList).any (fun id => decide (id ∈ expectedDistros)) = true then some true
  else
    (os.lookup "ID_LIKE".toList).map fun idLike =>
      expectedDistros.any fun distro => decide (distro ∈ splitSpaces idLike)

/-- Whether the branch of the expected distributions is taken. There may be no file. -/
def checkDistro : Option Str → Option Bool
  | none => some false
  | some content => (parse known content).bind isExpected

/-! The syntax of os-release(5). -/

/-- What asks for quotes, but for control characters. -/
def special : Str := " \t\"'`$\\;&|<>()#*?[]~!=".toList ++ [Char.ofNat 123, Char.ofNat 125]

def isKeyChar (c : Char) : Bool := c.isAlphanum || c == '_'

inductive Value where
  | unquoted (text : Str) (h : ∀ c ∈ text, c ∉ special)
  | quoted (text : Str) (h : ∀ c ∈ text, c ≠ '"' ∧ c ≠ '\\')

inductive Line where
  | blank (text : Str) (h : ∀ c ∈ text, isSpace c = true)
  | comment (text : Str)
  | assign (key : Str) (hkey : key ≠ [] ∧ ∀ c ∈ key, isKeyChar c = true) (value : Value)

def Value.text : Value → Str
  | .unquoted text _ => text
  | .quoted text _ => '"' :: (text ++ ['"'])

/-- Without its quotes. -/
def Value.value : Value → Str
  | .unquoted text _ => text
  | .quoted text _ => text

def Line.text : Line → Str
  | .blank text _ => text
  | .comment text => '#' :: text
  | .assign key _ value => key ++ '=' :: value.text

/-- What a line gives a key. -/
def Line.valueOf (key : Str) : Line → Option Str
  | .assign k _ value => if k = key then some value.value else none
  | _ => none

/-- What a line gives a key between quotes. -/
def Line.quotedOf (key : Str) : Line → Option Str
  | .assign k _ (.quoted text _) => if k = key then some text else none
  | _ => none

def lastValue (lines : List Line) (key : Str) : Option Str :=
  (lines.filterMap (Line.valueOf key)).getLast?

def lastQuoted (lines : List Line) (key : Str) : Option Str :=
  (lines.filterMap (Line.quotedOf key)).getLast?

/-- A file of such lines. -/
structure File where
  content : Str
  lines : List Line
  reads : eachLine content = lines.map Line.text

/-- The values that undump accepts: nothing at all, or quotes around ASCII without `=`. A
comment may have none, or anything undump accepts. -/
def Line.Readable : Line → Prop
  | .blank _ _ => True
  | .comment text =>
    ∀ k v rest, split ('#' :: text) '=' = k :: v :: rest → (undump known v).isSome = true
  | .assign _ _ (.unquoted text _) => text = []
  | .assign _ _ (.quoted text _) => ∀ c ∈ text, c ≠ '=' ∧ plainByte c = true

/-- The file is parsed, each key has the value of its last line, and an expected ID takes the
branch of the expected distributions. -/
def ReadsAll (file : File) : Prop :=
  (∃ os, parse known file.content = some os ∧
    ∀ key value, lastValue file.lines key = some value → os.lookup key = some value) ∧
  ∀ id ∈ expectedDistros, lastValue file.lines "ID".toList = some id →
    checkDistro known (some file.content) = some true

/-! The pieces of a line. -/

theorem rdropWhile_second {α : Type*} {p : α → Bool} {a b : α} (hb : ¬ p b = true) (t : List α) :
    ∃ t', (a :: b :: t).rdropWhile p = a :: b :: t' := by
  induction t using List.reverseRecOn with
  | nil => exact ⟨[], List.rdropWhile_concat_neg p [a] b hb⟩
  | append_singleton t x ih =>
    show ∃ t', ((a :: b :: t) ++ [x]).rdropWhile p = a :: b :: t'
    rw [List.rdropWhile_concat]
    split
    · exact ih
    · exact ⟨t ++ [x], rfl⟩

/-- A text without the separator is at most one part. -/
theorem split_single {s : Str} (h : '=' ∉ s) : split s '=' = if s = [] then [] else [s] := by
  rw [split, List.splitOn_eq_singleton h, List.rdropWhile_singleton]
  simp

theorem split_key {key value : Str} (h : '=' ∉ key) :
    split (key ++ '=' :: value) '=' = (key :: value.splitOn '=').rdropWhile (· = []) := by
  rw [split, List.splitOn_append_cons_self_of_not_mem h]

theorem split_key_single {key value : Str} (h : '=' ∉ key) (hv : '=' ∉ value)
    (hne : value ≠ []) : split (key ++ '=' :: value) '=' = [key, value] := by
  rw [split_key h, List.splitOn_eq_singleton hv]
  apply List.rdropWhile_concat_neg _ [key]
  simpa using hne

theorem split_key_cut {key cut rest : Str} (h : '=' ∉ key) (hc : '=' ∉ cut) (hne : cut ≠ []) :
    ∃ t, split (key ++ '=' :: (cut ++ '=' :: rest)) '=' = key :: cut :: t := by
  rw [split_key h, List.splitOn_append_cons_self_of_not_mem hc]
  apply rdropWhile_second
  simpa using hne

/-- The first part of a comment begins as the comment does. -/
theorem split_comment {text k : Str} {t : List Str} (h : split ('#' :: text) '=' = k :: t) :
    k.head? = some '#' := by
  obtain ⟨t', ht⟩ : ∃ t', ('#' :: text).splitOn '=' = k :: t' := by
    obtain ⟨rest, hrest⟩ := List.rdropWhile_prefix (fun p : Str => decide (p = []))
      (l := ('#' :: text).splitOn '=')
    rw [split] at h
    rw [h] at hrest
    exact ⟨t ++ rest, hrest.symm⟩
  have hjoin : '#' :: text = ['='].intercalate (k :: t') := by
    rw [← ht]
    exact (List.intercalate_splitOn '=').symm
  cases k with
  | nil =>
    cases t' with
    | nil => cases hjoin
    | cons u t' =>
      rw [List.intercalate_cons_cons] at hjoin
      cases hjoin
  | cons c k =>
    have hc : '#' = c := by
      cases t' with
      | nil => exact (List.cons.inj hjoin).1
      | cons u t' =>
        rw [List.intercalate_cons_cons] at hjoin
        exact (List.cons.inj hjoin).1
    rw [hc]
    rfl

theorem equals_not_mem_key {key : Str} (h : ∀ c ∈ key, isKeyChar c = true) : '=' ∉ key := by
  intro hmem
  have hkey := h '=' hmem
  contradiction

theorem equals_not_mem_blank {text : Str} (h : ∀ c ∈ text, isSpace c = true) : '=' ∉ text := by
  intro hmem
  have hspace := h '=' hmem
  contradiction

variable {known}

/-- What a line leads to: nothing, or an entry under its first part. -/
theorem parseLine_of_split {os : Os} {line k v : Str} {t : List Str}
    (h : split line '=' = k :: v :: t) :
    parseLine known os line = (undump known v).map fun v => os.insert k v := by
  rw [parseLine, h]

theorem parseLine_short {os : Os} {line : Str} (h : ∀ k v t, split line '=' ≠ k :: v :: t) :
    parseLine known os line = some os := by
  unfold parseLine
  split
  · rename_i k v t heq
    exact absurd heq (h k v t)
  · rfl

theorem parseLine_blank {os : Os} {text : Str} (h : ∀ c ∈ text, isSpace c = true) :
    parseLine known os text = some os := by
  apply parseLine_short
  intro k v t
  rw [split_single (equals_not_mem_blank h)]
  split
  · exact fun heq => by cases heq
  · exact fun heq => by cases heq

theorem parseLine_unquoted {os : Os} {key text : Str} (hkey : ∀ c ∈ key, isKeyChar c = true)
    (h : ∀ c ∈ text, c ∉ special) :
    parseLine known os (key ++ '=' :: text) = if text = [] then some os else none := by
  have hk := equals_not_mem_key hkey
  have htext : '=' ∉ text := fun hmem => h '=' hmem (by decide)
  split
  · rename_i hnil
    subst hnil
    apply parseLine_short
    intro k v t
    have hdrop : [key, []].rdropWhile (fun p : Str => decide (p = [])) =
        [key].rdropWhile (fun p : Str => decide (p = [])) :=
      List.rdropWhile_concat_pos _ [key] [] rfl
    rw [split_key hk, List.splitOn_nil, hdrop, List.rdropWhile_singleton]
    split
    · exact fun heq => by cases heq
    · exact fun heq => by cases heq
  · rename_i hne
    rw [parseLine_of_split (split_key_single hk htext hne)]
    have hhead : text.head? ≠ some '"' := by
      intro hhead
      exact h '"' (List.mem_of_mem_head? hhead) (by decide)
    rw [undump_unquoted hhead]
    rfl

theorem parseLine_quoted {os : Os} {key text : Str} (hkey : ∀ c ∈ key, isKeyChar c = true)
    (h : ∀ c ∈ text, c ≠ '"' ∧ c ≠ '\\') (heq : '=' ∉ text) :
    parseLine known os (key ++ '=' :: '"' :: (text ++ ['"'])) =
      if text.all plainByte = true then some (os.insert key text) else none := by
  have hvalue : '=' ∉ '"' :: (text ++ ['"']) := by simp [heq]
  rw [parseLine_of_split (split_key_single (equals_not_mem_key hkey) hvalue (List.cons_ne_nil _ _))]
  split
  · rename_i hall
    rw [undump_quoted h (List.all_eq_true.mp hall)]
    rfl
  · rename_i hall
    obtain ⟨c, hc, hspecial⟩ : ∃ c ∈ text, plainByte c = false := by
      simpa using hall
    have hmem : c ∈ '"' :: (text ++ ['"']) := by simp [hc]
    rw [undump_special hmem hspecial]
    rfl

/-- The part before the second `=` lacks its closing quote. -/
theorem parseLine_cut {os : Os} {key text : Str} (hkey : ∀ c ∈ key, isKeyChar c = true)
    (h : ∀ c ∈ text, c ≠ '"' ∧ c ≠ '\\') (heq : '=' ∈ text) :
    parseLine known os (key ++ '=' :: '"' :: (text ++ ['"'])) = none := by
  obtain ⟨cut, rest, rfl, hcut⟩ := List.eq_append_cons_of_mem heq
  have hopen : '=' ∉ '"' :: cut := by simp [hcut]
  obtain ⟨t, ht⟩ := @split_key_cut key ('"' :: cut) (rest ++ ['"']) (equals_not_mem_key hkey) hopen
    (List.cons_ne_nil _ _)
  have hline : key ++ '=' :: '"' :: ((cut ++ '=' :: rest) ++ ['"']) =
      key ++ '=' :: (('"' :: cut) ++ '=' :: (rest ++ ['"'])) := by simp
  rw [hline, parseLine_of_split ht, undump_unclosed fun c hc => h c (List.mem_append_left _ hc)]
  rfl

/-- A readable line keeps or gives each key what it has between quotes for it. -/
theorem parseLine_readable {l : Line} (h : l.Readable known) (os : Os) :
    ∃ os', parseLine known os l.text = some os' ∧
      ∀ key : Str, (∀ c ∈ key, isKeyChar c = true) →
        os'.lookup key = (l.quotedOf key).or (os.lookup key) := by
  cases l with
  | blank text hblank =>
    exact ⟨os, parseLine_blank hblank, fun key _ => rfl⟩
  | comment text =>
    by_cases hsplit : ∃ k v t, split ('#' :: text) '=' = k :: v :: t
    · obtain ⟨k, v, t, hsplit⟩ := hsplit
      obtain ⟨w, hw⟩ := Option.isSome_iff_exists.mp (h k v t hsplit)
      refine ⟨os.insert k w, ?_, ?_⟩
      · rw [Line.text, parseLine_of_split hsplit, hw]
        rfl
      · intro key hkey
        have hne : key ≠ k := by
          rintro rfl
          have hhash := hkey '#' (List.mem_of_mem_head? (split_comment hsplit))
          contradiction
        rw [AList.lookup_insert_ne hne]
        rfl
    · refine ⟨os, ?_, fun key _ => rfl⟩
      apply parseLine_short
      exact fun k v t heq => hsplit ⟨k, v, t, heq⟩
  | assign k hk value =>
    cases value with
    | unquoted text htext =>
      refine ⟨os, ?_, fun key _ => rfl⟩
      show parseLine known os (k ++ '=' :: text) = some os
      rw [parseLine_unquoted hk.2 htext]
      exact if_pos h
    | quoted text htext =>
      have heq : '=' ∉ text := fun hmem => (h '=' hmem).1 rfl
      have hall : text.all plainByte = true := List.all_eq_true.mpr fun c hc => (h c hc).2
      refine ⟨os.insert k text, ?_, ?_⟩
      · show parseLine known os (k ++ '=' :: '"' :: (text ++ ['"'])) = _
        rw [parseLine_quoted hk.2 htext heq, if_pos hall]
      · intro key _
        by_cases hkey : k = key
        · subst hkey
          rw [AList.lookup_insert, Line.quotedOf, if_pos rfl]
          rfl
        · rw [AList.lookup_insert_ne (Ne.symm hkey), Line.quotedOf, if_neg hkey]
          rfl

theorem parseLine_unreadable {l : Line} (h : ¬ l.Readable known) (os : Os) :
    parseLine known os l.text = none := by
  cases l with
  | blank text hblank => exact absurd trivial h
  | comment text =>
    rw [Line.Readable] at h
    push Not at h
    obtain ⟨k, v, t, hsplit, hnone⟩ := h
    have hundump : undump known v = none := by simpa using hnone
    rw [Line.text, parseLine_of_split hsplit, hundump]
    rfl
  | assign k hk value =>
    cases value with
    | unquoted text htext =>
      show parseLine known os (k ++ '=' :: text) = none
      rw [parseLine_unquoted hk.2 htext]
      exact if_neg h
    | quoted text htext =>
      show parseLine known os (k ++ '=' :: '"' :: (text ++ ['"'])) = none
      by_cases heq : '=' ∈ text
      · exact parseLine_cut hk.2 htext heq
      · rw [parseLine_quoted hk.2 htext heq, if_neg]
        intro hall
        apply h
        intro c hc
        exact ⟨fun hceq => heq (hceq ▸ hc), List.all_eq_true.mp hall c hc⟩

theorem lastQuoted_cons (l : Line) (lines : List Line) (key : Str) :
    lastQuoted (l :: lines) key = (lastQuoted lines key).or (l.quotedOf key) := by
  rw [lastQuoted, lastQuoted, List.filterMap_cons]
  cases l.quotedOf key with
  | none => simp
  | some value =>
    simp only [List.getLast?_cons]
    cases (lines.filterMap (Line.quotedOf key)).getLast? with
    | none => rfl
    | some last => rfl

/-- The loop over readable lines leaves each key what stands last between quotes for it. -/
theorem parse_readable {lines : List Line} (h : ∀ l ∈ lines, l.Readable known) (os : Os) :
    ∃ os', (lines.map Line.text).foldlM (parseLine known) os = some os' ∧
      ∀ key : Str, (∀ c ∈ key, isKeyChar c = true) →
        os'.lookup key = (lastQuoted lines key).or (os.lookup key) := by
  induction lines generalizing os with
  | nil => exact ⟨os, rfl, fun key _ => rfl⟩
  | cons l lines ih =>
    rw [List.forall_mem_cons] at h
    obtain ⟨os₁, hline, hone⟩ := parseLine_readable h.1 os
    obtain ⟨os₂, hrest, htwo⟩ := ih h.2 os₁
    refine ⟨os₂, ?_, ?_⟩
    · rw [List.map_cons, List.foldlM_cons, hline]
      exact hrest
    · intro key hkey
      rw [htwo key hkey, hone key hkey, lastQuoted_cons, Option.or_assoc]

theorem readable_of_parse {lines : List Line} {os os' : Os}
    (h : (lines.map Line.text).foldlM (parseLine known) os = some os') :
    ∀ l ∈ lines, l.Readable known := by
  induction lines generalizing os with
  | nil => simp
  | cons l lines ih =>
    by_cases hl : l.Readable known
    · rw [List.map_cons, List.foldlM_cons] at h
      obtain ⟨os₁, -, hrest⟩ := Option.bind_eq_some_iff.mp h
      rw [List.forall_mem_cons]
      exact ⟨hl, ih hrest⟩
    · rw [List.map_cons, List.foldlM_cons, parseLine_unreadable hl] at h
      cases h

/-- A key with a value is the key of a line. -/
theorem isKeyChar_of_lastValue {lines : List Line} {key value : Str}
    (h : lastValue lines key = some value) : ∀ c ∈ key, isKeyChar c = true := by
  obtain ⟨l, -, hl⟩ := List.mem_filterMap.mp (List.mem_of_getLast? h)
  cases l with
  | blank text _ => cases hl
  | comment text => cases hl
  | assign k hk v =>
    rw [Line.valueOf] at hl
    split at hl
    · rename_i hkey
      exact hkey ▸ hk.2
    · cases hl

/-- check_requirements reads a file as os-release(5) has it, if and only if undump accepts what
stands behind the first `=` of each of its lines, and no line that ends there is the last one
of its key, unless the last value of that key between quotes is empty. -/
theorem osRelease_read_iff (known : Str → Bool) (file : File) :
    ReadsAll known file ↔
      (∀ l ∈ file.lines, l.Readable known) ∧
        ∀ key value, lastValue file.lines key = some value →
          lastQuoted file.lines key = some value := by
  rw [ReadsAll, parse, file.reads]
  constructor
  · rintro ⟨⟨os, hparse, hvalues⟩, -⟩
    have hreadable := readable_of_parse hparse
    refine ⟨hreadable, ?_⟩
    intro key value hlast
    obtain ⟨os', hparse', hquoted⟩ := parse_readable hreadable ∅
    obtain rfl : os = os' := Option.some.inj (hparse.symm.trans hparse')
    have hlookup := hquoted key (isKeyChar_of_lastValue hlast)
    rw [hvalues key value hlast, AList.lookup_empty, Option.or_none] at hlookup
    exact hlookup.symm
  · rintro ⟨hreadable, hlasts⟩
    obtain ⟨os, hparse, hquoted⟩ := parse_readable hreadable ∅
    have hvalues : ∀ key value, lastValue file.lines key = some value →
        os.lookup key = some value := by
      intro key value hlast
      rw [hquoted key (isKeyChar_of_lastValue hlast), hlasts key value hlast]
      rfl
    refine ⟨⟨os, hparse, hvalues⟩, ?_⟩
    intro id hid hlast
    rw [checkDistro, parse, file.reads, hparse, Option.bind_some, isExpected,
      hvalues _ _ hlast, if_pos]
    simpa using hid

/-- What Fedora writes. -/
def fedora : File where
  content := "NAME=\"Fedora Linux\"\nID=fedora\n".toList
  lines := [.assign "NAME".toList ⟨by decide, List.all_eq_true.mp (by decide)⟩
      (.quoted "Fedora Linux".toList (List.all_iff_forall_prop.mp (by decide))),
    .assign "ID".toList ⟨by decide, List.all_eq_true.mp (by decide)⟩
      (.unquoted "fedora".toList (List.all_iff_forall_prop.mp (by decide)))]
  reads := by decide

/-- An expected distribution whose file cannot be read. -/
theorem fedora_not_parsed :
    checkDistro (fun _ => false) (some fedora.content) = none ∧
      ¬ ReadsAll (fun _ => false) fedora := by
  have hnone : checkDistro (fun _ => false) (some fedora.content) = none := by decide
  refine ⟨hnone, ?_⟩
  rintro ⟨-, hbranch⟩
  have hsome := hbranch "fedora".toList (by decide) (by decide)
  rw [hnone] at hsome
  cases hsome

end LSU.OsRelease
