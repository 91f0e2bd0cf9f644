import LSU.Text
import LSU.Json

/-! find_steam_library_folders of .utils.rb: a VDF text becomes JSON by four substitutions,
without being parsed. `none` is a raised exception. -/
namespace LSU.LibraryFolders
open LSU.Text LSU.Json

/-- `\s` -/
def isSpace (c : Char) : Bool :=
  c = ' ' || c = '\t' || c = '\n' || c = '\x0b' || c = '\x0c' || c = '\r'

/-- `\t+"` -/
def tabsQuote : Str → Bool := ahead (· = '\t') '"'

/-- `\n\t+"` -/
def newlineTabsQuote : Str → Bool
  | '\n' :: text => tabsQuote text
  | _ => false

def colonAfterKey : Str → Str := gsubAhead '"' tabsQuote ['"', ':']
def colonBeforeBlock : Str → Str := gsubAhead '"' (ahead isSpace '{') ['"', ':']
def commaAfterValue : Str → Str := gsubAhead '"' newlineTabsQuote ['"', ',']
def commaAfterBlock : Str → Str := gsubAhead '}' newlineTabsQuote ['}', ',']

def vdfToJson (vdf : Str) : Str :=
  commaAfterBlock (commaAfterValue (colonBeforeBlock (colonAfterKey vdf)))

def libraryFoldersKey : Str := "LibraryFolders".toList
def libraryfoldersKey : Str := "libraryfolders".toList
def pathKey : Str := "path".toList

/-- `key =~ /^\d+$/`: one of the lines is a number. -/
def numericLine (key : Str) : Bool :=
  (key.splitOn '\n').any fun line => !line.isEmpty && line.all Char.isDigit

/-- What goes to the list for a numeric key; `none` is nil. -/
def folder : Value → Option Value
  | .obj members => members.get? pathKey
  | .str s => some (.str s)

def numericFolders : Members → List (Option Value)
  | .nil => []
  | .cons key value rest =>
    if numericLine key then folder value :: numericFolders rest else numericFolders rest

/-- The text of the file and the path it is under are given, and what JSON.parse does. -/
def findSteamLibraryFolders (parse : Str → Option Value) (steamRootPath vdf : Str) :
    Option (List (Option Value)) := do
  match ← parse ('{' :: (vdfToJson vdf ++ ['}'])) with
  | .obj data =>
    match data.get? libraryFoldersKey <|> data.get? libraryfoldersKey with
    | some (.obj folders) => return (some (.str steamRootPath) :: numericFolders folders).eraseDups
    | _ => none
  | .str _ => none

/-! The files Steam writes. -/

inductive Block where
  | nil
  | value (key value : Str) (rest : Block)
  | block (key : Str) (inner rest : Block)

def tabs (d : Nat) : Str := List.replicate d '\t'

def quoted (s : Str) : Str := '"' :: (s ++ ['"'])

def Block.text (d : Nat) : Block → Str
  | .nil => []
  | .value key text rest =>
    tabs d ++ quoted key ++ ['\t', '\t'] ++ quoted text ++ ['\n'] ++ rest.text d
  | .block key inner rest =>
    tabs d ++ quoted key ++ ['\n'] ++ tabs d ++ ['{', '\n'] ++ inner.text (d + 1) ++
      tabs d ++ ['}', '\n'] ++ rest.text d

def document (name : Str) (entries : Block) : Str := Block.text 0 (.block name entries .nil)

def Block.keys : Block → List Str
  | .nil => []
  | .value key _ rest => key :: rest.keys
  | .block key _ rest => key :: rest.keys

def PlainText (s : Str) : Prop := ∀ c ∈ s, Plain c

instance (s : Str) : Decidable (PlainText s) := List.decidableBAll Plain s

/-- Texts without quotes, backslashes and control characters, keys that do not start with a
space, and no key twice in a block. -/
def Block.WellFormed : Block → Prop
  | .nil => True
  | .value key text rest =>
    PlainText key ∧ key.head? ≠ some ' ' ∧ PlainText text ∧ key ∉ rest.keys ∧ rest.WellFormed
  | .block key inner rest =>
    PlainText key ∧ key.head? ≠ some ' ' ∧ inner.WellFormed ∧ key ∉ rest.keys ∧ rest.WellFormed

def Numeric (key : Str) : Prop := key ≠ [] ∧ ∀ c ∈ key, c.isDigit = true

instance (key : Str) : Decidable (Numeric key) :=
  @instDecidableAnd _ _ inferInstance (List.decidableBAll _ key)

/-- The text of an entry that is not a block. -/
def Block.value? (key : Str) : Block → Option Str
  | .nil => none
  | .value k v rest => if k = key then some v else rest.value? key
  | .block k _ rest => if k = key then none else rest.value? key

/-- The paths of the numeric entries, in order. -/
def Block.libraryPaths : Block → List Str
  | .nil => []
  | .value key text rest =>
    if Numeric key then text :: rest.libraryPaths else rest.libraryPaths
  | .block key inner rest =>
    if Numeric key then (inner.value? pathKey).toList ++ rest.libraryPaths
    else rest.libraryPaths

def Absolute (path : Str) : Prop := path.head? = some '/'

/-- Every numeric entry gives an absolute path. -/
def Block.GivesPaths : Block → Prop
  | .nil => True
  | .value key text rest => (Numeric key → Absolute text) ∧ rest.GivesPaths
  | .block key inner rest =>
    (Numeric key → ∃ path, inner.value? pathKey = some path ∧ Absolute path) ∧ rest.GivesPaths

/-! The text between the passes: what each of them has put in so far. -/

/-- What stands behind a key, behind an entry that another one follows, and how a value
looks. -/
structure Layout where
  valueColon : Str
  blockColon : Str
  valueComma : Str
  blockComma : Str
  label : Str → Str

def Block.sep (comma : Str) : Block → Str
  | .nil => []
  | _ => comma

def Block.layout (l : Layout) (d : Nat) : Block → Str
  | .nil => []
  | .value key text rest =>
    tabs d ++ '"' :: (key ++ '"' :: (l.valueColon ++ '\t' :: '\t' :: '"' :: (l.label text ++ '"' ::
      (rest.sep l.valueComma ++ '\n' :: rest.layout l d))))
  | .block key inner rest =>
    tabs d ++ '"' :: (key ++ '"' :: (l.blockColon ++ '\n' :: (tabs d ++ '{' :: '\n' ::
      (inner.layout l (d + 1) ++ (tabs d ++ '}' :: (rest.sep l.blockComma ++ '\n' ::
        rest.layout l d))))))

/-- The second pass takes a value of spaces and a brace for a key. -/
def colonised (text : Str) : Str := if ahead isSpace '{' text then ':' :: text else text

def vdf : Layout := ⟨[], [], [], [], id⟩
def colonAfterKeys : Layout := ⟨[':'], [], [], [], id⟩
def colons : Layout := ⟨[':'], [':'], [], [], colonised⟩
def valueCommas : Layout := ⟨[':'], [':'], [','], [], colonised⟩
def json : Layout := ⟨[':'], [':'], [','], [','], colonised⟩

@[simp] theorem Block.sep_nil (rest : Block) : rest.sep [] = [] := by
  cases rest <;> rfl

theorem Block.text_layout (b : Block) (d : Nat) : b.text d = b.layout vdf d := by
  induction b generalizing d with
  | nil => rfl
  | value key text rest ih => simp [Block.text, Block.layout, ih, quoted, vdf]
  | block key inner rest ihi ih => simp [Block.text, Block.layout, ihi, ih, quoted, vdf]

/-! What the lookaheads see. -/

theorem PlainText.ne {s : Str} (hs : PlainText s) {c : Char} (hc : ¬ Plain c) : c ∉ s :=
  fun h => hc (hs c h)

/-- Behind an opening quote stands the first character of the text or the closing quote. -/
theorem PlainText.head {s : Str} (hs : PlainText s) (rest : Str) :
    ∃ x xs, s ++ '"' :: rest = x :: xs ∧ x ≠ '\t' ∧ x ≠ '\n' := by
  cases s with
  | nil => exact ⟨'"', rest, rfl, by decide, by decide⟩
  | cons c s =>
    have hc := hs c List.mem_cons_self
    refine ⟨c, s ++ '"' :: rest, rfl, ?_, ?_⟩
    · rintro rfl
      exact absurd hc (by decide)
    · rintro rfl
      exact absurd hc (by decide)

theorem tabsQuote_text {s : Str} (hs : PlainText s) (rest : Str) :
    tabsQuote (s ++ '"' :: rest) = false := by
  obtain ⟨x, xs, hx, hne, -⟩ := hs.head rest
  rw [hx, tabsQuote, ahead_false (by simpa using hne)]

theorem newlineTabsQuote_cons {x : Char} (hx : x ≠ '\n') (xs : Str) :
    newlineTabsQuote (x :: xs) = false := by
  unfold newlineTabsQuote
  split
  · simp_all
  · rfl

theorem newlineTabsQuote_text {s : Str} (hs : PlainText s) (rest : Str) :
    newlineTabsQuote (s ++ '"' :: rest) = false := by
  obtain ⟨x, xs, hx, -, hne⟩ := hs.head rest
  rw [hx, newlineTabsQuote_cons hne]

theorem tabs_not_mem {c : Char} (hc : c ≠ '\t') (d : Nat) : c ∉ tabs d :=
  fun h => hc (List.eq_of_mem_replicate h)

/-- An opening quote that does not look like a closing one, and the text behind it. -/
theorem gsub_quoted {look : Str → Bool} {rep s rest : Str} (hs : PlainText s)
    (hlook : look (s ++ '"' :: rest) = false) :
    gsubAhead '"' look rep ('"' :: (s ++ '"' :: rest)) =
      '"' :: (s ++ gsubAhead '"' look rep ('"' :: rest)) := by
  rw [gsubAhead_miss hlook, gsubAhead_skip (hs.ne (by decide))]

theorem gsub_tabs {look : Str → Bool} {c : Char} {rep : Str} (hc : c ≠ '\t') (d : Nat)
    (rest : Str) : gsubAhead c look rep (tabs d ++ rest) = tabs d ++ gsubAhead c look rep rest :=
  gsubAhead_skip (tabs_not_mem hc d) rest

theorem colonAfterKey_layout {b : Block} (hb : b.WellFormed) (d : Nat) (tail : Str) :
    colonAfterKey (b.layout vdf d ++ tail) =
      b.layout colonAfterKeys d ++ colonAfterKey tail := by
  unfold colonAfterKey
  induction b generalizing d tail with
  | nil => rfl
  | value key text rest ih =>
    obtain ⟨hkey, -, htext, -, hrest⟩ := hb
    simp only [Block.layout, vdf, colonAfterKeys, Block.sep_nil, List.append_assoc,
      List.cons_append, List.nil_append, id_eq] at ih ⊢
    rw [gsub_tabs (by decide), gsub_quoted hkey (tabsQuote_text hkey _), gsubAhead_hit rfl,
      gsubAhead_other (by decide), gsubAhead_other (by decide),
      gsub_quoted htext (tabsQuote_text htext _), gsubAhead_miss rfl,
      gsubAhead_other (by decide), ih hrest]
    rfl
  | block key inner rest ihi ih =>
    obtain ⟨hkey, -, hinner, -, hrest⟩ := hb
    simp only [Block.layout, vdf, colonAfterKeys, Block.sep_nil, List.append_assoc,
      List.cons_append, List.nil_append] at ihi ih ⊢
    rw [gsub_tabs (by decide), gsub_quoted hkey (tabsQuote_text hkey _), gsubAhead_miss rfl,
      gsubAhead_other (by decide), gsub_tabs (by decide), gsubAhead_other (by decide),
      gsubAhead_other (by decide), ihi hinner, gsub_tabs (by decide), gsubAhead_other (by decide),
      gsubAhead_other (by decide), ih hrest]

/-- What stands behind the entries of a block: not a brace that opens a block. -/
def Closes (tail : Str) : Prop := (tail.dropWhile isSpace).head? ≠ some '{'

theorem tabs_isSpace (d : Nat) : ∀ c ∈ tabs d, isSpace c = true := by
  intro c hc
  rw [List.eq_of_mem_replicate hc]
  rfl

theorem closes_brace (d : Nat) (rest : Str) : Closes (tabs d ++ '}' :: rest) := by
  rw [Closes, List.dropWhile_append_of_pos (tabs_isSpace d)]
  simp [isSpace]

theorem closes_layout {tail : Str} (ht : Closes tail) (l : Layout) (b : Block) (d : Nat) :
    Closes (b.layout l d ++ tail) := by
  cases b with
  | nil => exact ht
  | value key text rest =>
    rw [Closes, Block.layout, List.append_assoc, List.dropWhile_append_of_pos (tabs_isSpace d)]
    simp [isSpace]
  | block key inner rest =>
    rw [Closes, Block.layout, List.append_assoc, List.dropWhile_append_of_pos (tabs_isSpace d)]
    simp [isSpace]

theorem spaceBrace_newline {tail : Str} (ht : Closes tail) :
    ahead isSpace '{' ('\n' :: tail) = false := by
  simpa [ahead, Closes] using fun _ => ht

theorem spaceBrace_quote (s rest : Str) :
    ahead isSpace '{' (s ++ '"' :: rest) = ahead isSpace '{' s := by
  cases s with
  | nil => rfl
  | cons c s =>
    have hdrop : ((s ++ '"' :: rest).dropWhile isSpace).head? = some '{' ↔
        (s.dropWhile isSpace).head? = some '{' := by
      induction s with
      | nil => simp [isSpace]
      | cons x s ih => by_cases hx : isSpace x = true <;> simp [hx, ih]
    simp [ahead, hdrop]

theorem isSpace_plain {c : Char} (hc : Plain c) (hne : c ≠ ' ') : isSpace c = false := by
  by_contra hs
  have hcases : c = ' ' ∨ c = '\t' ∨ c = '\n' ∨ c = '\x0b' ∨ c = '\x0c' ∨ c = '\r' := by
    have hs' : isSpace c = true := by simpa using hs
    simpa only [isSpace, Bool.or_eq_true, decide_eq_true_eq, or_assoc] using hs'
  obtain rfl | rfl | rfl | rfl | rfl | rfl := hcases
  · exact hne rfl
  all_goals exact absurd hc (by decide)

theorem spaceBrace_key {key : Str} (hkey : PlainText key) (hhead : key.head? ≠ some ' ')
    (rest : Str) : ahead isSpace '{' (key ++ '"' :: rest) = false := by
  rw [spaceBrace_quote]
  cases key with
  | nil => rfl
  | cons c key =>
    have hc := hkey c List.mem_cons_self
    exact ahead_false (isSpace_plain hc (by simpa using hhead)) key

theorem gsub_value {text rest : Str} (htext : PlainText text) :
    gsubAhead '"' (ahead isSpace '{') ['"', ':'] ('"' :: (text ++ '"' :: rest)) =
      '"' :: (colonised text ++ gsubAhead '"' (ahead isSpace '{') ['"', ':'] ('"' :: rest)) := by
  have hlook := spaceBrace_quote text rest
  by_cases h : ahead isSpace '{' text = true
  · rw [gsubAhead_hit (hlook.trans h), gsubAhead_skip (htext.ne (by decide)), colonised, if_pos h]
    rfl
  · rw [gsub_quoted htext (hlook.trans (by simpa using h)), colonised, if_neg h]

theorem colonBeforeBlock_layout {b : Block} (hb : b.WellFormed) (d : Nat) (tail : Str)
    (ht : Closes tail) :
    colonBeforeBlock (b.layout colonAfterKeys d ++ tail) =
      b.layout colons d ++ colonBeforeBlock tail := by
  unfold colonBeforeBlock
  induction b generalizing d tail with
  | nil => rfl
  | value key text rest ih =>
    obtain ⟨hkey, hhead, htext, -, hrest⟩ := hb
    have hnext := spaceBrace_newline (closes_layout ht colonAfterKeys rest d)
    simp only [Block.layout, colons, colonAfterKeys, Block.sep_nil, List.append_assoc,
      List.cons_append, List.nil_append, id_eq] at hnext ih ⊢
    rw [gsub_tabs (by decide), gsub_quoted hkey (spaceBrace_key hkey hhead _), gsubAhead_miss rfl,
      gsubAhead_other (by decide), gsubAhead_other (by decide), gsubAhead_other (by decide),
      gsub_value htext, gsubAhead_miss hnext, gsubAhead_other (by decide), ih hrest d tail ht]
  | block key inner rest ihi ih =>
    obtain ⟨hkey, hhead, hinner, -, hrest⟩ := hb
    have hopen : ∀ x, ahead isSpace '{' ('\n' :: (tabs d ++ '{' :: x)) = true := fun x =>
      ahead_class (tabs_isSpace d) rfl rfl x
    simp only [Block.layout, colons, colonAfterKeys, Block.sep_nil, List.append_assoc,
      List.cons_append, List.nil_append] at ihi ih ⊢
    rw [gsub_tabs (by decide), gsub_quoted hkey (spaceBrace_key hkey hhead _),
      gsubAhead_hit (hopen _), gsubAhead_other (by decide), gsub_tabs (by decide),
      gsubAhead_other (by decide), gsubAhead_other (by decide),
      ihi hinner (d + 1) _ (closes_brace d _), gsub_tabs (by decide), gsubAhead_other (by decide),
      gsubAhead_other (by decide), ih hrest d tail ht]
    rfl

theorem colonised_plain {text : Str} (htext : PlainText text) : PlainText (colonised text) := by
  unfold colonised
  split
  · intro c hc
    obtain rfl | hc := List.mem_cons.mp hc
    · decide
    · exact htext c hc
  · exact htext

theorem tabsQuote_tabs {c : Char} (hc : c ≠ '\t') (d : Nat) (rest : Str) :
    tabsQuote (tabs (d + 1) ++ c :: rest) = decide (c = '"') :=
  ahead_class (fun x hx => by simpa using List.eq_of_mem_replicate hx) rfl (by simpa using hc) rest

theorem tabsQuote_brace (d : Nat) (rest : Str) : tabsQuote (tabs d ++ '}' :: rest) = false := by
  cases d with
  | zero => rfl
  | succ d => exact tabsQuote_tabs (by decide) d rest

/-- Behind a closing quote or brace there is another entry exactly when the block goes on. -/
theorem newlineTabsQuote_rest {tail : Str} (ht : tabsQuote tail = false) (l : Layout)
    {rest : Block} {d : Nat} (hd : d = 0 → rest = .nil) :
    newlineTabsQuote ('\n' :: (rest.layout l d ++ tail)) = true ↔ rest ≠ .nil := by
  cases rest with
  | nil => simpa [newlineTabsQuote, Block.layout] using ht
  | value key text rest =>
    obtain ⟨n, rfl⟩ : ∃ n, d = n + 1 := Nat.exists_eq_succ_of_ne_zero (mt hd nofun)
    simp [newlineTabsQuote, Block.layout, tabsQuote_tabs]
  | block key inner rest =>
    obtain ⟨n, rfl⟩ : ∃ n, d = n + 1 := Nat.exists_eq_succ_of_ne_zero (mt hd nofun)
    simp [newlineTabsQuote, Block.layout, tabsQuote_tabs]

/-- A comma goes behind `c` exactly when the block goes on. -/
theorem gsub_comma {c : Char} (hc : '\n' ≠ c) {tail : Str} (ht : tabsQuote tail = false)
    (l : Layout) {rest : Block} {d : Nat} (hd : d = 0 → rest = .nil) :
    gsubAhead c newlineTabsQuote [c, ','] (c :: '\n' :: (rest.layout l d ++ tail)) =
      c :: (rest.sep [','] ++
        '\n' :: gsubAhead c newlineTabsQuote [c, ','] (rest.layout l d ++ tail)) := by
  have hlook := newlineTabsQuote_rest ht l hd
  cases rest with
  | nil =>
    rw [gsubAhead_miss (by simpa using hlook), gsubAhead_other hc]
    rfl
  | value key text rest =>
    rw [gsubAhead_hit (hlook.mpr nofun), gsubAhead_other hc]
    rfl
  | block key inner rest =>
    rw [gsubAhead_hit (hlook.mpr nofun), gsubAhead_other hc]
    rfl

def Block.rest : Block → Block
  | .nil => .nil
  | .value _ _ rest => rest
  | .block _ _ rest => rest

theorem Block.rest_rest {b : Block} {d : Nat} (hd : d = 0 → b.rest = .nil) :
    d = 0 → b.rest.rest = .nil := by
  intro h
  rw [hd h, Block.rest]

theorem commaAfterValue_layout {b : Block} (hb : b.WellFormed) (d : Nat)
    (hd : d = 0 → b.rest = .nil) (tail : Str) (ht : tabsQuote tail = false) :
    commaAfterValue (b.layout colons d ++ tail) =
      b.layout valueCommas d ++ commaAfterValue tail := by
  unfold commaAfterValue
  induction b generalizing d tail with
  | nil => rfl
  | value key text rest ih =>
    obtain ⟨hkey, -, htext, -, hrest⟩ := hb
    have hlabel := colonised_plain htext
    have hlast : d = 0 → rest = .nil := hd
    have hcomma := gsub_comma (c := '"') (by decide) ht colons hlast
    have hnext := ih hrest d (Block.rest_rest hd) tail ht
    simp only [Block.layout, colons, valueCommas, Block.sep_nil, List.append_assoc,
      List.cons_append, List.nil_append] at hcomma hnext ⊢
    rw [gsub_tabs (by decide), gsub_quoted hkey (newlineTabsQuote_text hkey _), gsubAhead_miss rfl,
      gsubAhead_other (by decide), gsubAhead_other (by decide), gsubAhead_other (by decide),
      gsub_quoted hlabel (newlineTabsQuote_text hlabel _), hcomma, hnext]
  | block key inner rest ihi ih =>
    obtain ⟨hkey, -, hinner, -, hrest⟩ := hb
    have hnext := ih hrest d (Block.rest_rest hd) tail ht
    have hin := fun x => ihi hinner (d + 1) nofun (tabs d ++ '}' :: x) (tabsQuote_brace d x)
    simp only [Block.layout, colons, valueCommas, Block.sep_nil, List.append_assoc,
      List.cons_append, List.nil_append] at hin hnext ⊢
    rw [gsub_tabs (by decide), gsub_quoted hkey (newlineTabsQuote_text hkey _), gsubAhead_miss rfl,
      gsubAhead_other (by decide), gsubAhead_other (by decide), gsub_tabs (by decide),
      gsubAhead_other (by decide), gsubAhead_other (by decide), hin, gsub_tabs (by decide),
      gsubAhead_other (by decide), gsubAhead_other (by decide), hnext]

/-- Braces in a text are not at the end of a line. -/
theorem gsub_brace_text {s : Str} (hs : PlainText s) (rest : Str) :
    gsubAhead '}' newlineTabsQuote ['}', ','] (s ++ '"' :: rest) =
      s ++ '"' :: gsubAhead '}' newlineTabsQuote ['}', ','] rest := by
  rw [gsubAhead_stay, gsubAhead_other (by decide)]
  rintro u v rfl
  exact newlineTabsQuote_text (fun c hc => hs c (List.mem_append_right u hc)) rest

theorem commaAfterBlock_layout {b : Block} (hb : b.WellFormed) (d : Nat)
    (hd : d = 0 → b.rest = .nil) (tail : Str) (ht : tabsQuote tail = false) :
    commaAfterBlock (b.layout valueCommas d ++ tail) =
      b.layout json d ++ commaAfterBlock tail := by
  unfold commaAfterBlock
  induction b generalizing d tail with
  | nil => rfl
  | value key text rest ih =>
    obtain ⟨hkey, -, htext, -, hrest⟩ := hb
    have hlabel := colonised_plain htext
    have hnext := ih hrest d (Block.rest_rest hd) tail ht
    have hsep : ∀ x, gsubAhead '}' newlineTabsQuote ['}', ','] (rest.sep [','] ++ x) =
        rest.sep [','] ++ gsubAhead '}' newlineTabsQuote ['}', ','] x := fun x =>
      gsubAhead_skip (by cases rest <;> simp [Block.sep]) x
    simp only [Block.layout, valueCommas, json, List.append_assoc, List.cons_append,
      List.nil_append] at hnext ⊢
    rw [gsub_tabs (by decide), gsubAhead_other (by decide), gsub_brace_text hkey,
      gsubAhead_other (by decide), gsubAhead_other (by decide), gsubAhead_other (by decide),
      gsubAhead_other (by decide), gsub_brace_text hlabel, hsep, gsubAhead_other (by decide), hnext]
  | block key inner rest ihi ih =>
    obtain ⟨hkey, -, hinner, -, hrest⟩ := hb
    have hlast : d = 0 → rest = .nil := hd
    have hcomma := gsub_comma (c := '}') (by decide) ht valueCommas hlast
    have hnext := ih hrest d (Block.rest_rest hd) tail ht
    have hin := fun x => ihi hinner (d + 1) nofun (tabs d ++ '}' :: x) (tabsQuote_brace d x)
    simp only [Block.layout, valueCommas, json, Block.sep_nil, List.append_assoc,
      List.cons_append, List.nil_append] at hcomma hin hnext ⊢
    rw [gsub_tabs (by decide), gsubAhead_other (by decide), gsub_brace_text hkey,
      gsubAhead_other (by decide), gsubAhead_other (by decide), gsub_tabs (by decide),
      gsubAhead_other (by decide), gsubAhead_other (by decide), hin, gsub_tabs (by decide), hcomma,
      hnext]

/-- The four passes put colons and commas exactly at the places of the layout. -/
theorem vdfToJson_document {name : Str} {entries : Block}
    (hb : (Block.block name entries .nil).WellFormed) :
    vdfToJson (document name entries) = (Block.block name entries .nil).layout json 0 := by
  have h1 := colonAfterKey_layout hb 0 []
  have h2 := colonBeforeBlock_layout hb 0 [] (by simp [Closes])
  have h3 := commaAfterValue_layout hb 0 (fun _ => rfl) [] rfl
  have h4 := commaAfterBlock_layout hb 0 (fun _ => rfl) [] rfl
  simp only [List.append_nil] at h1 h2 h3 h4
  rw [vdfToJson, document, Block.text_layout, h1]
  simp only [colonAfterKey, gsubAhead, List.append_nil]
  rw [h2]
  simp only [colonBeforeBlock, gsubAhead, List.append_nil]
  rw [h3]
  simp only [commaAfterValue, gsubAhead, List.append_nil]
  rw [h4]
  simp only [commaAfterBlock, gsubAhead, List.append_nil]

/-! The result is JSON. -/

def Block.members : Block → Members
  | .nil => .nil
  | .value key text rest => .cons key (.str (colonised text)) rest.members
  | .block key inner rest => .cons key (.obj inner.members) rest.members

theorem Block.members_keys (b : Block) : b.members.keys = b.keys := by
  induction b with
  | nil => rfl
  | value key text rest ih => simp [Block.members, Members.keys, Block.keys, ih]
  | block key inner rest ihi ih => simp [Block.members, Members.keys, Block.keys, ih]

theorem Block.WellFormed.nodup {b : Block} (hb : b.WellFormed) : b.members.keys.Nodup := by
  rw [Block.members_keys]
  induction b with
  | nil => exact List.nodup_nil
  | value key text rest ih =>
    obtain ⟨-, -, -, hnew, hrest⟩ := hb
    exact List.nodup_cons.mpr ⟨hnew, ih hrest⟩
  | block key inner rest ihi ih =>
    obtain ⟨-, -, -, hnew, hrest⟩ := hb
    exact List.nodup_cons.mpr ⟨hnew, ih hrest⟩

theorem tabs_isWs (d : Nat) : ∀ c ∈ tabs d, isWs c = true := by
  intro c hc
  rw [List.eq_of_mem_replicate hc]
  rfl

/-- One member: the last one, or one with a comma and the others behind it. -/
theorem newline_isWs : ∀ c ∈ ['\n'], isWs c = true := by simp [isWs]

theorem reads_member {pre key text after : Str} {v : Value} {b : Block} {d : Nat}
    (hpre : ∀ c ∈ pre, isWs c = true) (hkey : PlainText key) {ws : Str}
    (hws : ∀ c ∈ ws, isWs c = true)
    (hv : Reads text (.inl v)
      (b.sep [','] ++ '\n' :: (b.layout json d ++ (ws ++ '}' :: after))))
    (hb : b ≠ .nil → Reads ('\n' :: (b.layout json d ++ (ws ++ '}' :: after))) (.inr b.members)
      after) :
    Reads (pre ++ (tabs d ++ '"' :: (key ++ '"' :: (':' :: text)))) (.inr (.cons key v b.members))
      after := by
  have hopen : ∀ c ∈ pre ++ tabs d, isWs c = true := by
    intro c hc
    exact (List.mem_append.mp hc).elim (hpre c) (tabs_isWs d c)
  rw [← List.append_assoc]
  cases b with
  | nil =>
    refine @Reads.one _ _ [] _ ('\n' :: ws) _ _ hopen hkey (by simp) ?_ hv
    simpa using ⟨rfl, hws⟩
  | value k t b =>
    exact @Reads.cons _ _ [] _ [] _ _ _ _ hopen hkey (by simp) (by simp) hv (hb nofun)
  | block k i b =>
    exact @Reads.cons _ _ [] _ [] _ _ _ _ hopen hkey (by simp) (by simp) hv (hb nofun)

theorem reads_layout {b : Block} (hb : b.WellFormed) (hne : b ≠ .nil) (d : Nat) (pre ws after : Str)
    (hpre : ∀ c ∈ pre, isWs c = true) (hws : ∀ c ∈ ws, isWs c = true) :
    Reads (pre ++ (b.layout json d ++ (ws ++ '}' :: after))) (.inr b.members) after := by
  induction b generalizing d pre ws after with
  | nil => exact absurd rfl hne
  | value key text rest ih =>
    obtain ⟨hkey, -, htext, -, hrest⟩ := hb
    have hnext : rest ≠ .nil → Reads ('\n' :: (rest.layout json d ++ (ws ++ '}' :: after)))
        (.inr rest.members) after := fun hr => ih hrest hr d ['\n'] ws after newline_isWs hws
    have hval := Reads.spaces ['\t', '\t'] (tabs_isWs 2) (@Reads.str _
      (rest.sep [','] ++ '\n' :: (rest.layout json d ++ (ws ++ '}' :: after)))
      (colonised_plain htext))
    have hmember := reads_member hpre hkey hws hval hnext
    simpa [Block.layout, json, Block.members] using hmember
  | block key inner rest ihi ih =>
    obtain ⟨hkey, -, hinner, -, hrest⟩ := hb
    have hnext : rest ≠ .nil → Reads ('\n' :: (rest.layout json d ++ (ws ++ '}' :: after)))
        (.inr rest.members) after := fun hr => ih hrest hr d ['\n'] ws after newline_isWs hws
    have hobj : ∀ x, Reads ('{' :: '\n' :: (inner.layout json (d + 1) ++ (tabs d ++ '}' :: x)))
        (.inl (.obj inner.members)) x := by
      intro x
      by_cases hi : inner = .nil
      · subst hi
        refine @Reads.empty ('\n' :: tabs d) x ?_
        simpa using ⟨rfl, tabs_isWs d⟩
      · exact Reads.obj hinner.nodup
          (ihi hinner hi (d + 1) ['\n'] (tabs d) x newline_isWs (tabs_isWs d))
    have hval := Reads.spaces ('\n' :: tabs d) (by simpa using ⟨rfl, tabs_isWs d⟩)
      (hobj (rest.sep [','] ++ '\n' :: (rest.layout json d ++ (ws ++ '}' :: after))))
    have hmember := reads_member hpre hkey hws hval hnext
    simpa [Block.layout, json, Block.members] using hmember

theorem denotes_document {name : Str} {entries : Block}
    (hb : (Block.block name entries .nil).WellFormed) :
    Denotes ('{' :: (vdfToJson (document name entries) ++ ['}']))
      (.obj (Block.block name entries .nil).members) := by
  have hread := reads_layout hb nofun 0 [] [] [] (by simp) (by simp)
  rw [vdfToJson_document hb]
  exact ⟨[], Reads.obj hb.nodup hread, by simp⟩

/-! What is found. -/

/-- A text without line breaks is its own only line. -/
theorem numericLine_plain {key : Str} (hkey : PlainText key) :
    numericLine key = true ↔ Numeric key := by
  have hone : key.splitOn '\n' = [key] := by
    refine List.splitOnP_eq_singleton fun c hc => ?_
    have hne : c ≠ '\n' := by
      rintro rfl
      exact absurd (hkey _ hc) (by decide)
    simpa using hne
  cases key <;> simp [numericLine, hone, Numeric]

theorem colonised_absolute {path : Str} (hpath : Absolute path) : colonised path = path := by
  cases path with
  | nil => simp [Absolute] at hpath
  | cons c path =>
    obtain rfl : c = '/' := by simpa [Absolute] using hpath
    rw [colonised, ahead_false (by decide)]
    rfl

theorem get?_members {b : Block} {key path : Str} (h : b.value? key = some path) :
    b.members.get? key = some (.str (colonised path)) := by
  induction b with
  | nil => simp [Block.value?] at h
  | value k text rest ih =>
    by_cases hk : k = key
    · obtain rfl : text = path := by simpa [Block.value?, hk] using h
      simp [Block.members, Members.get?, hk]
    · simpa [Block.members, Members.get?, hk] using ih (by simpa [Block.value?, hk] using h)
  | block k inner rest ihi ih =>
    by_cases hk : k = key
    · simp [Block.value?, hk] at h
    · simpa [Block.members, Members.get?, hk] using ih (by simpa [Block.value?, hk] using h)

theorem numericFolders_members {b : Block} (hb : b.WellFormed) (hpaths : b.GivesPaths) :
    numericFolders b.members = b.libraryPaths.map fun path => some (.str path) := by
  induction b with
  | nil => rfl
  | value key text rest ih =>
    obtain ⟨hkey, -, -, -, hrest⟩ := hb
    have hnext := ih hrest hpaths.2
    by_cases hn : Numeric key
    · have hline := (numericLine_plain hkey).mpr hn
      simp [Block.members, numericFolders, folder, Block.libraryPaths, hline, hn, hnext,
        colonised_absolute (hpaths.1 hn)]
    · have hline := mt (numericLine_plain hkey).mp hn
      simp [Block.members, numericFolders, Block.libraryPaths, hline, hn, hnext]
  | block key inner rest ihi ih =>
    obtain ⟨hkey, -, -, -, hrest⟩ := hb
    have hnext := ih hrest hpaths.2
    by_cases hn : Numeric key
    · have hline := (numericLine_plain hkey).mpr hn
      obtain ⟨path, hpath, habs⟩ := hpaths.1 hn
      simp [Block.members, numericFolders, folder, Block.libraryPaths, hline, hn, hnext,
        get?_members hpath, hpath, colonised_absolute habs]
    · have hline := mt (numericLine_plain hkey).mp hn
      simp [Block.members, numericFolders, Block.libraryPaths, hline, hn, hnext]

/-- For every file Steam writes the library folders are the root and the paths of the numeric
entries, in order, each once; whatever JSON parser is used. -/
theorem library_folders_of_vdf (parse : Str → Option Value)
    (hparse : ∀ text v, Denotes text v → parse text = some v) (steamRootPath name : Str)
    (hname : name = libraryFoldersKey ∨ name = libraryfoldersKey) (entries : Block)
    (hwf : entries.WellFormed) (hpaths : entries.GivesPaths) :
    findSteamLibraryFolders parse steamRootPath (document name entries) =
      some ((steamRootPath :: entries.libraryPaths).map fun path =>
        some (.str path)).eraseDups := by
  have hb : (Block.block name entries .nil).WellFormed := by
    refine ⟨?_, ?_, hwf, by simp [Block.keys], trivial⟩
    · obtain rfl | rfl := hname <;> decide
    · obtain rfl | rfl := hname <;> decide
  have hget : (Members.get? libraryFoldersKey (Block.block name entries .nil).members <|>
      Members.get? libraryfoldersKey (Block.block name entries .nil).members) =
        some (.obj entries.members) := by
    have hne : libraryfoldersKey ≠ libraryFoldersKey := by decide
    obtain rfl | rfl := hname
    · simp [Block.members, Members.get?]
    · simp [Block.members, Members.get?, hne]
  rw [findSteamLibraryFolders, hparse _ _ (denotes_document hb)]
  simp only [Option.bind_eq_bind, Option.bind_some, hget, numericFolders_members hwf hpaths,
    List.map_cons, Option.pure_def]

def steamEntries : Block :=
  .value "TimeNextStatsReport".toList "  {1}".toList <|
  .block "0".toList (.value pathKey "/home/u/Steam".toList <| .block "apps".toList .nil .nil) <|
  .value "1".toList "/mnt/games".toList <| .value "2".toList "/home/u/Steam".toList .nil

theorem library_folders_of_vdf_steam :
    findSteamLibraryFolders parse "/home/u/Steam".toList (document libraryfoldersKey steamEntries) =
      some [some (.str "/home/u/Steam".toList), some (.str "/mnt/games".toList)] := by
  refine (library_folders_of_vdf parse (fun _ _ => parse_denotes) "/home/u/Steam".toList
    libraryfoldersKey (Or.inr rfl) steamEntries ?_ ?_).trans (by decide)
  · simp only [steamEntries, Block.WellFormed]
    decide
  · simp only [steamEntries, Block.GivesPaths, Absolute]
    decide

end LSU.LibraryFolders
