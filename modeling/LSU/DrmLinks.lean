import Mathlib.Data.List.AList
import LSU.RubyString

/-! The linsysfs + drm workaround of lsu-mount-runtime, up to the links of the cards. A raise
is `none`. -/
namespace LSU.DrmLinks
open LSU.Commands LSU.Numerals LSU.RubyString

/-- On ASCII, which PCI ids are. -/
def downcase (s : Str) : Str := s.map Char.toLower

def pciIdKey : Str := "PCI_ID=".toList

/-- `/PCI_ID=(.+)$/` -/
def pciId : Str → Option Str
  | [] => none
  | c :: cs =>
    let id := ((c :: cs).drop pciIdKey.length).takeWhile (· ≠ '\n')
    if pciIdKey <+: c :: cs ∧ id ≠ [] then some id else pciId cs

def pciIdName : Str := "PCI_ID: ".toList

/-- The first `n` characters as the index, any character, and the id. -/
def indexAndId (rest : Str) (n : Nat) : Option (Nat × Str) :=
  match rest.drop n with
  | [] => none
  | _ :: tail =>
    if 0 < n ∧ pciIdName <+: tail then
      some (value (rest.take n), tail.drop pciIdName.length)
    else
      none

/-- `/^dev.drm.(\d+).PCI_ID: (.*)$/` on a line. The character behind the digits may be the
last one of them. -/
def drmLine : Str → Option (Nat × Str)
  | 'd' :: 'e' :: 'v' :: _ :: 'd' :: 'r' :: 'm' :: _ :: rest =>
    let digits := (rest.takeWhile Char.isDigit).length
    (indexAndId rest digits).or (indexAndId rest (digits - 1))
  | _ => none

/-- The components of a path below sys. -/
abbrev Path := List Str

inductive Node where
  | link (target : Str)
  | dir
  | file (text : Str)
deriving DecidableEq

abbrev Tree := AList fun _ : Path => Node

/-- Behind a link that is there already lies linsysfs, where no link can be made. -/
def lnS (tree : Tree) (target : Str) (path : Path) : Option Tree :=
  if path ∈ tree then none else some (tree.insert path (.link target))

def mkdirP (tree : Tree) (path : Path) : Tree :=
  if path ∈ tree then tree else tree.insert path .dir

def classDrm : Path := ["class".toList, "drm".toList]

def devChar : Path := ["dev".toList, "char".toList]

/-- class/drm/card<idx> -/
def cardLink (idx : Nat) : Path := classDrm ++ ["card".toList ++ decimal idx]

/-- dev/char/226:<idx> -/
def charDir (idx : Nat) : Path := devChar ++ ["226:".toList ++ decimal idx]

def deviceLink (idx : Nat) : Path := charDir idx ++ ["device".toList]

def ueventFile (idx : Nat) : Path := charDir idx ++ ["uevent".toList]

def cardTarget (cardDir : Str) : Str := "../../".toList ++ cardDir

def deviceTarget (cardDir : Str) : Str := "../../../".toList ++ cardDir ++ "/device".toList

def uevent (idx : Nat) : Str :=
  "MAJOR=226\nMINOR=".toList ++ decimal idx ++ "\nDEVNAME=dri/card".toList ++ decimal idx ++
    "\nDEVTYPE=dri_minor\n".toList

/-- A directory .sys/class/drm/card*, and what its device/uevent reads. -/
structure Card where
  dir : Str
  uevent : Str
deriving DecidableEq

def Card.id (card : Card) : Option Str := (pciId card.uevent).map downcase

abbrev CardDirs := AList fun _ : Str => Str

/-- A later card with the same id takes the place of an earlier one. -/
def addCard (cardDirByPciId : CardDirs) (card : Card) : Option CardDirs :=
  card.id.map fun id => cardDirByPciId.insert id card.dir

/-- The body of the loop over the lines of sysctl. -/
def linkLine (cardDirByPciId : CardDirs) (tree : Tree) (line : Str) : Option Tree :=
  match drmLine line with
  | none => some tree
  | some (idx, id) =>
    match cardDirByPciId.lookup id with
    | none => some tree
    | some cardDir => do
      let tree ← lnS tree (cardTarget cardDir) (cardLink idx)
      let tree ← lnS (mkdirP tree (charDir idx)) (deviceTarget cardDir) (deviceLink idx)
      return tree.insert (ueventFile idx) (.file (LSU.DrmLinks.uevent idx))

def linkCards (cards : List Card) (listing : Str) : Option Tree := do
  let cardDirByPciId ← cards.foldlM addCard ∅
  (lines listing).foldlM (linkLine cardDirByPciId) (mkdirP (mkdirP ∅ classDrm) devChar)

/-- The indices of a listing with their ids. -/
def listed (listing : Str) : List (Nat × Str) := (lines listing).filterMap drmLine

/-- Cards in the order of Dir, each with an id, and a listing that gives each index once, and
an id to as many indices as there are cards with it. -/
structure Machine where
  cards : List Card
  listing : Str
  dirs_nodup : (cards.map Card.dir).Nodup
  indices_nodup : ((listed listing).map Prod.fst).Nodup
  ids : ((listed listing).map fun e => some (downcase e.2)).Perm (cards.map Card.id)

/-- Both links of an index lead to a card with its id. -/
def Linked (cards : List Card) (tree : Tree) (idx : Nat) (id : Str) : Prop :=
  ∃ card ∈ cards, card.id = some (downcase id) ∧
    tree.lookup (cardLink idx) = some (.link (cardTarget card.dir)) ∧
    tree.lookup (deviceLink idx) = some (.link (deviceTarget card.dir))

/-- Every listed index is linked, and no two to the same directory. -/
def LinksEach (m : Machine) : Prop :=
  ∃ tree, linkCards m.cards m.listing = some tree ∧
    (∀ e ∈ listed m.listing, Linked m.cards tree e.1 e.2) ∧
    ∀ e ∈ listed m.listing, ∀ f ∈ listed m.listing, e.1 ≠ f.1 →
      tree.lookup (cardLink e.1) ≠ tree.lookup (cardLink f.1)

/-! The paths of an index are its own. -/

theorem cardLink_ne {i j : Nat} (h : i ≠ j) : cardLink i ≠ cardLink j := by
  intro heq
  apply h
  have hname : decimal i = decimal j := by simpa [cardLink] using heq
  rw [← value_decimal i, hname, value_decimal]

theorem charDir_ne {i j : Nat} (h : i ≠ j) : charDir i ≠ charDir j := by
  intro heq
  apply h
  have hname : decimal i = decimal j := by simpa [charDir] using heq
  rw [← value_decimal i, hname, value_decimal]

theorem deviceLink_ne {i j : Nat} (h : i ≠ j) : deviceLink i ≠ deviceLink j := by
  intro heq
  apply charDir_ne h
  exact (List.append_inj heq (by simp [charDir])).1

theorem cardLink_ne_charDir (i j : Nat) : cardLink i ≠ charDir j := by
  simp [cardLink, charDir, classDrm, devChar]

theorem cardLink_ne_below (i j : Nat) (name : Str) : cardLink i ≠ charDir j ++ [name] := by
  simp [cardLink, charDir, classDrm, devChar]

theorem cardLink_ne_deviceLink (i j : Nat) : cardLink i ≠ deviceLink j := cardLink_ne_below i j _

theorem cardLink_ne_ueventFile (i j : Nat) : cardLink i ≠ ueventFile j := cardLink_ne_below i j _

theorem deviceLink_ne_charDir (i j : Nat) : deviceLink i ≠ charDir j := by
  intro heq
  have hlen := congrArg List.length heq
  simp [deviceLink, charDir, devChar] at hlen

theorem deviceLink_ne_ueventFile (i j : Nat) : deviceLink i ≠ ueventFile j := by
  intro heq
  have hlast := (List.append_inj heq (by simp [charDir])).2
  revert hlast
  decide

/-! The hash of the first loop. -/

theorem foldlM_addCard {cards : List Card} (h : ∀ card ∈ cards, card.id.isSome = true)
    (start : CardDirs) :
    ∃ dirs, cards.foldlM addCard start = some dirs ∧
      (∀ id dir, dirs.lookup id = some dir →
        start.lookup id = some dir ∨ ∃ card ∈ cards, card.id = some id ∧ card.dir = dir) ∧
      ∀ id, (id ∈ start ∨ ∃ card ∈ cards, card.id = some id) → id ∈ dirs := by
  induction cards generalizing start with
  | nil => exact ⟨start, rfl, fun id dir hdir => Or.inl hdir, fun id hid => by simpa using hid⟩
  | cons card cards ih =>
    rw [List.forall_mem_cons] at h
    obtain ⟨id, hid⟩ := Option.isSome_iff_exists.mp h.1
    obtain ⟨dirs, hfold, hfrom, hall⟩ := ih h.2 (start.insert id card.dir)
    refine ⟨dirs, ?_, ?_, ?_⟩
    · rw [List.foldlM_cons, addCard, hid]
      exact hfold
    · intro id' dir hdir
      rcases hfrom id' dir hdir with hstart | ⟨card', hcard', hid', hdir'⟩
      · by_cases hsame : id' = id
        · subst hsame
          rw [AList.lookup_insert, Option.some.injEq] at hstart
          exact Or.inr ⟨card, List.mem_cons_self, hid, hstart⟩
        · rw [AList.lookup_insert_ne hsame] at hstart
          exact Or.inl hstart
      · exact Or.inr ⟨card', List.mem_cons_of_mem card hcard', hid', hdir'⟩
    · intro id' hin
      apply hall
      rw [AList.mem_insert]
      rcases hin with hstart | ⟨card', hcard', hid'⟩
      · exact Or.inl (Or.inr hstart)
      · rcases List.mem_cons.mp hcard' with rfl | hcard'
        · exact Or.inl (Or.inl (Option.some.inj (hid'.symm.trans hid)))
        · exact Or.inr ⟨card', hcard', hid'⟩

/-! The second loop. -/

/-- What the links of an index are when its id leads to a directory, or to none. -/
structure LinksAs (tree : Tree) (idx : Nat) (dir : Option Str) : Prop where
  card : tree.lookup (cardLink idx) = dir.map fun dir => .link (cardTarget dir)
  device : tree.lookup (deviceLink idx) = dir.map fun dir => .link (deviceTarget dir)

/-- Both trees have the same links for an index. -/
structure SameLinks (tree tree' : Tree) (idx : Nat) : Prop where
  card : tree'.lookup (cardLink idx) = tree.lookup (cardLink idx)
  device : tree'.lookup (deviceLink idx) = tree.lookup (deviceLink idx)

theorem SameLinks.trans {t u v : Tree} {idx : Nat} (h : SameLinks t u idx)
    (h' : SameLinks u v idx) : SameLinks t v idx :=
  ⟨h'.card.trans h.card, h'.device.trans h.device⟩

theorem SameLinks.linksAs {t u : Tree} {idx : Nat} {dir : Option Str} (h : SameLinks t u idx)
    (hlinks : LinksAs t idx dir) : LinksAs u idx dir :=
  ⟨h.card.trans hlinks.card, h.device.trans hlinks.device⟩

theorem lookup_mkdirP {tree : Tree} {path path' : Path} (h : path ≠ path') :
    (mkdirP tree path').lookup path = tree.lookup path := by
  rw [mkdirP]
  split
  · rfl
  · exact AList.lookup_insert_ne h

/-- The tree when both links of an index are free. -/
def withLinks (tree : Tree) (idx : Nat) (cardDir : Str) : Tree :=
  ((mkdirP (tree.insert (cardLink idx) (.link (cardTarget cardDir))) (charDir idx)).insert
    (deviceLink idx) (.link (deviceTarget cardDir))).insert
    (ueventFile idx) (.file (LSU.DrmLinks.uevent idx))

/-- A line with an index that has no links yet links it as the hash has it, and no other. -/
theorem linkLine_links {dirs : CardDirs} {tree : Tree} {line : Str} {idx : Nat} {id : Str}
    (hline : drmLine line = some (idx, id)) (hnone : LinksAs tree idx none) :
    ∃ tree', linkLine dirs tree line = some tree' ∧ LinksAs tree' idx (dirs.lookup id) ∧
      ∀ i, i ≠ idx → SameLinks tree tree' i := by
  cases hdir : dirs.lookup id with
  | none =>
    refine ⟨tree, ?_, hnone, fun i _ => ⟨rfl, rfl⟩⟩
    rw [linkLine, hline]
    simp only [hdir]
  | some dir =>
    have hfree : cardLink idx ∉ tree := by
      rw [← AList.lookup_eq_none, hnone.card]
      rfl
    have hdevice : deviceLink idx ∉
        mkdirP (tree.insert (cardLink idx) (.link (cardTarget dir))) (charDir idx) := by
      rw [← AList.lookup_eq_none, lookup_mkdirP (deviceLink_ne_charDir idx idx),
        AList.lookup_insert_ne (cardLink_ne_deviceLink idx idx).symm, hnone.device]
      rfl
    refine ⟨withLinks tree idx dir, ?_, ?_, ?_⟩
    · rw [linkLine, hline]
      simp only [hdir, lnS, if_neg hfree, Option.bind_eq_bind, Option.bind_some, if_neg hdevice]
      rfl
    · constructor
      · rw [withLinks, AList.lookup_insert_ne (cardLink_ne_ueventFile idx idx),
          AList.lookup_insert_ne (cardLink_ne_deviceLink idx idx),
          lookup_mkdirP (cardLink_ne_charDir idx idx), AList.lookup_insert]
        rfl
      · rw [withLinks, AList.lookup_insert_ne (deviceLink_ne_ueventFile idx idx),
          AList.lookup_insert]
        rfl
    · intro i hi
      constructor
      · rw [withLinks, AList.lookup_insert_ne (cardLink_ne_ueventFile i idx),
          AList.lookup_insert_ne (cardLink_ne_deviceLink i idx),
          lookup_mkdirP (cardLink_ne_charDir i idx), AList.lookup_insert_ne (cardLink_ne hi)]
      · rw [withLinks, AList.lookup_insert_ne (deviceLink_ne_ueventFile i idx),
          AList.lookup_insert_ne (deviceLink_ne hi), lookup_mkdirP (deviceLink_ne_charDir i idx),
          AList.lookup_insert_ne (cardLink_ne_deviceLink idx i).symm]

/-- The loop links each index as the hash has it. -/
theorem foldlM_linkLine (dirs : CardDirs) {ls : List Str} {tree : Tree}
    (hnodup : ((ls.filterMap drmLine).map Prod.fst).Nodup)
    (hnone : ∀ e ∈ ls.filterMap drmLine, LinksAs tree e.1 none) :
    ∃ tree', ls.foldlM (linkLine dirs) tree = some tree' ∧
      (∀ e ∈ ls.filterMap drmLine, LinksAs tree' e.1 (dirs.lookup e.2)) ∧
      ∀ i, i ∉ (ls.filterMap drmLine).map Prod.fst → SameLinks tree tree' i := by
  induction ls generalizing tree with
  | nil => exact ⟨tree, rfl, by simp, fun i _ => ⟨rfl, rfl⟩⟩
  | cons line ls ih =>
    cases hline : drmLine line with
    | none =>
      rw [List.filterMap_cons_none hline] at hnodup hnone ⊢
      obtain ⟨tree', hfold, hlinks, hsame⟩ := ih hnodup hnone
      refine ⟨tree', ?_, hlinks, hsame⟩
      have hskip : linkLine dirs tree line = some tree := by
        rw [linkLine, hline]
      rw [List.foldlM_cons, hskip]
      exact hfold
    | some e =>
      obtain ⟨idx, id⟩ := e
      rw [List.filterMap_cons_some hline] at hnodup hnone ⊢
      rw [List.map_cons, List.nodup_cons] at hnodup
      rw [List.forall_mem_cons] at hnone
      obtain ⟨tree₁, hone, hlinked, hothers⟩ := @linkLine_links dirs tree line idx id hline hnone.1
      have hnext : ∀ e ∈ ls.filterMap drmLine, LinksAs tree₁ e.1 none := by
        intro e he
        apply (hothers e.1 _).linksAs (hnone.2 e he)
        intro heq
        apply hnodup.1
        exact List.mem_map.mpr ⟨e, he, heq⟩
      obtain ⟨tree₂, hfold, hlinks, hsame⟩ := ih hnodup.2 hnext
      refine ⟨tree₂, ?_, ?_, ?_⟩
      · rw [List.foldlM_cons, hone]
        exact hfold
      · rw [List.forall_mem_cons]
        exact ⟨(hsame idx hnodup.1).linksAs hlinked, hlinks⟩
      · intro i hi
        rw [List.map_cons, List.mem_cons, not_or] at hi
        exact (hothers i hi.1).trans (hsame i hi.2)

theorem toLower_toLower (c : Char) : c.toLower.toLower = c.toLower := by
  by_cases h : 'A'.val ≤ c.val ∧ c.val ≤ 'Z'.val
  · have hup : c.toLower.val = c.val + 32 := congrArg Char.val (dif_pos h)
    refine dif_neg ?_
    rw [hup]
    rintro ⟨-, hz⟩
    simp only [UInt32.le_iff_toNat_le, UInt32.toNat_add] at h hz
    simp at h hz
    omega
  · have hsame : c.toLower = c := dif_neg h
    rw [hsame, hsame]

theorem downcase_downcase (s : Str) : downcase (downcase s) = downcase s := by
  rw [downcase, downcase, List.map_map]
  apply List.map_congr_left
  intro c _
  exact toLower_toLower c

theorem Card.downcase_id {card : Card} {id : Str} (h : card.id = some id) : downcase id = id := by
  obtain ⟨id', -, rfl⟩ := Option.map_eq_some_iff.mp h
  exact downcase_downcase id'

theorem Machine.card_of_listed (m : Machine) {e : Nat × Str} (he : e ∈ listed m.listing) :
    ∃ card ∈ m.cards, card.id = some (downcase e.2) := by
  apply List.mem_map.mp
  apply m.ids.subset
  exact List.mem_map.mpr ⟨e, he, rfl⟩

theorem Machine.id_isSome (m : Machine) : ∀ card ∈ m.cards, card.id.isSome = true := by
  intro card hcard
  have hid : card.id ∈ (listed m.listing).map fun e => some (downcase e.2) := by
    apply m.ids.symm.subset
    exact List.mem_map_of_mem hcard
  obtain ⟨e, -, he⟩ := List.mem_map.mp hid
  rw [← he]
  rfl

theorem Machine.card_eq (m : Machine) {card card' : Card} (h : card ∈ m.cards)
    (h' : card' ∈ m.cards) (hdir : card.dir = card'.dir) : card = card' :=
  List.inj_on_of_nodup_map m.dirs_nodup h h' hdir

/-- The two directories made before the loop are not links of a card. -/
theorem linksAs_start (idx : Nat) : LinksAs (mkdirP (mkdirP ∅ classDrm) devChar) idx none := by
  constructor
  · have hcard : cardLink idx ≠ devChar ∧ cardLink idx ≠ classDrm := by
      simp [cardLink, classDrm, devChar]
    rw [lookup_mkdirP hcard.1, lookup_mkdirP hcard.2]
    rfl
  · have hdevice : deviceLink idx ≠ devChar ∧ deviceLink idx ≠ classDrm := by
      simp [deviceLink, charDir, classDrm, devChar]
    rw [lookup_mkdirP hdevice.1, lookup_mkdirP hdevice.2]
    rfl

/-- The links follow the hash, and the hash follows the cards. -/
theorem linkCards_links (m : Machine) :
    ∃ (dirs : CardDirs) (tree : Tree), linkCards m.cards m.listing = some tree ∧
      (∀ id dir, dirs.lookup id = some dir →
        ∃ card ∈ m.cards, card.id = some id ∧ card.dir = dir) ∧
      (∀ card ∈ m.cards, ∀ id, card.id = some id → id ∈ dirs) ∧
      ∀ e ∈ listed m.listing, LinksAs tree e.1 (dirs.lookup e.2) := by
  obtain ⟨dirs, hdirs, hfrom, hall⟩ := foldlM_addCard m.id_isSome ∅
  obtain ⟨tree, htree, hlinks, -⟩ :=
    foldlM_linkLine dirs m.indices_nodup fun e _ => linksAs_start e.1
  refine ⟨dirs, tree, ?_, ?_, ?_, hlinks⟩
  · rw [linkCards, hdirs]
    exact htree
  · intro id dir hdir
    rcases hfrom id dir hdir with hstart | hcard
    · rw [AList.lookup_empty] at hstart
      contradiction
    · exact hcard
  · intro card hcard id hid
    exact hall id (Or.inr ⟨card, hcard, hid⟩)

theorem links_each_iff (m : Machine) :
    LinksEach m ↔ (∀ e ∈ listed m.listing, downcase e.2 = e.2) ∧
      ∀ e ∈ listed m.listing, ∀ f ∈ listed m.listing, e.1 ≠ f.1 → e.2 ≠ f.2 := by
  obtain ⟨dirs, tree, hrun, hfrom, hall, hlinks⟩ := linkCards_links m
  constructor
  · rintro ⟨tree', hrun', hlinked, hdistinct⟩
    obtain rfl : tree' = tree := Option.some.inj (hrun'.symm.trans hrun)
    constructor
    · intro e he
      obtain ⟨card, -, -, hcard, -⟩ := hlinked e he
      rw [(hlinks e he).card, Option.map_eq_some_iff] at hcard
      obtain ⟨dir, hdir, -⟩ := hcard
      obtain ⟨card', -, hid, -⟩ := hfrom e.2 dir hdir
      exact Card.downcase_id hid
    · intro e he f hf hne hsame
      apply hdistinct e he f hf hne
      rw [(hlinks e he).card, (hlinks f hf).card, hsame]
  · rintro ⟨hlower, hdistinct⟩
    -- every listed id is a key of the hash
    have hkey : ∀ e ∈ listed m.listing, ∃ card ∈ m.cards, card.id = some e.2 ∧
        dirs.lookup e.2 = some card.dir := by
      intro e he
      obtain ⟨card, hcard, hid⟩ := m.card_of_listed he
      rw [hlower e he] at hid
      have hmem := AList.lookup_isSome.mpr (hall card hcard e.2 hid)
      obtain ⟨dir, hdir⟩ := Option.isSome_iff_exists.mp hmem
      obtain ⟨card', hcard', hid', rfl⟩ := hfrom e.2 dir hdir
      exact ⟨card', hcard', hid', hdir⟩
    refine ⟨tree, hrun, ?_, ?_⟩
    · intro e he
      obtain ⟨card, hcard, hid, hdir⟩ := hkey e he
      have hlink := hlinks e he
      rw [hdir] at hlink
      rw [← hlower e he] at hid
      exact ⟨card, hcard, hid, hlink.card, hlink.device⟩
    · intro e he f hf hne heq
      apply hdistinct e he f hf hne
      obtain ⟨card, hcard, hid, hdir⟩ := hkey e he
      obtain ⟨card', hcard', hid', hdir'⟩ := hkey f hf
      rw [(hlinks e he).card, (hlinks f hf).card, hdir, hdir'] at heq
      have hsame : card.dir = card'.dir := by simpa [cardTarget] using heq
      obtain rfl := m.card_eq hcard hcard' hsame
      exact Option.some.inj (hid.symm.trans hid')

/-- Two cards of one model. -/
def identicalCards : Machine where
  cards := [⟨".sys/class/drm/card0".toList, "PCI_ID=10DE:1B80\n".toList⟩,
    ⟨".sys/class/drm/card1".toList, "PCI_ID=10DE:1B80\n".toList⟩]
  listing := "dev.drm.0.PCI_ID: 10de:1b80\ndev.drm.1.PCI_ID: 10de:1b80\n".toList
  dirs_nodup := by decide
  indices_nodup := by decide +kernel
  ids := by decide +kernel

/-- Both indices lead to the second card. -/
theorem identical_cards_share_a_link : ¬ LinksEach identicalCards := by
  rintro ⟨tree, hrun, -, hdistinct⟩
  have hshared : (linkCards identicalCards.cards identicalCards.listing).all (fun tree =>
      decide (tree.lookup (cardLink 0) = tree.lookup (cardLink 1))) = true := by
    decide +kernel
  rw [hrun, Option.all_some, decide_eq_true_iff] at hshared
  apply hdistinct (0, "10de:1b80".toList) _ (1, "10de:1b80".toList) _ _ hshared
  all_goals decide +kernel

end LSU.DrmLinks
