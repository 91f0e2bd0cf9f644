import LSU.CopyLibs
import LSU.Walk

/-! The links lsu-mount-runtime makes in sys, sys/class and dev, as nothing can be mounted on top
of linsysfs and devfs. A raise is `none`. -/
namespace LSU.LinkFarm
open LSU.Links LSU.Walk
open LSU.CopyLibs (Path Disk maxSymlinks basename isDir Sibling)
open LSU.Mounts (Str)

def piece (text : Str) : Piece Str :=
  if text = [] ∨ text = ['.'] then .same else if text = ['.', '.'] then .up else .name text

def reading : Reading Str Str where
  absolute text := text.head? == some '/'
  pieces text := (text.splitOn '/').map piece

/-- File.exist?, from a directory on. -/
def exist (s : Disk) (dir : Path) (path : Str) : Bool :=
  (walk reading [] s maxSymlinks dir (reading.pieces path)).isSome

/-- FileUtils.ln_s where File.exist? has found nothing. -/
def lnS (text : Str) (target : Path) (s : Disk) : Option Disk :=
  if s target = none ∧ isDir s target.dropLast = true then
    some (Function.update s target (some (.link text)))
  else none

/-- The body of the loops. -/
def linkEntry (dir : Path) (s : Disk) (path : Str) : Option Disk :=
  if exist s dir (basename path) = true then some s else lnS path (dir ++ [basename path]) s

/-- A loop in `dir` over entries of `base`, which is `path` from there: over those that Dir finds,
and `more`. -/
structure Farm where
  dir : Path
  path : Str
  base : Path
  found : List Str
  more : List Str

def Farm.names (f : Farm) : List Str := f.found ++ f.more

def Farm.entry (f : Farm) (name : Str) : Str := f.path ++ '/' :: name

def linkAll (f : Farm) (names : List Str) (s : Disk) : Option Disk :=
  (names.map f.entry).foldlM (linkEntry f.dir) s

def Farm.run (s : Disk) (f : Farm) : Option Disk := linkAll f f.names s

/-- `Dir['../.sys/class/*']` in sys/class and `Dir['.sys/*']` in sys -/
def sysFarms (mroot : Path) (classFound found : List Str) : List Farm :=
  let sys := mroot ++ ["sys".toList]
  [⟨sys ++ ["class".toList], "../.sys/class".toList, sys ++ [".sys".toList, "class".toList],
      classFound, []⟩,
    ⟨sys, ".sys".toList, sys ++ [".sys".toList], found, []⟩]

/-- `Dir['.dev/*'] + ['.dev/dsp', '.dev/mixer']` -/
def devFarms (mroot : Path) (found : List Str) : List Farm :=
  let dev := mroot ++ ["dev".toList]
  [⟨dev, ".dev".toList, dev ++ [".dev".toList], found, ["dsp".toList, "mixer".toList]⟩]

def runAll (farms : List Farm) (s : Disk) : Option Disk := farms.foldlM Farm.run s

/-- A name that `*` matches. -/
def Visible (name : Str) : Prop := name ≠ [] ∧ '/' ∉ name ∧ name.head? ≠ some '.'

instance (name : Str) : Decidable (Visible name) := instDecidableAnd

/-- What Dir finds in a directory: each entry with a visible name, once. -/
structure Glob (s : Disk) (dir : Path) (names : List Str) : Prop where
  nodup : names.Nodup
  mem : ∀ name, name ∈ names ↔ Visible name ∧ s (dir ++ [name]) ≠ none

/-- Each loop goes over what Dir finds when it begins. -/
def Found : List Farm → Disk → Prop
  | [], _ => True
  | f :: farms, s => Glob s f.base f.found ∧ ∀ t, Farm.run s f = some t → Found farms t

/-- The names a loop deals with. -/
def Farm.Has (f : Farm) (s : Disk) (name : Str) : Prop :=
  (Visible name ∧ s (f.base ++ [name]) ≠ none) ∨ name ∈ f.more

/-- The directories are there, no link that leads nowhere has the name of an entry, and what the
mount has under a name that is added is found there. -/
structure Clear (f : Farm) (s : Disk) : Prop where
  dir : s f.dir = some .dir
  base : s f.base = some .dir
  free : ∀ name, f.Has s name → exist s f.dir name = true ∨ s (f.dir ++ [name]) = none
  opens : ∀ name ∈ f.more, s (f.base ++ [name]) ≠ none →
    (walk reading [] s (maxSymlinks - 1) f.base [.name name]).isSome

/-! What is seen through the links. -/

/-- Nothing but what is found has one of the names, and what comes twice is there. -/
structure Fit (f : Farm) (names : List Str) (s : Disk) : Prop where
  dir : s f.dir = some .dir
  plain : ∀ name ∈ names, Sibling name
  free : ∀ name ∈ names, exist s f.dir name = true ∨ s (f.dir ++ [name]) = none
  twice : ∀ name ∈ names, 1 < names.count name →
    (walk reading [] s (maxSymlinks - 1) f.base [.name name]).isSome

theorem Visible.sibling {name : Str} (h : Visible name) : Sibling name := by
  obtain ⟨hne, hslash, hhead⟩ := h
  refine ⟨hne, hslash, ?_, ?_⟩
  · rintro rfl
    exact hhead rfl
  · rintro rfl
    exact hhead rfl

theorem Glob.mem_names {f : Farm} {s : Disk} (h : Glob s f.base f.found) {name : Str} :
    name ∈ f.names ↔ f.Has s name := by
  rw [Farm.names, List.mem_append, h.mem, Farm.Has]

/-- A name comes twice if it is added to what Dir has found already. -/
theorem Clear.fit {f : Farm} {s : Disk} (h : Clear f s) (hglob : Glob s f.base f.found)
    (hmore : ∀ name ∈ f.more, Visible name) (honce : f.more.Nodup) : Fit f f.names s where
  dir := h.dir
  plain name hname := by
    obtain hfound | hadded := List.mem_append.mp hname
    · exact ((hglob.mem name).mp hfound).1.sibling
    · exact (hmore name hadded).sibling
  free name hname := h.free name (hglob.mem_names.mp hname)
  twice name _ hcount := by
    rw [Farm.names, List.count_append] at hcount
    have hfound := List.nodup_iff_count_le_one.mp hglob.nodup name
    have hadded := List.nodup_iff_count_le_one.mp honce name
    have hin : name ∈ f.found := List.count_pos_iff.mp (by omega)
    exact h.opens name (List.count_pos_iff.mp (by omega)) ((hglob.mem name).mp hin).2

theorem pieces_sibling {name : Str} (h : Sibling name) : reading.pieces name = [.name name] := by
  obtain ⟨hne, hslash, hdot, hdots⟩ := h
  simp [reading, List.splitOn_eq_singleton hslash, piece, hne, hdot, hdots]

theorem splitOn_entry (f : Farm) {name : Str} (h : Sibling name) :
    (f.entry name).splitOn '/' = f.path.splitOn '/' ++ [name] := by
  rw [Farm.entry, List.splitOn_append_cons_of_beq f.path name (beq_self_eq_true '/'),
    List.splitOn_eq_singleton h.2.1]

theorem pieces_entry (f : Farm) {name : Str} (h : Sibling name) :
    reading.pieces (f.entry name) = reading.pieces f.path ++ [.name name] := by
  rw [← pieces_sibling h]
  simp [reading, splitOn_entry f h, List.splitOn_eq_singleton h.2.1]

theorem basename_entry (f : Farm) {name : Str} (h : Sibling name) :
    basename (f.entry name) = name := by
  rw [basename, splitOn_entry f h, List.filter_append]
  simp [h.1]

theorem exist_plain (s : Disk) (dir : Path) {name : Str} (h : Sibling name) :
    exist s dir name = (walk reading [] s maxSymlinks dir [.name name]).isSome := by
  rw [exist, pieces_sibling h]

theorem exist_extends {s t : Disk} (h : Extends s t) {dir : Path} {name : Str}
    (hex : exist s dir name = true) : exist t dir name = true := by
  obtain ⟨q, hq⟩ := Option.isSome_iff_exists.mp hex
  exact Option.isSome_iff_exists.mpr ⟨q, walk_extends h hq⟩

theorem extends_update {s : Disk} {p : Path} {node : Node Str Str} (h : s p = none) :
    Extends s (Function.update s p (some node)) := by
  intro q node' hq
  by_cases hqp : q = p
  · rw [hqp, h] at hq
    cases hq
  · rw [Function.update_of_ne hqp, hq]

/-- The way from the directory of a loop to its entries has no links, for every root above. -/
def Straight (f : Farm) (s : Disk) (root : Path) : Prop :=
  Way root s f.dir (reading.pieces f.path) f.base ∧ f.path.head? ≠ some '/' ∧ f.path ≠ []

theorem Straight.extends {f : Farm} {s t : Disk} {root : Path} (h : Straight f s root)
    (hext : Extends s t) : Straight f t root := ⟨h.1.extends hext, h.2⟩

/-- Behind the link to an entry is the entry. -/
theorem walk_entry {f : Farm} {s : Disk} {root : Path} (hway : Straight f s root) {name : Str}
    (hname : Sibling name) (hlink : s (f.dir ++ [name]) = some (.link (f.entry name))) (n : Nat)
    (rest : List (Piece Str)) :
    walk reading root s (n + 1) f.dir (.name name :: rest) =
      walk reading root s n f.base (.name name :: rest) := by
  obtain ⟨hway, hhead, hne⟩ := hway
  have habs : reading.absolute (f.entry name) = false := by
    cases hpath : f.path with
    | nil => exact absurd hpath hne
    | cons c path =>
      rw [hpath] at hhead
      simpa [reading, Farm.entry, hpath] using hhead
  rw [walk_link hlink habs, pieces_entry f hname, List.append_assoc, hway.walk]
  rfl

section Loop
variable {f : Farm} {name : Str} {names : List Str} {s : Disk}

theorem Fit.tail (h : Fit f (name :: names) s) : Fit f names s where
  dir := h.dir
  plain name hname := h.plain name (List.mem_cons_of_mem _ hname)
  free name hname := h.free name (List.mem_cons_of_mem _ hname)
  twice name' hname hcount := by
    have hle : names.count name' ≤ (name :: names).count name' := List.count_le_count_cons
    exact h.twice name' (List.mem_cons_of_mem _ hname) (lt_of_lt_of_le hcount hle)

/-- A new link keeps what the rest of the loop needs. -/
theorem Fit.link (h : Fit f (name :: names) s) (hway : Straight f s [])
    (hnone : s (f.dir ++ [name]) = none) :
    Fit f names (Function.update s (f.dir ++ [name]) (some (.link (f.entry name)))) := by
  have hext : Extends s (Function.update s (f.dir ++ [name]) (some (.link (f.entry name)))) :=
    extends_update hnone
  refine ⟨hext _ _ h.dir, h.tail.plain, fun name' hname' => ?_, fun name' hname' hcount => ?_⟩
  · by_cases heq : name' = name
    · subst heq
      have hsib := h.plain name' List.mem_cons_self
      have htwo : 1 < (name' :: names).count name' := by
        rw [List.count_cons_self]
        exact Nat.succ_lt_succ (List.count_pos_iff.mpr hname')
      obtain ⟨q, hq⟩ := Option.isSome_iff_exists.mp (h.twice name' List.mem_cons_self htwo)
      left
      rw [exist_plain _ _ hsib]
      refine Option.isSome_iff_exists.mpr ⟨q, ?_⟩
      refine (walk_entry (hway.extends hext) hsib (Function.update_self _ _ _)
        (maxSymlinks - 1) []).trans ?_
      exact walk_extends hext hq
    · obtain hex | hno := h.free name' (List.mem_cons_of_mem _ hname')
      · exact Or.inl (exist_extends hext hex)
      · right
        rw [Function.update_of_ne (by simpa using heq), hno]
  · obtain ⟨q, hq⟩ := Option.isSome_iff_exists.mp (h.tail.twice name' hname' hcount)
    exact Option.isSome_iff_exists.mpr ⟨q, walk_extends hext hq⟩

/-- A pass makes a link where nothing is, and only there. -/
theorem linkEntry_eq (h : Fit f (name :: names) s) :
    linkEntry f.dir s (f.entry name) = some (if s (f.dir ++ [name]) = none then
      Function.update s (f.dir ++ [name]) (some (.link (f.entry name))) else s) := by
  have hsib := h.plain name List.mem_cons_self
  rw [linkEntry, basename_entry f hsib, exist_plain s f.dir hsib]
  by_cases hnone : s (f.dir ++ [name]) = none
  · have hdir : isDir s (f.dir ++ [name]).dropLast = true := by
      rw [List.dropLast_concat]
      exact CopyLibs.isDir_eq_true.mpr h.dir
    rw [walk_none hnone, if_neg (by simp), if_pos hnone, lnS, if_pos ⟨hnone, hdir⟩]
  · have hex := (h.free name List.mem_cons_self).resolve_right hnone
    rw [exist_plain s f.dir hsib] at hex
    rw [if_pos hex, if_neg hnone]

/-- The loop does not raise; it makes the links that are missing, and nothing else. -/
theorem linkAll_eq (h : Fit f names s) (hway : Straight f s []) :
    ∃ t, linkAll f names s = some t ∧ Extends s t ∧
      (∀ name ∈ names, s (f.dir ++ [name]) = none →
        t (f.dir ++ [name]) = some (.link (f.entry name))) ∧
      ∀ p, (∀ name ∈ names, p ≠ f.dir ++ [name]) → t p = s p := by
  induction names generalizing s with
  | nil => exact ⟨s, rfl, .refl s, nofun, fun _ _ => rfl⟩
  | cons name names ih =>
    have hrun : ∀ u, linkEntry f.dir s (f.entry name) = some u →
        linkAll f (name :: names) s = linkAll f names u := by
      intro u hu
      rw [linkAll, List.map_cons, List.foldlM_cons]
      exact congrArg (· >>= _) hu
    have hpass := linkEntry_eq h
    by_cases hnone : s (f.dir ++ [name]) = none
    · rw [if_pos hnone] at hpass
      have hext : Extends s
          (Function.update s (f.dir ++ [name]) (some (.link (f.entry name)))) :=
        extends_update hnone
      obtain ⟨t, ht, hst, hlinks, hframe⟩ := ih (h.link hway hnone) (hway.extends hext)
      refine ⟨t, (hrun _ hpass).trans ht, hext.trans hst, fun name' hname' hno => ?_,
        fun p hp => ?_⟩
      · by_cases heq : name' = name
        · rw [heq]
          exact hst _ _ (Function.update_self _ _ _)
        · refine hlinks name' ((List.mem_cons.mp hname').resolve_left heq) ?_
          rw [Function.update_of_ne (by simpa using heq), hno]
      · rw [hframe p fun name' hname' => hp name' (List.mem_cons_of_mem _ hname'),
          Function.update_of_ne (hp name List.mem_cons_self)]
    · rw [if_neg hnone] at hpass
      obtain ⟨t, ht, hst, hlinks, hframe⟩ := ih h.tail hway
      refine ⟨t, (hrun _ hpass).trans ht, hst, fun name' hname' hno => ?_,
        fun p hp => hframe p fun name' hname' => hp name' (List.mem_cons_of_mem _ hname')⟩
      obtain rfl | hname' := List.mem_cons.mp hname'
      · exact absurd hno hnone
      · exact hlinks name' hname' hno

end Loop

section Farms
variable {f g : Farm} {farms : List Farm} {s t : Disk}

/-- A loop that changes nothing in the base of another leaves it the names. -/
theorem has_other (hbase : ∀ name, t (f.base ++ [name]) = s (f.base ++ [name])) {name : Str} :
    f.Has t name ↔ f.Has s name := by
  rw [Farm.Has, Farm.Has, hbase]

theorem Glob.other {base : Path} {names : List Str} (h : Glob s base names)
    (hbase : ∀ name, t (base ++ [name]) = s (base ++ [name])) : Glob t base names where
  nodup := h.nodup
  mem name := by rw [h.mem, hbase name]

/-- A loop in another directory changes nothing for this one. -/
theorem Clear.other (h : Clear f s) (hext : Extends s t)
    (hdir : ∀ name, t (f.dir ++ [name]) = s (f.dir ++ [name]))
    (hbase : ∀ name, t (f.base ++ [name]) = s (f.base ++ [name])) : Clear f t where
  dir := hext _ _ h.dir
  base := hext _ _ h.base
  free name hname := by
    obtain hex | hno := h.free name ((has_other hbase).mp hname)
    · exact Or.inl (exist_extends hext hex)
    · exact Or.inr ((hdir name).trans hno)
  opens name hname hentry := by
    rw [hbase] at hentry
    obtain ⟨q, hq⟩ := Option.isSome_iff_exists.mp (h.opens name hname hentry)
    exact Option.isSome_iff_exists.mpr ⟨q, walk_extends hext hq⟩

/-- The loops are in different directories, none of them the base of another; the names that are
added are visible. -/
structure Apart (farms : List Farm) : Prop where
  dirs : (farms.map Farm.dir).Nodup
  bases : ∀ f ∈ farms, ∀ g ∈ farms, f.dir ≠ g.base
  visible : ∀ f ∈ farms, ∀ name ∈ f.more, Visible name
  once : ∀ f ∈ farms, f.more.Nodup

theorem Apart.tail (h : Apart (f :: farms)) : Apart farms where
  dirs := (List.nodup_cons.mp h.dirs).2
  bases g hg g' hg' := h.bases g (List.mem_cons_of_mem f hg) g' (List.mem_cons_of_mem f hg')
  visible g hg := h.visible g (List.mem_cons_of_mem f hg)
  once g hg := h.once g (List.mem_cons_of_mem f hg)

/-- One loop of those in different directories: the others go on with what they had. -/
theorem Apart.run (h : Apart (f :: farms)) (hglob : Glob s f.base f.found) (hclear : Clear f s)
    (hway : Straight f s []) :
    ∃ t, Farm.run s f = some t ∧ Extends s t ∧
      (∀ name, f.Has s name → Sibling name ∧ (s (f.dir ++ [name]) = none →
        t (f.dir ++ [name]) = some (.link (f.entry name)))) ∧
      (∀ p, (∀ name, f.Has s name → p ≠ f.dir ++ [name]) → t p = s p) ∧
      ∀ g ∈ farms, (∀ name, t (g.dir ++ [name]) = s (g.dir ++ [name])) ∧
        ∀ name, t (g.base ++ [name]) = s (g.base ++ [name]) := by
  have hhead : f ∈ f :: farms := List.mem_cons_self
  have hfit : Fit f f.names s := hclear.fit hglob (h.visible f hhead) (h.once f hhead)
  obtain ⟨t, ht, hst, hlinks, hframe⟩ := linkAll_eq hfit hway
  have hother : ∀ p, p ≠ f.dir → ∀ name, t (p ++ [name]) = s (p ++ [name]) := by
    intro p hp name
    exact hframe _ fun name' _ heq => hp (List.append_inj' heq rfl).1
  refine ⟨t, ht, hst, fun name hname => ?_, fun p hp => ?_, fun g hg => ⟨?_, ?_⟩⟩
  · have hmem := hglob.mem_names.mpr hname
    exact ⟨hfit.plain name hmem, hlinks name hmem⟩
  · exact hframe p fun name hname => hp name (hglob.mem_names.mp hname)
  · refine hother _ fun heq => (List.nodup_cons.mp h.dirs).1 ?_
    rw [← heq]
    exact List.mem_map_of_mem hg
  · exact hother _ (h.bases f hhead g (List.mem_cons_of_mem f hg)).symm

theorem runAll_eq (hapart : Apart farms) (hfound : Found farms s)
    (hclear : ∀ f ∈ farms, Clear f s) (hway : ∀ f ∈ farms, Straight f s []) :
    ∃ t, runAll farms s = some t ∧ Extends s t ∧
      (∀ f ∈ farms, ∀ name, f.Has s name → Sibling name ∧ (s (f.dir ++ [name]) = none →
        t (f.dir ++ [name]) = some (.link (f.entry name)))) ∧
      ∀ p, (∀ f ∈ farms, ∀ name, f.Has s name → p ≠ f.dir ++ [name]) → t p = s p := by
  induction farms generalizing s with
  | nil => exact ⟨s, rfl, .refl s, nofun, fun _ _ => rfl⟩
  | cons f farms ih =>
    have hhead : f ∈ f :: farms := List.mem_cons_self
    have htail : ∀ g ∈ farms, g ∈ f :: farms := fun g hg => List.mem_cons_of_mem f hg
    obtain ⟨hglob, hfound⟩ := hfound
    obtain ⟨u, hu, hsu, hlinks, hframe, hsame⟩ :=
      hapart.run hglob (hclear f hhead) (hway f hhead)
    obtain ⟨t, ht, hut, hlinks', hframe'⟩ := ih hapart.tail (hfound u hu)
      (fun g hg => (hclear g (htail g hg)).other hsu (hsame g hg).1 (hsame g hg).2)
      fun g hg => (hway g (htail g hg)).extends hsu
    refine ⟨t, ?_, hsu.trans hut, fun g hg name hname => ?_, fun p hp => ?_⟩
    · rw [runAll, List.foldlM_cons, hu]
      exact ht
    · obtain rfl | hg := List.mem_cons.mp hg
      · obtain ⟨hsib, hlink⟩ := hlinks name hname
        exact ⟨hsib, fun hno => hut _ _ (hlink hno)⟩
      · obtain ⟨hdir, hbase⟩ := hsame g hg
        obtain ⟨hsib, hlink⟩ := hlinks' g hg name ((has_other hbase).mpr hname)
        exact ⟨hsib, fun hno => hlink ((hdir name).trans hno)⟩
    · rw [hframe' p fun g hg name hname =>
          hp g (htail g hg) name ((has_other (hsame g hg).2).mp hname), hframe p (hp f hhead)]

/-- Every loop finds what is there before the first. -/
theorem found_of_glob (hapart : Apart farms) (hglob : ∀ f ∈ farms, Glob s f.base f.found)
    (hclear : ∀ f ∈ farms, Clear f s) (hway : ∀ f ∈ farms, Straight f s []) : Found farms s := by
  induction farms generalizing s with
  | nil => trivial
  | cons f farms ih =>
    have hhead : f ∈ f :: farms := List.mem_cons_self
    have htail : ∀ g ∈ farms, g ∈ f :: farms := fun g hg => List.mem_cons_of_mem f hg
    refine ⟨hglob f hhead, fun t ht => ?_⟩
    obtain ⟨u, hu, hsu, -, -, hsame⟩ :=
      hapart.run (hglob f hhead) (hclear f hhead) (hway f hhead)
    obtain rfl := Option.some.inj (hu.symm.trans ht)
    exact ih hapart.tail (fun g hg => (hglob g (htail g hg)).other (hsame g hg).2)
      (fun g hg => (hclear g (htail g hg)).other hsu (hsame g hg).1 (hsame g hg).2)
      fun g hg => (hway g (htail g hg)).extends hsu

end Farms

/-- The loops in sys, or those in dev. -/
def Farms (mroot : Path) (farms : List Farm) : Prop :=
  (∃ classFound found, farms = sysFarms mroot classFound found) ∨
    ∃ found, farms = devFarms mroot found

theorem farms_apart {mroot : Path} {farms : List Farm} (h : Farms mroot farms) : Apart farms := by
  obtain ⟨classFound, found, rfl⟩ | ⟨found, rfl⟩ := h
  · refine ⟨by simp [sysFarms], ?_, by simp [sysFarms], by simp [sysFarms]⟩
    simp [sysFarms]
  · refine ⟨by simp [devFarms], by simp [devFarms], ?_, ?_⟩
    · intro f hf
      obtain rfl := List.mem_singleton.mp hf
      have hall : ∀ name ∈ ["dsp".toList, "mixer".toList], Visible name := by decide
      exact hall
    · intro f hf
      obtain rfl := List.mem_singleton.mp hf
      have honce : ["dsp".toList, "mixer".toList].Nodup := by decide
      exact honce

/-- Entries of a directory within the one of the loop. -/
theorem straight_within {dir root : Path} {path : Str} {found more : List Str} {s : Disk}
    (hpath : Sibling path) (hbase : s (dir ++ [path]) = some .dir) :
    Straight ⟨dir, path, dir ++ [path], found, more⟩ s root := by
  refine ⟨?_, fun hhead => hpath.2.1 (List.mem_of_mem_head? hhead), hpath.1⟩
  rw [pieces_sibling hpath]
  exact .dir hbase (.here _)

/-- Entries of .sys/class, which is next to the directory of the loop. -/
theorem straight_class {sys root : Path} {found more : List Str} {s : Disk}
    (hroot : sys ++ ["class".toList] ≠ root) (hsys : s (sys ++ [".sys".toList]) = some .dir)
    (hbase : s (sys ++ [".sys".toList, "class".toList]) = some .dir) :
    Straight ⟨sys ++ ["class".toList], "../.sys/class".toList,
      sys ++ [".sys".toList, "class".toList], found, more⟩ s root := by
  have hpieces : reading.pieces "../.sys/class".toList =
      [.up, .name ".sys".toList, .name "class".toList] := by decide
  have hhead : "../.sys/class".toList.head? ≠ some '/' := by decide
  have hne : "../.sys/class".toList ≠ [] := by decide
  refine ⟨?_, hhead, hne⟩
  have hstep : sys ++ [".sys".toList, "class".toList] =
      sys ++ [".sys".toList] ++ ["class".toList] := by simp
  rw [hpieces, hstep]
  refine .up hroot ?_
  rw [List.dropLast_concat]
  refine .dir hsys (.dir ?_ (.here _))
  rw [← hstep, hbase]

theorem farms_straight {mroot root : Path} {farms : List Farm} (h : Farms mroot farms)
    (hroot : root <+: mroot) {s : Disk} (hclear : ∀ f ∈ farms, Clear f s) :
    ∀ f ∈ farms, Straight f s root := by
  intro f hf
  have hbase := (hclear f hf).base
  obtain ⟨classFound, found, rfl⟩ | ⟨found, rfl⟩ := h
  · have hsys : s (mroot ++ ["sys".toList] ++ [".sys".toList]) = some .dir :=
      (hclear _ (List.mem_cons_of_mem _ List.mem_cons_self)).base
    have hne : mroot ++ ["sys".toList] ++ ["class".toList] ≠ root := by
      intro heq
      have hlength := hroot.length_le
      simp only [← heq, List.length_append, List.length_singleton] at hlength
      omega
    simp only [sysFarms, List.mem_cons, List.not_mem_nil, or_false] at hf
    obtain rfl | rfl := hf
    · exact straight_class hne hsys hbase
    · exact straight_within (by decide) hbase
  · obtain rfl := List.mem_singleton.mp hf
    exact straight_within (by decide) hbase

/-- The loops in sys and those in dev do not raise. Whatever was found before is still there, and
behind the name of an entry that was missing a program in the chroot or outside finds what it
would find in the mount, with one link more. -/
theorem links_seen (mroot : Path) (farms : List Farm) (hfarms : Farms mroot farms) (s : Disk)
    (hfound : Found farms s) (hclear : ∀ f ∈ farms, Clear f s) :
    ∃ t, runAll farms s = some t ∧ Extends s t ∧
      (∀ p, (∀ f ∈ farms, ∀ name, f.Has s name → p ≠ f.dir ++ [name]) → t p = s p) ∧
      ∀ root, root <+: mroot →
        (∀ n cur rest q, walk reading root s n cur rest = some q →
          walk reading root t n cur rest = some q) ∧
        ∀ f ∈ farms, ∀ name, f.Has s name → s (f.dir ++ [name]) = none → ∀ n rest,
          walk reading root t (n + 1) f.dir (.name name :: rest) =
            walk reading root t n f.base (.name name :: rest) := by
  obtain ⟨t, ht, hext, hlinks, hframe⟩ := runAll_eq (farms_apart hfarms) hfound hclear
    (farms_straight hfarms List.nil_prefix hclear)
  refine ⟨t, ht, hext, hframe, fun root hroot =>
    ⟨fun n cur rest q hq => walk_extends hext hq, fun f hf name hname hno n rest => ?_⟩⟩
  obtain ⟨hsib, hlink⟩ := hlinks f hf name hname
  have hway := (farms_straight hfarms hroot hclear f hf).extends hext
  exact walk_entry hway hsib (hlink hno) n rest

/-! A linsysfs with a graphics card and a network interface, of which the card has its directory
already. -/

def chroot : Path := ["chroot".toList]

def inSys (path : String) : Path := chroot ++ "sys".toList :: path.toList.splitOn '/'

def sysEntries : List (Path × Node Str Str) :=
  [(chroot ++ ["sys".toList], .dir), (inSys ".sys", .dir), (inSys ".sys/class", .dir),
    (inSys ".sys/class/drm", .dir), (inSys ".sys/class/net", .dir),
    (inSys ".sys/class/net/lo0", .link "../../devices/lo0".toList), (inSys ".sys/devices", .dir),
    (inSys ".sys/devices/lo0", .dir), (inSys ".sys/devices/lo0/address", .file "00".toList),
    (inSys "class", .dir), (inSys "class/drm", .dir)]

def sysDisk (p : Path) : Option (Node Str Str) :=
  (sysEntries.find? fun e => decide (e.1 = p)).map Prod.snd

def sysLoops : List Farm :=
  sysFarms chroot ["drm".toList, "net".toList] ["class".toList, "devices".toList]

/-- The entries of a directory are those of the list. -/
theorem sysDisk_glob {dir : Path} {names : List Str} (hnodup : names.Nodup)
    (hthere : ∀ name ∈ names, Visible name ∧ sysDisk (dir ++ [name]) ≠ none)
    (hall : ∀ e ∈ sysEntries, e.1.dropLast = dir → Visible (e.1.getLastD []) →
      e.1.getLastD [] ∈ names) : Glob sysDisk dir names where
  nodup := hnodup
  mem name := by
    refine ⟨hthere name, fun ⟨hvisible, hentry⟩ => ?_⟩
    obtain ⟨node, hnode⟩ := Option.ne_none_iff_exists'.mp hentry
    obtain ⟨e, he, -⟩ := Option.map_eq_some_iff.mp hnode
    have hpath : e.1 = dir ++ [name] := by simpa using List.find?_some he
    have hname := hall e (List.mem_of_find?_eq_some he)
    simp only [hpath, List.dropLast_concat, List.getLastD_concat] at hname
    exact hname trivial hvisible

theorem sysDisk_found : ∀ f ∈ sysLoops, Glob sysDisk f.base f.found := by
  intro f hf
  simp only [sysLoops, sysFarms, List.mem_cons, List.not_mem_nil, or_false] at hf
  obtain rfl | rfl := hf
  · exact sysDisk_glob (by decide) (by decide) (by decide)
  · exact sysDisk_glob (by decide) (by decide) (by decide)

theorem sysDisk_clear : ∀ f ∈ sysLoops, Clear f sysDisk := by
  have hfree : ∀ f ∈ sysLoops, ∀ name ∈ f.found,
      exist sysDisk f.dir name = true ∨ sysDisk (f.dir ++ [name]) = none := by decide
  intro f hf
  have hnames : ∀ name, f.Has sysDisk name → name ∈ f.found ∨ name ∈ f.more := fun name hname =>
    List.mem_append.mp ((sysDisk_found f hf).mem_names.mpr hname)
  have hmore : f.more = [] := by
    have hall : ∀ f ∈ sysLoops, f.more = [] := by decide
    exact hall f hf
  refine ⟨?_, ?_, fun name hname => ?_, ?_⟩
  · have hall : ∀ f ∈ sysLoops, sysDisk f.dir = some .dir := by decide
    exact hall f hf
  · have hall : ∀ f ∈ sysLoops, sysDisk f.base = some .dir := by decide
    exact hall f hf
  · refine hfree f hf name ((hnames name hname).resolve_right ?_)
    simp [hmore]
  · simp [hmore]

/-- In the chroot the address of the interface is found through two links. -/
theorem links_seen_interface :
    ∃ t, runAll sysLoops sysDisk = some t ∧
      walk reading chroot t 2 (inSys "class")
          [.name "net".toList, .name "lo0".toList, .name "address".toList] =
        some (inSys ".sys/devices/lo0/address") := by
  have hfarms : Farms chroot sysLoops :=
    Or.inl ⟨["drm".toList, "net".toList], ["class".toList, "devices".toList], rfl⟩
  have hfound : Found sysLoops sysDisk := found_of_glob (farms_apart hfarms) sysDisk_found
    sysDisk_clear (farms_straight hfarms List.nil_prefix sysDisk_clear)
  obtain ⟨t, ht, hext, -, hseen⟩ :=
    links_seen chroot sysLoops hfarms sysDisk hfound sysDisk_clear
  refine ⟨t, ht, ?_⟩
  obtain ⟨hkept, hlinked⟩ := hseen chroot (List.prefix_refl chroot)
  have hnet : Visible "net".toList ∧ sysDisk (inSys ".sys/class/net") ≠ none := by decide
  refine (hlinked _ List.mem_cons_self "net".toList (Or.inl hnet) (by decide) 1
    [.name "lo0".toList, .name "address".toList]).trans ?_
  exact hkept 1 _ _ _ (by decide)

end LSU.LinkFarm
