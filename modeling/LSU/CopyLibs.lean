import LSU.Links
import LSU.Mounts

/-! The loop of lsu-mount-runtime that copies libraries of the Linux base into the runtime. A
raise is `none`; the directories on the way to a file are directories, not links. -/
namespace LSU.CopyLibs
open LSU.Links
open LSU.Mounts (Str)

abbrev Path := List Str
abbrev Disk := Store Path Str Str

/-- The path that the text of a link means, from the directory of the link on. -/
def leads (link : Path) (text : Str) : Path :=
  (text.splitOn '/').foldl (fun p c =>
      if c = [] ∨ c = ['.'] then p else if c = ['.', '.'] then p.dropLast else p ++ [c])
    (if text.head? = some '/' then [] else link.dropLast)

def maxSymlinks : Nat := 32

def isSymlink (s : Disk) (p : Path) : Bool :=
  match s p with
  | some (.link _) => true
  | _ => false

def isDir (s : Disk) (p : Path) : Bool :=
  match s p with
  | some .dir => true
  | _ => false

/-- File.directory? -/
def directory (s : Disk) (p : Path) : Bool := (follow leads s maxSymlinks p).any (isDir s)

/-- Where FileUtils puts a file for a target: into it, if that is a directory. -/
def destination (s : Disk) (base : Str) (target : Path) : Path :=
  if directory s target = true then (follow leads s maxSymlinks target).getD target ++ [base]
  else target

def basename (text : Str) : Str := ((text.splitOn '/').filter (· ≠ [])).getLastD text

/-- FileUtils.ln_s with force; an error when it unlinks what is there is ignored. -/
def lnS (text : Str) (target : Path) (s : Disk) : Option Disk :=
  let dest := destination s (basename text) target
  let s' := if isDir s dest = true then s else Function.update s dest none
  if s' dest = none ∧ isDir s' dest.dropLast = true then
    some (Function.update s' dest (some (.link text)))
  else none

/-- FileUtils.cp. It opens its target for writing, and follows links there. -/
def cp (source target : Path) (s : Disk) : Option Disk := do
  let dest ← follow leads s maxSymlinks (destination s (source.getLastD []) target)
  let from' ← follow leads s maxSymlinks source
  let text ← content s from'
  if dest = from' ∨ isDir s dest = true ∨ (s dest = none ∧ isDir s dest.dropLast = false) then
    none
  else return Function.update s dest (some (.file text))

/-- FileUtils.rm -/
def rm (target : Path) (s : Disk) : Disk := Function.update s target none

/-- A file to copy, and the directory it goes to. -/
structure Copy where
  src : Path
  dest : Path
  name : Str
deriving DecidableEq

def Copy.source (c : Copy) : Path := c.src ++ [c.name]
def Copy.target (c : Copy) : Path := c.dest ++ [c.name]

def copyLib (s : Disk) (c : Copy) : Option Disk :=
  match s c.source with
  | some (.link text) => lnS text c.target s
  | _ => cp c.source c.target (if isSymlink s c.target = true then rm c.target s else s)

def copyLibs (copies : List Copy) (s : Disk) : Option Disk := copies.foldlM copyLib s

/-! What the loop does. -/

section Loop
variable {K : Path → Prop} {s t : Disk} {c : Copy} {copies : List Copy}

/-- The libraries of the runtime, with all they link to, are no directories, nor is what the
links of the base will lead to from there. The directories of the runtime are not those of the
base. -/
structure Fit (K : Path → Prop) (copies : List Copy) (s : Disk) : Prop where
  plain : ∀ p, K p → s p ≠ some .dir
  closed : Closed leads K s
  target : ∀ c ∈ copies, K c.target
  source : ∀ c ∈ copies, s c.source ≠ none ∧
    ∀ text, s c.source = some (.link text) → K (leads c.target text)
  dest : ∀ c ∈ copies, s c.dest = some .dir
  apart : ∀ c ∈ copies, ∀ d ∈ copies, c.dest ≠ d.src
  once : (copies.map Copy.target).Nodup

theorem directory_false (hplain : ∀ p, K p → s p ≠ some .dir) (hclosed : Closed leads K s)
    {p : Path} (hp : K p) : directory s p = false := by
  rw [directory]
  cases hq : follow leads s maxSymlinks p with
  | none => rfl
  | some q =>
    have hdir := hplain q (hclosed.follow hp hq)
    rw [Option.any_some, isDir]
    split
    · rename_i heq
      exact absurd heq hdir
    · rfl

theorem isDir_eq_true {p : Path} : isDir s p = true ↔ s p = some .dir := by
  rw [isDir]
  split
  · rename_i h
    simp [h]
  · rename_i h
    simpa using h

theorem lnS_eq {text : Str} {target : Path} (hdir : directory s target = false)
    (hplain : s target ≠ some .dir) (hparent : s target.dropLast = some .dir) :
    lnS text target s = some (Function.update s target (some (.link text))) := by
  have hne : target.dropLast ≠ target := by
    intro heq
    rw [heq] at hparent
    exact hplain hparent
  have hfile : ¬ isDir s target = true := mt isDir_eq_true.mp hplain
  have hdest : destination s (basename text) target = target := by
    simp [destination, hdir]
  simp only [lnS, hdest, if_neg hfile, Function.update_self]
  rw [if_pos]
  · rw [Function.update_idem]
  · exact ⟨trivial, isDir_eq_true.mpr (by rw [Function.update_of_ne hne, hparent])⟩

theorem cp_eq {text : Str} {source target : Path} (hdir : directory s target = false)
    (hplain : s target ≠ some .dir) (hlink : ∀ l, s target ≠ some (.link l))
    (hparent : s target.dropLast = some .dir) (hsource : s source = some (.file text))
    (hne : target ≠ source) :
    cp source target s = some (Function.update s target (some (.file text))) := by
  have hdest : destination s (source.getLastD []) target = target := by
    simp [destination, hdir]
  have hfrom : follow leads s maxSymlinks source = some source :=
    follow_of_not_link fun l => by simp [hsource]
  have hto : follow leads s maxSymlinks target = some target := follow_of_not_link hlink
  have hcontent : content s source = some text := by rw [content, hsource]
  have hfile : ¬ isDir s target = true := mt isDir_eq_true.mp hplain
  have hparent' : isDir s target.dropLast = true := isDir_eq_true.mpr hparent
  simp only [cp, hdest, hfrom, hto, hcontent, Option.bind_eq_bind, Option.bind_some,
    Option.pure_def]
  rw [if_neg]
  simp [hne, hfile, hparent']

theorem Fit.ne (h : Fit K (c :: copies) s) : c.target ≠ c.source := by
  intro heq
  exact h.apart c List.mem_cons_self c List.mem_cons_self (List.append_inj' heq rfl).1

/-- No target is a source. -/
theorem Fit.source_ne (h : Fit K (c :: copies) s) {d : Copy} (hd : d ∈ copies) :
    d.source ≠ c.target := by
  intro heq
  exact h.apart c List.mem_cons_self d (List.mem_cons_of_mem c hd) (List.append_inj' heq rfl).1.symm

/-- A directory cannot be read. -/
theorem cp_dir {source target : Path} (hsource : s source = some .dir) :
    cp source target s = none := by
  have hfrom : follow leads s maxSymlinks source = some source :=
    follow_of_not_link fun l => by simp [hsource]
  have hcontent : content s source = none := by rw [content, hsource]
  rw [cp, hfrom]
  cases follow leads s maxSymlinks (destination s (source.getLastD []) target) with
  | none => rfl
  | some dest => simp [hcontent]

theorem copyLib_dir (h : Fit K (c :: copies) s) (hdir : s c.source = some .dir) :
    copyLib s c = none := by
  rw [copyLib, hdir]
  refine cp_dir ?_
  split
  · rw [rm, Function.update_of_ne h.ne.symm, hdir]
  · exact hdir

/-- One pass of the loop puts at the target what is at the source, and leaves the rest. -/
theorem copyLib_eq (h : Fit K (c :: copies) s) (hfile : s c.source ≠ some .dir) :
    copyLib s c = some (Function.update s c.target (s c.source)) := by
  have hhead : c ∈ c :: copies := List.mem_cons_self
  have hK := h.target c hhead
  have hparent : s c.target.dropLast = some .dir := by
    rw [Copy.target, List.dropLast_concat]
    exact h.dest c hhead
  have hne : c.target ≠ c.source := h.ne
  have hup : c.target.dropLast ≠ c.target := by
    intro heq
    rw [heq] at hparent
    exact h.plain _ hK hparent
  obtain ⟨node, hnode⟩ := Option.ne_none_iff_exists'.mp (h.source c hhead).1
  cases node with
  | dir => exact absurd hnode hfile
  | file text =>
    rw [copyLib, hnode]
    by_cases hsym : isSymlink s c.target = true
    · have hgone : Closed leads K (rm c.target s) := by
        intro p l hp hl
        by_cases hpt : p = c.target
        · simp [rm, hpt] at hl
        · rw [rm, Function.update_of_ne hpt] at hl
          exact h.closed p l hp hl
      have hplain : ∀ p, K p → rm c.target s p ≠ some .dir := by
        intro p hp hd
        by_cases hpt : p = c.target
        · simp [rm, hpt] at hd
        · rw [rm, Function.update_of_ne hpt] at hd
          exact h.plain p hp hd
      have hcp : cp c.source c.target (rm c.target s) =
          some (Function.update (rm c.target s) c.target (some (.file text))) :=
        cp_eq (directory_false hplain hgone hK) (hplain _ hK) (fun l hl => by simp [rm] at hl)
          (by rw [rm, Function.update_of_ne hup, hparent])
          (by rw [rm, Function.update_of_ne hne.symm, hnode]) hne
      simp only [if_pos hsym, hcp]
      rw [rm, Function.update_idem]
    · have hlink : ∀ l, s c.target ≠ some (.link l) := fun l hl => by
        simp [isSymlink, hl] at hsym
      simp only [if_neg hsym]
      exact cp_eq (directory_false h.plain h.closed hK) (h.plain _ hK) hlink hparent hnode hne
  | link text =>
    rw [copyLib, hnode]
    exact lnS_eq (directory_false h.plain h.closed hK) (h.plain _ hK) hparent

/-- After a pass the rest of the files fits as before. -/
theorem Fit.next (h : Fit K (c :: copies) s) (hfile : s c.source ≠ some .dir) :
    Fit K copies (Function.update s c.target (s c.source)) := by
  have hhead : c ∈ c :: copies := List.mem_cons_self
  have htail : ∀ d ∈ copies, d ∈ c :: copies := fun d hd => List.mem_cons_of_mem c hd
  refine ⟨fun p hp hd => ?_, fun p text hp hlink => ?_, fun d hd => h.target d (htail d hd),
    fun d hd => ?_, fun d hd => ?_, fun d hd e he => h.apart d (htail d hd) e (htail e he),
    (List.nodup_cons.mp h.once).2⟩
  · by_cases hpt : p = c.target
    · rw [hpt, Function.update_self] at hd
      exact hfile hd
    · rw [Function.update_of_ne hpt] at hd
      exact h.plain p hp hd
  · by_cases hpt : p = c.target
    · rw [hpt, Function.update_self] at hlink
      rw [hpt]
      exact (h.source c hhead).2 text hlink
    · rw [Function.update_of_ne hpt] at hlink
      exact h.closed p text hp hlink
  · rw [Function.update_of_ne (h.source_ne hd)]
    exact h.source d (htail d hd)
  · have hdest := h.dest d (htail d hd)
    have hne : d.dest ≠ c.target := by
      intro heq
      rw [heq] at hdest
      exact h.plain _ (h.target c hhead) hdest
    rw [Function.update_of_ne hne]
    exact hdest

/-- The loop raises at a directory. -/
theorem copyLibs_none (h : Fit K copies s) (hdir : ∃ c ∈ copies, s c.source = some .dir) :
    copyLibs copies s = none := by
  induction copies generalizing s with
  | nil => simp at hdir
  | cons c copies ih =>
    rw [copyLibs, List.foldlM_cons]
    by_cases hfile : s c.source = some .dir
    · rw [copyLib_dir h hfile]
      rfl
    · obtain ⟨d, hd, hsource⟩ := hdir
      have hd : d ∈ copies := by
        obtain rfl | hd := List.mem_cons.mp hd
        · exact absurd hsource hfile
        · exact hd
      rw [copyLib_eq h hfile]
      refine ih (h.next hfile) ⟨d, hd, ?_⟩
      rw [Function.update_of_ne (h.source_ne hd), hsource]

/-- Otherwise every target is in the end what its source is, a link with the same text or a file
with the same content, and nothing else has changed. -/
theorem copyLibs_same (h : Fit K copies s) (hfiles : ∀ c ∈ copies, s c.source ≠ some .dir) :
    ∃ t, copyLibs copies s = some t ∧ (∀ c ∈ copies, t c.target = s c.source) ∧
      ∀ p, (∀ c ∈ copies, p ≠ c.target) → t p = s p := by
  induction copies generalizing s with
  | nil => exact ⟨s, rfl, nofun, fun _ _ => rfl⟩
  | cons c copies ih =>
    have hhead : c ∈ c :: copies := List.mem_cons_self
    have hfile := hfiles c hhead
    obtain ⟨t, ht, hsame, hframe⟩ := ih (h.next hfile) fun d hd => by
      rw [Function.update_of_ne (h.source_ne hd)]
      exact hfiles d (List.mem_cons_of_mem c hd)
    obtain ⟨hnew, -⟩ := List.nodup_cons.mp h.once
    refine ⟨t, ?_, fun d hd => ?_, fun p hp => ?_⟩
    · rw [copyLibs, List.foldlM_cons, copyLib_eq h hfile]
      exact ht
    · obtain rfl | hd := List.mem_cons.mp hd
      · rw [hframe d.target fun e he heq => hnew (List.mem_map.mpr ⟨e, he, heq.symm⟩),
          Function.update_self]
      · rw [hsame d hd, Function.update_of_ne (h.source_ne hd)]
    · rw [hframe p fun d hd => hp d (List.mem_cons_of_mem c hd),
        Function.update_of_ne (hp c hhead)]

/-- The name of another entry of the same directory. -/
def Sibling (text : Str) : Prop :=
  text ≠ [] ∧ '/' ∉ text ∧ text ≠ ['.'] ∧ text ≠ ['.', '.']

instance (text : Str) : Decidable (Sibling text) := instDecidableAnd

theorem leads_sibling {text : Str} (h : Sibling text) (dir : Path) (name : Str) :
    leads (dir ++ [name]) text = dir ++ [text] := by
  obtain ⟨hne, hslash, hdot, hdots⟩ := h
  have hhead : text.head? ≠ some '/' := fun hh => hslash (List.mem_of_mem_head? hh)
  rw [leads, List.splitOn_eq_singleton hslash, if_neg hhead, List.dropLast_concat]
  simp [hne, hdot, hdots]

/-- The loop raises if and only if a directory is among what it copies. Nothing but the targets
changes, so no link is written through; and what a program in the chroot reads at a copied name
is what it would have read in the base, if the links there stay among what is copied. -/
theorem copyLibs_reads (K : Path → Prop) (copies : List Copy) (s : Disk) (h : Fit K copies s) :
    (copyLibs copies s = none ↔ ∃ c ∈ copies, s c.source = some .dir) ∧
      ∀ t, copyLibs copies s = some t → (∀ p, (∀ c ∈ copies, p ≠ c.target) → t p = s p) ∧
        ∀ src dest, ∀ names : List Str, (∀ name ∈ names, ⟨src, dest, name⟩ ∈ copies) →
          (∀ name ∈ names, ∀ text, s (src ++ [name]) = some (.link text) →
            Sibling text ∧ text ∈ names) →
          ∀ name ∈ names, ∀ n,
            read leads t n (dest ++ [name]) = read leads s n (src ++ [name]) := by
  by_cases hdir : ∃ c ∈ copies, s c.source = some .dir
  · have hnone := copyLibs_none h hdir
    refine ⟨iff_of_true hnone hdir, fun t ht => ?_⟩
    rw [hnone] at ht
    cases ht
  · have hfiles : ∀ c ∈ copies, s c.source ≠ some .dir := fun c hc hd => hdir ⟨c, hc, hd⟩
    obtain ⟨t', ht', hsame, hframe⟩ := copyLibs_same h hfiles
    refine ⟨iff_of_false (by simp [ht']) hdir, fun t ht => ?_⟩
    obtain rfl := Option.some.inj (ht'.symm.trans ht)
    refine ⟨hframe, fun src dest names hcopied hlinks name hname n => ?_⟩
    have hcopy : ∀ p, (∃ name ∈ names, p = src ++ [name]) →
        t' (dest ++ p.drop src.length) = s p := by
      rintro p ⟨name, hname, rfl⟩
      rw [List.drop_left]
      exact hsame ⟨src, dest, name⟩ (hcopied name hname)
    have hclosed : Closed leads (fun p => ∃ name ∈ names, p = src ++ [name]) s := by
      rintro p text ⟨name, hname, rfl⟩ hlink
      obtain ⟨hsib, hmem⟩ := hlinks name hname text hlink
      exact ⟨text, hmem, leads_sibling hsib src name⟩
    have hread : read leads t' n (dest ++ (src ++ [name]).drop src.length) =
        read leads s n (src ++ [name]) := by
      refine read_copy hclosed hcopy ?_ ⟨name, hname, rfl⟩
      rintro p text ⟨name, hname, rfl⟩ hlink
      obtain ⟨hsib, -⟩ := hlinks name hname text hlink
      rw [List.drop_left, leads_sibling hsib, leads_sibling hsib, List.drop_left]
    rwa [List.drop_left] at hread

/-! A library and its links, over a link of the runtime that leads back to the base. -/

def entries : List (Path × Node Str Str) :=
  [(["base".toList], .dir), (["rt".toList], .dir),
    (["base".toList, "libGL.so".toList], .link "libGL.so.1".toList),
    (["base".toList, "libGL.so.1".toList], .file "mesa".toList),
    (["rt".toList, "libGL.so.1".toList], .link "../base/libGL.so.1".toList)]

def disk (p : Path) : Option (Node Str Str) :=
  (entries.find? fun e => decide (e.1 = p)).map Prod.snd

def glCopies : List Copy :=
  [⟨["base".toList], ["rt".toList], "libGL.so".toList⟩,
    ⟨["base".toList], ["rt".toList], "libGL.so.1".toList⟩]

def glPaths : List Path :=
  [["base".toList, "libGL.so.1".toList], ["rt".toList, "libGL.so".toList],
    ["rt".toList, "libGL.so.1".toList]]

theorem glCopies_fit : Fit (· ∈ glPaths) glCopies disk where
  plain := by decide
  closed := by
    have hall : ∀ p ∈ glPaths, p ≠ ["rt".toList, "libGL.so.1".toList] →
        isSymlink disk p = false := by decide
    intro p text hp hlink
    by_cases hrt : p = ["rt".toList, "libGL.so.1".toList]
    · subst hrt
      have hentry : disk ["rt".toList, "libGL.so.1".toList] =
          some (.link "../base/libGL.so.1".toList) := by decide
      obtain rfl := Node.link.inj (Option.some.inj (hentry.symm.trans hlink))
      decide
    · have hno := hall p hp hrt
      simp [isSymlink, hlink] at hno
  target := by decide
  source := by
    intro c hc
    obtain rfl | rfl : c = glCopies[0] ∨ c = glCopies[1] := by simpa [glCopies] using hc
    · have hentry : disk glCopies[0].source = some (.link "libGL.so.1".toList) := by decide
      refine ⟨by decide, fun text hlink => ?_⟩
      obtain rfl := Node.link.inj (Option.some.inj (hentry.symm.trans hlink))
      decide
    · have hentry : disk glCopies[1].source = some (.file "mesa".toList) := by decide
      exact ⟨by decide, fun text hlink => nomatch hentry.symm.trans hlink⟩
  dest := by decide
  apart := by decide
  once := by decide

/-- The library of the base is still there, and the runtime has it under both names. -/
theorem copyLibs_reads_gl :
    ∃ t, copyLibs glCopies disk = some t ∧
      t ["base".toList, "libGL.so.1".toList] = some (.file "mesa".toList) ∧
      read leads t maxSymlinks ["rt".toList, "libGL.so".toList] = some "mesa".toList := by
  obtain ⟨hraise, hall⟩ := copyLibs_reads _ glCopies disk glCopies_fit
  have hfiles : ¬ ∃ c ∈ glCopies, disk c.source = some .dir := by decide
  obtain ⟨t, ht⟩ := Option.ne_none_iff_exists'.mp (mt hraise.mp hfiles)
  obtain ⟨hframe, hread⟩ := hall t ht
  refine ⟨t, ht, (hframe _ (by decide)).trans (by decide), ?_⟩
  refine (hread ["base".toList] ["rt".toList] ["libGL.so".toList, "libGL.so.1".toList]
    (by decide) ?_ "libGL.so".toList (by decide) maxSymlinks).trans (by decide)
  intro name hname text hlink
  obtain rfl | rfl : name = "libGL.so".toList ∨ name = "libGL.so.1".toList := by
    simpa using hname
  · have hentry : disk ["base".toList, "libGL.so".toList] = some (.link "libGL.so.1".toList) := by
      decide
    obtain rfl := Node.link.inj (Option.some.inj (hentry.symm.trans hlink))
    decide
  · have hentry : disk ["base".toList, "libGL.so.1".toList] = some (.file "mesa".toList) := by
      decide
    cases hentry.symm.trans hlink

end Loop

end LSU.CopyLibs
