import LSU.MirrorMounts
import LSU.OsRelease
import LSU.Umount

/-! check_requirements of bin/steam: what it reads of `mount -p`, and when it has no complaint
about the mounts. -/
namespace LSU.Requirements
open LSU.Commands LSU.RubyString LSU.Paths LSU.UserDirs LSU.MirrorMounts LSU.Umount

/-- String#lines -/
def linesOf (s : Str) : List Str :=
  let pieces := s.splitOn '\n'
  let last := pieces.getLastD []
  pieces.dropLast.map (· ++ ['\n']) ++ if last = [] then [] else [last]

def isBlank (c : Char) : Bool := c == ' ' || c == '\t'

/-- What stands behind the blanks that follow the first word. -/
def behindWord (s : Str) : Str := (s.dropWhile (!isBlank ·)).dropWhile isBlank

/-- `split(/[ \t]+/)[n]`, for `n` not 0 -/
def field : Nat → Str → Option Str
  | 0, s => if s = [] then none else some (s.takeWhile (!isBlank ·))
  | n + 1, s => field n (behindWord s)

structure Entry where
  type : Option Str
  line : Nat
deriving DecidableEq

abbrev Mounts := List (Option Str × Entry)

def readMounts (output : Str) : Mounts :=
  (linesOf output).zipIdx.map fun l => (field 1 l.1, ⟨field 2 l.1, l.2⟩)

/-- Of the pairs with one key a Hash keeps the last. -/
def Mounts.get? (mounts : Mounts) (path : Str) : Option Entry :=
  (mounts.reverse.find? fun e => decide (e.1 = some path)).map Prod.snd

inductive Tag where
  | linux | uchroot | umount | ifnames | nullfs | base | video
deriving DecidableEq

structure Req where
  tag : Option Tag
  message : Str
deriving DecidableEq

def expectedMounts (emul : Str) : List (Str × Str) :=
  [("linprocfs", "/proc"), ("linsysfs", "/sys"), ("devfs", "/dev"), ("tmpfs", "/dev/shm"),
    ("fdescfs", "/dev/fd")].map fun m => (m.1.toList, emul ++ m.2.toList)

def requireIf (complaint : Bool) (tag : Option Tag) (message : Str) : List Req :=
  if complaint then [⟨tag, message⟩] else []

def mountReqs (emul : Str) (mounts : Mounts) : List Req :=
  (expectedMounts emul).flatMap fun m =>
    requireIf (!(mounts.get? m.2).any fun e => decide (e.type = some m.1)) (some .linux)
      (m.1 ++ " mounted at ".toList ++ m.2)

def orderReqs (emul : Str) (mounts : Mounts) : List Req :=
  let dev := emul ++ "/dev".toList
  let shm := emul ++ "/dev/shm".toList
  let fd := emul ++ "/dev/fd".toList
  match mounts.get? dev, mounts.get? shm, mounts.get? fd with
  | some d, some s, some f =>
    requireIf (s.line < d.line) (some .linux) (dev ++ " mounted before ".toList ++ shm) ++
      requireIf (f.line < d.line) (some .linux) (dev ++ " mounted before ".toList ++ fd)
  | _, _, _ => []

/-- `version =~ /^(\d+)(:?\.\d+)?$/`, with the number. The colon is part of the pattern. -/
def versionLine (line : Str) : Option Nat :=
  let digits := line.takeWhile Char.isDigit
  let minor : Str → Bool := fun rest =>
    match rest with
    | '.' :: more => !more.isEmpty && more.all Char.isDigit
    | _ => false
  match line.dropWhile Char.isDigit with
  | [] => if digits = [] then none else some (LSU.Numerals.value digits)
  | ':' :: rest =>
    if digits ≠ [] ∧ minor rest = true then some (LSU.Numerals.value digits) else none
  | rest => if digits ≠ [] ∧ minor rest = true then some (LSU.Numerals.value digits) else none

def minRockyRelease : Nat := 9

def rockyOk (version : Option Str) : Bool :=
  (version.bind fun v => (lines v).findSome? versionLine).any fun n => decide (minRockyRelease ≤ n)

/-- What the commands print and the tests of files give. `glibc` is whether the C library of
the base has the version; the base may have no lib64. -/
structure World where
  linux : Str
  linux64 : Str
  mountTable : Str
  shmWritable : Bool
  machineId : Bool
  unprivilegedChroot : Str
  usermount : Str
  realIfnames : Str
  nullfs : Bool
  osRelease : Option Str
  glibc : Option Bool
  drm : Bool
  groups : Str

variable (known : Str → Bool)

/-- The last part, about the base. A raise is `none`. -/
def baseReqs (emul : Str) (w : World) : Option (List Req) := do
  let compatible := [⟨some .base,
    "binaries from Rocky Linux or compatible distro at ".toList ++ emul⟩]
  match w.osRelease with
  | none => return compatible
  | some content =>
    let os ← OsRelease.parse known content
    if ← OsRelease.isExpected os then
      if os.lookup "ID".toList = some "rocky".toList then
        let version := os.lookup "VERSION_ID".toList
        return requireIf (!rockyOk version) (some .base)
          ("binaries from Rocky Linux 9 at ".toList ++ emul ++ ", got ".toList ++ version.getD [])
      else
        let found ← w.glibc
        return requireIf (!found) (some .base)
          ("Linux base with glibc >= 2.34 at ".toList ++ emul)
    else
      return compatible

/-- check_requirements -/
def checkRequirements (emul : Str) (w : World) : Option (List Req) := do
  let mounts := readMounts w.mountTable
  let base ← baseReqs known emul w
  return requireIf (toI w.linux != 1) (some .linux) "32-bit Linux emulation support".toList ++
    requireIf (toI w.linux64 != 1) (some .linux) "64-bit Linux emulation support".toList ++
    mountReqs emul mounts ++ orderReqs emul mounts ++
    requireIf (!w.shmWritable) (some .linux)
      ("write access to ".toList ++ emul ++ "/dev/shm".toList) ++
    requireIf (!w.machineId) none "/etc/machine-id must exist".toList ++
    requireIf (toI w.unprivilegedChroot != 1) (some .uchroot)
      "Unprivileged chroot must be enabled".toList ++
    requireIf (toI w.usermount != 1) (some .umount) "Unprivileged mounts must be enabled".toList ++
    requireIf (toI w.realIfnames != 1) (some .ifnames)
      "FreeBSD interface names must be enabled".toList ++
    requireIf (!w.nullfs) (some .nullfs) "nullfs.ko must be loaded".toList ++ base ++
    requireIf (w.drm && !(OsRelease.splitSpaces w.groups).contains "video".toList) (some .video)
      "video group membership".toList

/-! The lines of mount -p. -/

def Printable (c : Char) : Prop := isBlank c = false ∧ c ≠ '\n'

instance (c : Char) : Decidable (Printable c) := instDecidableAnd

/-- A mounted file system as mount -p prints it. What follows the type is not read. -/
structure MountLine where
  spec : Str
  sep : Str
  path : List Component
  sep' : Str
  fstype : Str
  rest : Str
  specPrintable : ∀ c ∈ spec, Printable c
  sepBlank : sep ≠ [] ∧ ∀ c ∈ sep, isBlank c = true
  pathPrintable : ∀ c ∈ pathText path, Printable c
  sepBlank' : sep' ≠ [] ∧ ∀ c ∈ sep', isBlank c = true
  fstypePrintable : fstype ≠ [] ∧ ∀ c ∈ fstype, Printable c
  restBlank : (rest.head?.any isBlank) = true ∧ '\n' ∉ rest

def MountLine.text (m : MountLine) : Str :=
  m.spec ++ (m.sep ++ (pathText m.path ++ (m.sep' ++ (m.fstype ++ m.rest))))

def printed (table : List MountLine) : Str := (table.map fun m => m.text ++ ['\n']).flatten

theorem linesOf_cons {l rest : Str} (hl : '\n' ∉ l) :
    linesOf (l ++ '\n' :: rest) = (l ++ ['\n']) :: linesOf rest := by
  have hne := List.splitOn_ne_nil '\n' rest
  rw [linesOf, linesOf, List.splitOn_append_cons_self_of_not_mem hl]
  have hlast : ∀ s, (rest.splitOn '\n').getLastD s = (rest.splitOn '\n').getLast hne := by
    intro s
    rw [List.getLastD_eq_getLast?, List.getLast?_eq_some_getLast hne, Option.getD_some]
  simp only [List.dropLast_cons_of_ne_nil hne, List.map_cons, List.cons_append,
    List.getLastD_cons, hlast]

theorem not_mem_of_printable {s : Str} (h : ∀ c ∈ s, Printable c) : '\n' ∉ s :=
  fun hmem => (h '\n' hmem).2 rfl

theorem not_mem_of_blank {s : Str} (h : ∀ c ∈ s, isBlank c = true) : '\n' ∉ s :=
  fun hmem => absurd (h '\n' hmem) (by decide)

theorem MountLine.oneLine (m : MountLine) : '\n' ∉ m.text := by
  simp only [MountLine.text, List.mem_append, not_or]
  exact ⟨not_mem_of_printable m.specPrintable, not_mem_of_blank m.sepBlank.2,
    not_mem_of_printable m.pathPrintable, not_mem_of_blank m.sepBlank'.2,
    not_mem_of_printable m.fstypePrintable.2, m.restBlank.2⟩

theorem linesOf_printed (table : List MountLine) :
    linesOf (printed table) = table.map fun m => m.text ++ ['\n'] := by
  induction table with
  | nil => rfl
  | cons m table ih =>
    rw [printed, List.map_cons, List.flatten_cons, List.append_assoc, List.singleton_append,
      linesOf_cons m.oneLine, ← printed, ih]

theorem word_takeWhile {w rest : Str} (hw : ∀ c ∈ w, Printable c)
    (hrest : rest.head?.any isBlank = true) :
    (w ++ rest).takeWhile (!isBlank ·) = w ∧ (w ++ rest).dropWhile (!isBlank ·) = rest := by
  induction w with
  | nil =>
    cases rest with
    | nil => cases hrest
    | cons c rest =>
      have hc : isBlank c = true := by simpa using hrest
      simp [hc]
  | cons c w ih =>
    have hc := (hw c List.mem_cons_self).1
    obtain ⟨htake, hdrop⟩ := ih fun d hd => hw d (List.mem_cons_of_mem c hd)
    simp [hc, htake, hdrop]

theorem blanks_dropWhile {sep rest : Str} (hsep : ∀ c ∈ sep, isBlank c = true)
    (hrest : ∀ c, rest.head? = some c → isBlank c = false) :
    (sep ++ rest).dropWhile isBlank = rest := by
  induction sep with
  | nil =>
    cases rest with
    | nil => rfl
    | cons c rest => simp [hrest c rfl]
  | cons c sep ih =>
    simp [hsep c List.mem_cons_self, ih fun d hd => hsep d (List.mem_cons_of_mem c hd)]

theorem head_blank {sep rest : Str} (hsep : sep ≠ [] ∧ ∀ c ∈ sep, isBlank c = true) :
    (sep ++ rest).head?.any isBlank = true := by
  obtain ⟨c, t, rfl⟩ := List.exists_cons_of_ne_nil hsep.1
  simpa using hsep.2 c List.mem_cons_self

theorem head_printable {w rest : Str} (hw : w ≠ [] ∧ ∀ c ∈ w, Printable c) (c : Char)
    (hc : (w ++ rest).head? = some c) : isBlank c = false := by
  obtain ⟨d, t, rfl⟩ := List.exists_cons_of_ne_nil hw.1
  obtain rfl : d = c := by simpa using hc
  exact (hw.2 d List.mem_cons_self).1

theorem pathText_ne_nil (path : List Component) : pathText path ≠ [] := by
  rw [pathText]
  split
  · simp
  · rename_i h
    exact mt Paths.slashed_eq_nil.mp h

/-- The second and the third word of a line. -/
theorem field_text (m : MountLine) :
    field 1 (m.text ++ ['\n']) = some (pathText m.path) ∧
      field 2 (m.text ++ ['\n']) = some m.fstype := by
  have hpath := And.intro (pathText_ne_nil m.path) m.pathPrintable
  have hrest : (m.rest ++ ['\n']).head?.any isBlank = true := by
    have hhead := m.restBlank.1
    cases hr : m.rest with
    | nil => simp [hr] at hhead
    | cons c t => simpa [hr] using hhead
  have hfirst : behindWord (m.text ++ ['\n']) =
      pathText m.path ++ (m.sep' ++ (m.fstype ++ (m.rest ++ ['\n']))) := by
    simp only [behindWord, MountLine.text, List.append_assoc]
    rw [(word_takeWhile m.specPrintable (head_blank m.sepBlank)).2,
      blanks_dropWhile m.sepBlank.2 (head_printable hpath)]
  have hsecond : behindWord (pathText m.path ++ (m.sep' ++ (m.fstype ++ (m.rest ++ ['\n'])))) =
      m.fstype ++ (m.rest ++ ['\n']) := by
    rw [behindWord, (word_takeWhile m.pathPrintable (head_blank m.sepBlank')).2,
      blanks_dropWhile m.sepBlank'.2 (head_printable m.fstypePrintable)]
  constructor
  · rw [field, field, hfirst, (word_takeWhile m.pathPrintable (head_blank m.sepBlank')).1]
    simp [hpath.1]
  · rw [field, field, field, hfirst, hsecond, (word_takeWhile m.fstypePrintable.2 hrest).1]
    simp [m.fstypePrintable.1]

theorem readMounts_printed (table : List MountLine) :
    readMounts (printed table) =
      table.zipIdx.map fun l => (some (pathText l.1.path), ⟨some l.1.fstype, l.2⟩) := by
  rw [readMounts, linesOf_printed, List.zipIdx_map, List.map_map]
  refine List.map_congr_left fun l _ => ?_
  obtain ⟨hpath, htype⟩ := field_text l.1
  simp [hpath, htype]

/-- The last line of a path is the one that is found. -/
theorem get?_printed {table : List MountLine} {p : List Component} {e : Entry} :
    (readMounts (printed table)).get? (pathText p) = some e ↔
      ∃ u m v, table = u ++ m :: v ∧ m.path = p ∧ (∀ x ∈ v, x.path ≠ p) ∧
        e = ⟨some m.fstype, u.length⟩ := by
  rw [readMounts_printed]
  induction table using List.reverseRecOn with
  | nil => simp [Mounts.get?]
  | append_singleton table m ih =>
    rw [Mounts.get?] at ih ⊢
    rw [List.zipIdx_append, List.map_append, List.reverse_append]
    simp only [List.zipIdx_cons, List.zipIdx_nil, List.map_cons, List.map_nil, List.reverse_cons,
      List.reverse_nil, List.nil_append, List.singleton_append, Nat.zero_add]
    by_cases hm : m.path = p
    · rw [List.find?_cons_of_pos (by simp [hm])]
      constructor
      · intro h
        obtain rfl : _ = e := by simpa using h
        exact ⟨table, m, [], rfl, hm, by simp, rfl⟩
      · rintro ⟨u, m', v, htable, hm', hlast, rfl⟩
        cases v using List.reverseRecOn with
        | nil =>
          obtain ⟨rfl, hsame⟩ := List.append_inj' htable rfl
          obtain rfl : m = m' := by simpa using hsame
          rfl
        | append_singleton v x =>
          rw [← List.cons_append, ← List.append_assoc] at htable
          obtain ⟨_, hsame⟩ := List.append_inj' htable rfl
          obtain rfl : m = x := by simpa using hsame
          exact absurd hm (hlast m (by simp))
    · have hne : ¬ pathText m.path = pathText p := fun h => hm (pathText_injective h)
      rw [List.find?_cons_of_neg (by simp [hne]), ih]
      constructor
      · rintro ⟨u, m', v, rfl, hm', hlast, rfl⟩
        refine ⟨u, m', v ++ [m], by simp, hm', ?_, rfl⟩
        intro x hx
        obtain hx | hx := List.mem_append.mp hx
        · exact hlast x hx
        · rw [List.mem_singleton.mp hx]
          exact hm
      · rintro ⟨u, m', v, htable, hm', hlast, rfl⟩
        cases v using List.reverseRecOn with
        | nil =>
          obtain ⟨_, hsame⟩ := List.append_inj' htable rfl
          obtain rfl : m = m' := by simpa using hsame
          exact absurd hm' hm
        | append_singleton v x =>
          rw [← List.cons_append, ← List.append_assoc] at htable
          obtain ⟨rfl, _⟩ := List.append_inj' htable rfl
          exact ⟨u, m', v, rfl, hm', fun y hy => hlast y (List.mem_append_left _ hy), rfl⟩

theorem get?_index {table : List MountLine} {p : List Component} {e : Entry} :
    (readMounts (printed table)).get? (pathText p) = some e ↔
      ∃ m, table[e.line]? = some m ∧ m.path = p ∧ e.type = some m.fstype ∧
        ∀ j, ∀ x : MountLine, e.line < j → table[j]? = some x → x.path ≠ p := by
  rw [get?_printed]
  constructor
  · rintro ⟨u, m, v, rfl, hm, hlast, rfl⟩
    refine ⟨m, by simp, hm, rfl, fun j x hj hx => hlast x ?_⟩
    have hj : u.length < j := hj
    rw [List.getElem?_append_right (by omega), List.getElem?_cons, if_neg (by omega)] at hx
    exact List.mem_of_getElem? hx
  · rintro ⟨m, hm, hpath, htype, hlast⟩
    obtain ⟨hlt, hget⟩ := List.getElem?_eq_some_iff.mp hm
    refine ⟨table.take e.line, m, table.drop (e.line + 1), ?_, hpath, ?_, ?_⟩
    · rw [← hget, List.getElem_cons_drop, List.take_append_drop]
    · intro x hx
      obtain ⟨j, hj⟩ := List.getElem?_of_mem hx
      rw [List.getElem?_drop] at hj
      exact hlast (e.line + 1 + j) x (by omega) hj
    · rw [List.length_take_of_le hlt.le, ← htype]

/-! The places under the emulation path. -/

def proc : Component := ⟨"proc".toList, by decide, by decide⟩
def sys : Component := ⟨"sys".toList, by decide, by decide⟩
def dev : Component := ⟨"dev".toList, by decide, by decide⟩
def shm : Component := ⟨"shm".toList, by decide, by decide⟩
def fd : Component := ⟨"fd".toList, by decide, by decide⟩

def places (emul : List Component) : List (Str × List Component) :=
  [("linprocfs".toList, emul ++ [proc]), ("linsysfs".toList, emul ++ [sys]),
    ("devfs".toList, emul ++ [dev]), ("tmpfs".toList, emul ++ [dev, shm]),
    ("fdescfs".toList, emul ++ [dev, fd])]

/-- A mount of the type is what one sees at the path, unless something has been mounted over the
emulation path itself, or above it. -/
def OnTop (emul : List Component) (table : List MountLine) (fs : Str) (p : List Component) :
    Prop :=
  ∃ i : Nat, ∃ m : MountLine, table[i]? = some m ∧ m.path = p ∧ m.fstype = fs ∧
    ∀ j : Nat, ∀ x : MountLine, i < j → table[j]? = some x → AtOrBelow x.path p →
      AtOrBelow x.path emul

variable {emul : List Component} {table : List MountLine}

theorem pathText_under (hemul : emul ≠ []) (path : List Component) :
    pathText (emul ++ path) = pathText emul ++ slashed path := by
  rw [pathText, pathText, if_neg hemul, if_neg (by simp [hemul]), slashed_append]

theorem expectedMounts_places (hemul : emul ≠ []) :
    expectedMounts (pathText emul) = (places emul).map fun e => (e.1, pathText e.2) := by
  simp only [places, List.map_cons, List.map_nil, pathText_under hemul]
  rfl

/-- A prefix of a path under the directory is at or above the directory, or under it too. -/
theorem atOrBelow_under {q rest : List Component} (h : AtOrBelow q (emul ++ rest)) :
    AtOrBelow q emul ∨ ∃ c more, q = emul ++ c :: more ∧ c :: more <+: rest := by
  have hpre : q <+: emul ++ rest := by
    obtain heq | ⟨c, more, hbelow⟩ := h
    · exact ⟨[], by rw [List.append_nil, heq]⟩
    · exact ⟨c :: more, hbelow.symm⟩
  obtain ⟨w, hw⟩ := hpre
  obtain ⟨t, rfl, ht⟩ | ⟨t, rfl, ht⟩ := List.append_eq_append_iff.mp hw
  · left
    cases t with
    | nil => exact Or.inl (by simp)
    | cons c t => exact Or.inr ⟨c, t, rfl⟩
  · cases t with
    | nil => exact Or.inl (Or.inl (by simp))
    | cons c t => exact Or.inr ⟨c, t, rfl, ⟨w, ht.symm⟩⟩

theorem not_atOrBelow_under (c : Component) (more : List Component) :
    ¬ AtOrBelow (emul ++ c :: more) emul := by
  rintro (heq | hbelow)
  · simpa using congrArg List.length heq
  · have hlen := hbelow.length_lt
    rw [List.length_append] at hlen
    omega

theorem requireIf_eq_nil {complaint : Bool} {tag : Option Tag} {message : Str} :
    requireIf complaint tag message = [] ↔ complaint = false := by
  cases complaint <;> simp [requireIf]

/-- The last mount at the path has the type. -/
def LastAt (table : List MountLine) (fs : Str) (p : List Component) (i : Nat) : Prop :=
  ∃ m, table[i]? = some m ∧ m.path = p ∧ m.fstype = fs ∧
    ∀ j, ∀ x : MountLine, i < j → table[j]? = some x → x.path ≠ p

theorem get?_lastAt {fs : Str} {p : List Component} {i : Nat} :
    (readMounts (printed table)).get? (pathText p) = some ⟨some fs, i⟩ ↔ LastAt table fs p i := by
  rw [get?_index, LastAt]
  simp only [Option.some.injEq, eq_comm]

theorem mountReqs_eq_nil (hemul : emul ≠ []) :
    mountReqs (pathText emul) (readMounts (printed table)) = [] ↔
      ∀ e ∈ places emul, ∃ i, LastAt table e.1 e.2 i := by
  rw [mountReqs, expectedMounts_places hemul, List.flatMap_eq_nil_iff, List.forall_mem_map]
  refine forall_congr' fun e => imp_congr_right fun _ => ?_
  rw [requireIf_eq_nil, Bool.not_eq_false', Option.any_eq_true]
  constructor
  · rintro ⟨entry, hentry, htype⟩
    refine ⟨entry.line, get?_lastAt.mp ?_⟩
    rw [hentry, ← of_decide_eq_true htype]
  · rintro ⟨i, hi⟩
    exact ⟨_, get?_lastAt.mpr hi, by simp⟩

theorem orderReqs_eq_nil (hemul : emul ≠ []) {d s f : Nat}
    (hd : LastAt table "devfs".toList (emul ++ [dev]) d)
    (hs : LastAt table "tmpfs".toList (emul ++ [dev, shm]) s)
    (hf : LastAt table "fdescfs".toList (emul ++ [dev, fd]) f) :
    orderReqs (pathText emul) (readMounts (printed table)) = [] ↔ d ≤ s ∧ d ≤ f := by
  have hd' := get?_lastAt.mpr hd
  have hs' := get?_lastAt.mpr hs
  have hf' := get?_lastAt.mpr hf
  rw [pathText_under hemul] at hd' hs' hf'
  have htexts : slashed [dev] = "/dev".toList ∧ slashed [dev, shm] = "/dev/shm".toList ∧
      slashed [dev, fd] = "/dev/fd".toList := ⟨rfl, rfl, rfl⟩
  rw [htexts.1] at hd'
  rw [htexts.2.1] at hs'
  rw [htexts.2.2] at hf'
  simp only [orderReqs, hd', hs', hf', List.append_eq_nil_iff, requireIf_eq_nil,
    decide_eq_false_iff_not, not_lt]

/-- A later mount above the path but under the directory must be one at dev. -/
theorem LastAt.onTop {fs : Str} {c : Component} {rest : List Component} {i : Nat}
    (h : LastAt table fs (emul ++ c :: rest) i)
    (habove : ∀ j, ∀ x : MountLine, i < j → table[j]? = some x → ∀ more, more <+: rest →
      more ≠ rest → x.path ≠ emul ++ c :: more) :
    OnTop emul table fs (emul ++ c :: rest) := by
  obtain ⟨m, hm, hpath, htype, hlast⟩ := h
  refine ⟨i, m, hm, hpath, htype, fun j x hj hx hup => ?_⟩
  obtain hemul | ⟨d, more, heq, hpre⟩ := atOrBelow_under hup
  · exact hemul
  · obtain ⟨rfl, hmore⟩ := List.cons_prefix_cons.mp hpre
    by_cases hall : more = rest
    · rw [hall] at heq
      exact absurd heq (hlast j x hj hx)
    · exact absurd heq (habove j x hj hx more hmore hall)

theorem OnTop.lastAt {fs : Str} {c : Component} {rest : List Component}
    (h : OnTop emul table fs (emul ++ c :: rest)) :
    ∃ i, LastAt table fs (emul ++ c :: rest) i ∧
      ∀ j, ∀ x : MountLine, i < j → table[j]? = some x → ∀ more, more <+: rest →
        x.path ≠ emul ++ c :: more := by
  obtain ⟨i, m, hm, hpath, htype, htop⟩ := h
  have habove : ∀ j, ∀ x : MountLine, i < j → table[j]? = some x → ∀ more, more <+: rest →
      x.path ≠ emul ++ c :: more := by
    intro j x hj hx more hmore heq
    obtain ⟨w, rfl⟩ := hmore
    have hnot : ¬ AtOrBelow (emul ++ c :: more) emul := not_atOrBelow_under c more
    refine hnot ?_
    rw [← heq]
    refine htop j x hj hx ?_
    rw [heq]
    cases w with
    | nil => exact Or.inl (by simp)
    | cons d w => exact Or.inr ⟨d, w, by simp⟩
  exact ⟨i, ⟨m, hm, hpath, htype, fun j x hj hx => habove j x hj hx rest (List.prefix_refl _)⟩,
    habove⟩

/-- The test of the five mounts and the test of their order together. -/
theorem mounts_onTop_iff (hemul : emul ≠ []) :
    mountReqs (pathText emul) (readMounts (printed table)) ++
        orderReqs (pathText emul) (readMounts (printed table)) = [] ↔
      ∀ e ∈ places emul, OnTop emul table e.1 e.2 := by
  rw [List.append_eq_nil_iff, mountReqs_eq_nil hemul]
  constructor
  · rintro ⟨hlast, horder⟩
    simp only [places, List.forall_mem_cons, List.not_mem_nil, false_implies, implies_true,
      and_true] at hlast ⊢
    obtain ⟨⟨p, hp⟩, ⟨y, hy⟩, ⟨d, hd⟩, ⟨s, hs⟩, ⟨f, hf⟩⟩ := hlast
    obtain ⟨hds, hdf⟩ := (orderReqs_eq_nil hemul hd hs hf).mp horder
    have halone : ∀ more, more <+: ([] : List Component) → more ≠ [] → False :=
      fun more hmore hne => hne (List.prefix_nil.mp hmore)
    have hbehind : ∀ (c : Component) (k : Nat), d ≤ k → ∀ j, ∀ x : MountLine, k < j →
        table[j]? = some x → ∀ more, more <+: [c] → more ≠ [c] → x.path ≠ emul ++ dev :: more := by
      intro c k hk j x hj hx more hmore hne
      obtain ⟨m, -, -, -, hdlast⟩ := hd
      obtain rfl : more = [] := by
        cases more with
        | nil => rfl
        | cons a more =>
          obtain ⟨rfl, hnil⟩ := List.cons_prefix_cons.mp hmore
          exact absurd (by rw [List.prefix_nil.mp hnil]) hne
      exact hdlast j x (by omega) hx
    refine ⟨hp.onTop ?_, hy.onTop ?_, hd.onTop ?_, hs.onTop (hbehind shm s hds),
      hf.onTop (hbehind fd f hdf)⟩
    all_goals exact fun j x _ _ more hmore hne => absurd (halone more hmore hne) id
  · intro htop
    simp only [places, List.forall_mem_cons, List.not_mem_nil, false_implies, implies_true,
      and_true] at htop ⊢
    obtain ⟨hp, hy, hd, hs, hf⟩ := htop
    obtain ⟨p, hp, -⟩ := hp.lastAt
    obtain ⟨y, hy, -⟩ := hy.lastAt
    obtain ⟨d, hd, -⟩ := hd.lastAt
    obtain ⟨s, hs, hsabove⟩ := hs.lastAt
    obtain ⟨f, hf, hfabove⟩ := hf.lastAt
    refine ⟨⟨⟨p, hp⟩, ⟨y, hy⟩, ⟨d, hd⟩, ⟨s, hs⟩, ⟨f, hf⟩⟩, ?_⟩
    rw [orderReqs_eq_nil hemul hd hs hf]
    obtain ⟨m, hm, hpath, -⟩ := hd
    constructor
    · by_contra hlt
      exact hsabove d m (by omega) hm [] (List.nil_prefix) hpath
    · by_contra hlt
      exact hfabove d m (by omega) hm [] (List.nil_prefix) hpath

/-- The base is good: the distribution is one of those expected, and new enough. -/
def GoodBase (w : World) : Prop :=
  ∃ content os, w.osRelease = some content ∧ OsRelease.parse known content = some os ∧
    OsRelease.isExpected os = some true ∧
    (os.lookup "ID".toList = some "rocky".toList →
      rockyOk (os.lookup "VERSION_ID".toList) = true) ∧
    (os.lookup "ID".toList ≠ some "rocky".toList → w.glibc = some true)

/-- What the requirements ask for. Only the mounts are more than one test of one value. -/
structure Ready (emul : List Component) (table : List MountLine) (w : World) : Prop where
  linux : toI w.linux = 1
  linux64 : toI w.linux64 = 1
  mounts : ∀ e ∈ places emul, OnTop emul table e.1 e.2
  shmWritable : w.shmWritable = true
  machineId : w.machineId = true
  unprivilegedChroot : toI w.unprivilegedChroot = 1
  usermount : toI w.usermount = 1
  realIfnames : toI w.realIfnames = 1
  nullfs : w.nullfs = true
  base : GoodBase known w
  video : w.drm = true → "video".toList ∈ OsRelease.splitSpaces w.groups

variable {known}

theorem goodBase_iff {content : Str} {os : OsRelease.Os} {w : World}
    (hfile : w.osRelease = some content) (hparse : OsRelease.parse known content = some os) :
    GoodBase known w ↔ OsRelease.isExpected os = some true ∧
      (os.lookup "ID".toList = some "rocky".toList →
        rockyOk (os.lookup "VERSION_ID".toList) = true) ∧
      (os.lookup "ID".toList ≠ some "rocky".toList → w.glibc = some true) := by
  constructor
  · rintro ⟨content', os', hfile', hparse', h⟩
    rw [hfile] at hfile'
    obtain rfl := Option.some.inj hfile'
    rw [hparse] at hparse'
    obtain rfl := Option.some.inj hparse'
    exact h
  · exact fun h => ⟨content, os, hfile, hparse, h⟩

theorem baseReqs_eq_nil {emul : Str} {w : World} :
    baseReqs known emul w = some [] ↔ GoodBase known w := by
  unfold baseReqs
  cases hfile : w.osRelease with
  | none => simp [GoodBase, hfile]
  | some content =>
    cases hparse : OsRelease.parse known content with
    | none =>
      have hbad : ¬ GoodBase known w := by
        rintro ⟨content', os, hfile', hparse', -⟩
        rw [hfile] at hfile'
        obtain rfl := Option.some.inj hfile'
        rw [hparse] at hparse'
        cases hparse'
      simp only [hparse, Option.bind_eq_bind, Option.bind_none, reduceCtorEq, hbad]
    | some os =>
      rw [goodBase_iff hfile hparse]
      cases hexpected : OsRelease.isExpected os with
      | none =>
        simp only [hparse, hexpected, Option.bind_eq_bind, Option.bind_some, Option.bind_none,
          reduceCtorEq, false_and]
      | some expected =>
        cases expected with
        | false =>
          simp only [hparse, hexpected, Option.bind_eq_bind, Option.bind_some, Option.pure_def,
            Bool.false_eq_true, if_false, Option.some.injEq, List.cons_ne_nil, false_and]
        | true =>
          simp only [hparse, hexpected, Option.bind_eq_bind, Option.bind_some, Option.pure_def,
            if_true, true_and]
          by_cases hrocky : os.lookup "ID".toList = some "rocky".toList
          · rw [if_pos hrocky]
            simp only [Option.some.injEq, requireIf_eq_nil, Bool.not_eq_false', hrocky,
              forall_const, ne_eq, not_true_eq_false, false_implies, and_true]
          · rw [if_neg hrocky]
            simp only [hrocky, false_implies, ne_eq, not_false_eq_true, forall_const, true_and]
            cases hglibc : w.glibc with
            | none => simp only [Option.bind_none, reduceCtorEq]
            | some found =>
              simp only [Option.bind_some, Option.some.injEq, requireIf_eq_nil,
                Bool.not_eq_false']

/-- steam has no complaint if and only if everything is as it should be, the mounts on top. -/
theorem nothing_missing_iff (hemul : emul ≠ []) (w : World) :
    checkRequirements known (pathText emul) { w with mountTable := printed table } = some [] ↔
      Ready known emul table w := by
  have hmounts : mountReqs (pathText emul) (readMounts (printed table)) = [] ∧
      orderReqs (pathText emul) (readMounts (printed table)) = [] ↔
        ∀ e ∈ places emul, OnTop emul table e.1 e.2 := by
    rw [← mounts_onTop_iff hemul, List.append_eq_nil_iff]
  have hbase : baseReqs known (pathText emul) { w with mountTable := printed table } = some [] ↔
      GoodBase known w := baseReqs_eq_nil
  unfold checkRequirements
  cases hreqs : baseReqs known (pathText emul) { w with mountTable := printed table } with
  | none =>
    constructor
    · intro h
      cases h
    · intro ready
      rw [hbase.mpr ready.base] at hreqs
      cases hreqs
  | some base =>
    rw [hreqs, Option.some.injEq] at hbase
    simp only [Option.bind_eq_bind, Option.bind_some, Option.pure_def, Option.some.injEq,
      List.append_eq_nil_iff, requireIf_eq_nil, bne_eq_false_iff_eq, Bool.not_eq_false',
      Bool.and_eq_false_imp, List.contains_iff_mem]
    constructor
    · rintro ⟨⟨⟨⟨⟨⟨⟨⟨⟨⟨⟨hlinux, hlinux64⟩, hm⟩, ho⟩, hshm⟩, hid⟩, hchroot⟩, humount⟩, hif⟩,
        hnullfs⟩, hb⟩, hvideo⟩
      exact ⟨hlinux, hlinux64, hmounts.mp ⟨hm, ho⟩, hshm, hid, hchroot, humount, hif, hnullfs,
        hbase.mp hb, hvideo⟩
    · rintro ⟨hlinux, hlinux64, htop, hshm, hid, hchroot, humount, hif, hnullfs, hb, hvideo⟩
      obtain ⟨hm, ho⟩ := hmounts.mpr htop
      exact ⟨⟨⟨⟨⟨⟨⟨⟨⟨⟨⟨hlinux, hlinux64⟩, hm⟩, ho⟩, hshm⟩, hid⟩, hchroot⟩, humount⟩, hif⟩,
        hnullfs⟩, hbase.mpr hb⟩, hvideo⟩

/-! A table in the right order, and one with the directory of devices mounted last. -/

def compat : List Component :=
  [⟨"compat".toList, by decide, by decide⟩, ⟨"linux".toList, by decide, by decide⟩]

theorem forall_of_all {P : Char → Prop} [DecidablePred P] {s : Str}
    (h : s.all (fun c => decide (P c)) = true) : ∀ c ∈ s, P c :=
  fun c hc => of_decide_eq_true (List.all_eq_true.mp h c hc)

def plainLine (fstype : Str) (path : List Component)
    (hpath : (pathText path).all (fun c => decide (Printable c)) = true)
    (hfstype : fstype ≠ [] ∧ fstype.all (fun c => decide (Printable c)) = true) : MountLine where
  spec := fstype
  sep := ['\t', '\t', '\t']
  path := path
  sep' := ['\t']
  fstype := fstype
  rest := "\trw 0 0".toList
  specPrintable := forall_of_all hfstype.2
  sepBlank := ⟨by decide, forall_of_all (by decide)⟩
  pathPrintable := forall_of_all hpath
  sepBlank' := ⟨by decide, forall_of_all (by decide)⟩
  fstypePrintable := ⟨hfstype.1, forall_of_all hfstype.2⟩
  restBlank := by decide

def procLine := plainLine "linprocfs".toList (compat ++ [proc]) (by decide) (by decide)
def sysLine := plainLine "linsysfs".toList (compat ++ [sys]) (by decide) (by decide)
def devLine := plainLine "devfs".toList (compat ++ [dev]) (by decide) (by decide)
def shmLine := plainLine "tmpfs".toList (compat ++ [dev, shm]) (by decide) (by decide)
def fdLine := plainLine "fdescfs".toList (compat ++ [dev, fd]) (by decide) (by decide)

def rockyWorld : World where
  linux := "1\n".toList
  linux64 := "1\n".toList
  mountTable := []
  shmWritable := true
  machineId := true
  unprivilegedChroot := "1\n".toList
  usermount := "1\n".toList
  realIfnames := "1\n".toList
  nullfs := true
  osRelease := some "ID=\"rocky\"\nID_LIKE=\"rhel fedora\"\nVERSION_ID=\"9.5\"\n".toList
  glibc := none
  drm := true
  groups := "user video\n".toList

/-- Of the same mounts, only the order makes the difference. -/
theorem nothing_missing_iff_order :
    Ready (fun _ => true) compat [procLine, sysLine, devLine, shmLine, fdLine] rockyWorld ∧
      ¬ Ready (fun _ => true) compat [procLine, sysLine, shmLine, devLine, fdLine] rockyWorld :=
  ⟨(nothing_missing_iff (by decide) rockyWorld).mp (by decide +kernel),
    fun h => absurd ((nothing_missing_iff (by decide) rockyWorld).mpr h) (by decide +kernel)⟩

end LSU.Requirements
