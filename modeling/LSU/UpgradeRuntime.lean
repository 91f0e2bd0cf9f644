import Mathlib.Data.Char
import Mathlib.Data.List.AList
import Mathlib.Data.List.Lex
import Mathlib.Data.List.Sort
import LSU.Run

/-! lsu-upgrade-steam-runtime on the ubuntu12_32 directory, one file-system operation at a
time. A run can stop before every operation; Steam replaces the archive between runs. The
content of an archive is a function of its MD5 sum. -/
namespace LSU.UpgradeRuntime
open LSU.Run

abbrev Str := List Char
abbrev Md5 := String

/-- What steam-runtime.tar.xz holds. -/
structure Release where
  versionTxt : Str
  files : List String

/-- A directory with an extracted runtime. A checksum file has a first word or is empty. -/
structure Dir where
  files : List String
  checksum : Option (Option Md5)
deriving DecidableEq

/-- What steam-runtime is. -/
inductive Link where
  | none
  | symlink (version : Str)
  | dir (d : Dir)
deriving DecidableEq

/-- `archive` is the MD5 sum of steam-runtime.tar.xz, `dirs` are the directories
steam-runtime_*. -/
structure FS where
  archive : Option Md5
  checksum : Option (Option Md5)
  dirs : AList fun _ : Str => Dir
  link : Link

/-- Through the symbolic link, if it is one. -/
def FS.steamRuntime (fs : FS) : Option Dir :=
  match fs.link with
  | .none => none
  | .symlink version => fs.dirs.lookup version
  | .dir d => some d

def FS.setDir (fs : FS) (version : Str) (d : Dir) : FS :=
  { fs with dirs := fs.dirs.insert version d }

/-- Changes the directory steam-runtime leads to. -/
def FS.setSteamRuntime (fs : FS) (d : Dir) : FS :=
  match fs.link with
  | .none => fs
  | .symlink version => fs.setDir version d
  | .dir _ => { fs with link := .dir d }

def isVersionChar (c : Char) : Bool := c.isDigit || c = '.'

/-- `/_([\d\.]+)$/` -/
def version : Str → Option Str
  | [] => none
  | c :: text =>
    if c = '_' ∧ text.takeWhile isVersionChar ≠ [] ∧
        (text.dropWhile isVersionChar).head?.all (· = '\n') = true then
      some (text.takeWhile isVersionChar)
    else
      version text

/-- All but the last two, and not the target of the link. -/
def prunable (fs : FS) : List Str :=
  (fs.dirs.keys.insertionSort (· ≤ ·)).dropLast.dropLast.filter
    fun version => fs.link ≠ .symlink version

/-- The next operation of a run. -/
inductive Pc where
  | idle
  | mkdir (version : Str)
  | tar (version : Str)
  | createChecksum (version : Str)
  | copyChecksum (version : Str)
  | rmRuntime (version : Str)
  | rmTree (version : Str)
  | lnS (version : Str)
  | past
  | setup
  | prune (dirs : List Str)
deriving DecidableEq

structure State where
  fs : FS
  pc : Pc

/-- An operation is `next`, or a part of it: a file tar has extracted, an entry rm_r has
removed (the checksum file or another one), a file setup.sh has written. -/
inductive Event where
  | steam (archive : Option Md5) (checksum : Option (Option Md5))
  | start
  | next
  | extract (file : String)
  | remove (entry : Option String)
  | write (file : String)
  | stop

def Dir.remove (d : Dir) : Option String → Dir
  | none => { d with checksum := none }
  | some file => { d with files := d.files.filter (· ≠ file) }

variable (release : Md5 → Release)

/-- All of the archive is there. -/
def Dir.Complete (d : Dir) (md5 : Md5) : Prop := ∀ file ∈ (release md5).files, file ∈ d.files

instance (d : Dir) (md5 : Md5) : Decidable (d.Complete release md5) :=
  inferInstanceAs (Decidable (∀ file ∈ (release md5).files, file ∈ d.files))

/-- From the start of a run to its first change: the checksums, the integrity check, the
version, and whether its directory exists. -/
def upgrade (fs : FS) : Pc :=
  let runtimeMd5 := fs.steamRuntime.bind fun d => d.checksum.join
  match fs.checksum.join with
  | none => .past
  | some archiveMd5 =>
    if runtimeMd5 = some archiveMd5 then .past
    else if fs.archive ≠ some archiveMd5 then .idle
    else
      match version (release archiveMd5).versionTxt with
      | none => .idle
      | some v => if (fs.dirs.lookup v).isSome then .rmRuntime v else .mkdir v

def step (s : State) (e : Event) : Option State :=
  match s.pc, e with
  | .idle, .steam archive checksum =>
    some ⟨{ s.fs with archive := archive, checksum := checksum }, .idle⟩
  | .idle, .start => some ⟨s.fs, upgrade release s.fs⟩
  | .idle, _ => none
  | _, .stop => some ⟨s.fs, .idle⟩
  | .mkdir v, .next => some ⟨s.fs.setDir v ⟨[], none⟩, .tar v⟩
  | .tar v, .extract file => do
    let archive ← s.fs.archive
    let d ← s.fs.dirs.lookup v
    if file ∈ (release archive).files then
      return ⟨s.fs.setDir v { d with files := file :: d.files }, .tar v⟩
    else
      none
  | .tar v, .next => do
    let archive ← s.fs.archive
    let d ← s.fs.dirs.lookup v
    if d.Complete release archive then return ⟨s.fs, .createChecksum v⟩ else none
  | .createChecksum v, .next => do
    let d ← s.fs.dirs.lookup v
    return ⟨s.fs.setDir v { d with checksum := some none }, .copyChecksum v⟩
  | .copyChecksum v, .next => do
    let d ← s.fs.dirs.lookup v
    return ⟨s.fs.setDir v { d with checksum := s.fs.checksum }, .rmRuntime v⟩
  | .rmRuntime v, .next =>
    match s.fs.link with
    | .none => some ⟨s.fs, .lnS v⟩
    | .symlink w =>
      -- a dangling link does not exist for File.exist?
      if (s.fs.dirs.lookup w).isSome then some ⟨{ s.fs with link := .none }, .lnS v⟩
      else some ⟨s.fs, .lnS v⟩
    | .dir _ => some ⟨s.fs, .rmTree v⟩
  | .rmTree v, .remove entry => do
    let d ← s.fs.steamRuntime
    return ⟨s.fs.setSteamRuntime (d.remove entry), .rmTree v⟩
  | .rmTree v, .next =>
    if s.fs.steamRuntime = some ⟨[], none⟩ then
      some ⟨{ s.fs with link := .none }, .lnS v⟩
    else
      none
  | .lnS v, .next =>
    if s.fs.link = .none then some ⟨{ s.fs with link := .symlink v }, .past⟩
    else some ⟨s.fs, .idle⟩
  | .past, .next => do
    let d ← s.fs.steamRuntime
    if "pinned_libs_32" ∈ d.files ∧ "pinned_libs_64" ∈ d.files then
      return ⟨s.fs, .prune (prunable s.fs)⟩
    else
      return ⟨s.fs, .setup⟩
  | .setup, .write file => do
    let d ← s.fs.steamRuntime
    return ⟨s.fs.setSteamRuntime { d with files := file :: d.files }, .setup⟩
  | .setup, .next => some ⟨s.fs, .prune (prunable s.fs)⟩
  | .prune (v :: _), .remove entry => do
    let d ← s.fs.dirs.lookup v
    return ⟨s.fs.setDir v (d.remove entry), s.pc⟩
  | .prune (v :: dirs), .next =>
    if s.fs.dirs.lookup v = some ⟨[], none⟩ then
      some ⟨{ s.fs with dirs := s.fs.dirs.erase v }, .prune dirs⟩
    else
      none
  | .prune [], .next => some ⟨s.fs, .idle⟩
  | _, _ => none

/-- A checksum file in it vouches for the whole archive. -/
def Dir.Good (d : Dir) : Prop := ∀ md5, d.checksum = some (some md5) → d.Complete release md5

/-- A complete runtime under the checksum of the archive. -/
def Dir.Holds (d : Dir) (md5 : Md5) : Prop :=
  d.checksum = some (some md5) ∧ d.Complete release md5

def LinkGood (fs : FS) : Prop := ∀ d, fs.steamRuntime = some d → d.Good release

/-- steam-runtime leads to a complete runtime with the checksum of the archive. -/
def Ready (fs : FS) (md5 : Md5) : Prop := ∃ d, fs.steamRuntime = some d ∧ d.Holds release md5

/-- What a run that has passed the upgrade has done. -/
def UpgradedSafely (s : State) : Prop :=
  s.pc = .past → s.fs.checksum ≠ none →
    ∃ md5, s.fs.checksum = some (some md5) ∧ Ready release s.fs md5

/-- The archive is not the installed one, and it is intact. -/
def Due (fs : FS) (md5 : Md5) : Prop :=
  fs.checksum = some (some md5) ∧ fs.archive = some md5 ∧
    fs.steamRuntime.bind (fun d => d.checksum.join) ≠ some md5

/-- A run starts with no empty checksum file and, if the directory of an archive that is due
exists, with all of that archive in it; it does not stop while it removes a real directory
steam-runtime that still has its checksum. -/
def Untroubled (s : State) (e : Event) : Prop :=
  match s.pc, e with
  | .idle, .start =>
    s.fs.checksum ≠ some none ∧
      ∀ md5 v d, Due s.fs md5 → version (release md5).versionTxt = some v →
        s.fs.dirs.lookup v = some d → d.Holds release md5
  | .rmTree _, .stop => ∀ d md5, s.fs.link = .dir d → d.checksum ≠ some (some md5)
  | _, _ => True

/-- Where the archive goes is filled. -/
def Filled (fs : FS) (v : Str) : Prop :=
  ∃ md5 d, fs.checksum = some (some md5) ∧ fs.dirs.lookup v = some d ∧ d.Holds release md5

/-- What is there before each operation of a run. -/
def PcInv (fs : FS) : Pc → Prop
  | .idle => LinkGood release fs
  | .mkdir _ =>
    LinkGood release fs ∧ ∃ md5, fs.checksum = some (some md5) ∧ fs.archive = some md5
  | .tar v =>
    LinkGood release fs ∧ ∃ md5 d, fs.checksum = some (some md5) ∧ fs.archive = some md5 ∧
      fs.dirs.lookup v = some d ∧ d.checksum = none
  | .createChecksum v =>
    LinkGood release fs ∧ ∃ md5 d, fs.checksum = some (some md5) ∧
      fs.dirs.lookup v = some d ∧ d.Complete release md5
  | .copyChecksum v =>
    LinkGood release fs ∧ ∃ md5 d, fs.checksum = some (some md5) ∧
      fs.dirs.lookup v = some d ∧ d.Complete release md5
  | .rmRuntime v => LinkGood release fs ∧ Filled release fs v
  | .rmTree v => (∃ d, fs.link = .dir d) ∧ Filled release fs v
  | .lnS v => LinkGood release fs ∧ Filled release fs v
  | .past => LinkGood release fs ∧ UpgradedSafely release ⟨fs, .past⟩
  | .setup => LinkGood release fs
  | .prune dirs => LinkGood release fs ∧ ∀ v ∈ dirs, fs.link ≠ .symlink v

variable {release}

theorem Dir.Good.of_no_checksum {d : Dir} (h : ∀ md5, d.checksum ≠ some (some md5)) :
    d.Good release := fun md5 hd => absurd hd (h md5)

theorem LinkGood.setDir {fs : FS} (h : LinkGood release fs) (v : Str) {d : Dir}
    (hd : d.Good release) : LinkGood release (fs.setDir v d) := by
  intro x hx
  cases hl : fs.link with
  | none => simp [FS.steamRuntime, FS.setDir, hl] at hx
  | symlink w =>
    by_cases hw : w = v
    · obtain rfl : d = x := by simpa [FS.steamRuntime, FS.setDir, hl, hw] using hx
      exact hd
    · exact h x (by simpa [FS.steamRuntime, FS.setDir, hl, AList.lookup_insert_ne hw] using hx)
  | dir y => exact h x (by simpa [FS.steamRuntime, FS.setDir, hl] using hx)

theorem LinkGood.setSteamRuntime {fs : FS} (h : LinkGood release fs) {d : Dir}
    (hd : d.Good release) : LinkGood release (fs.setSteamRuntime d) := by
  unfold FS.setSteamRuntime
  cases hl : fs.link with
  | none => exact h
  | symlink v => exact h.setDir v hd
  | dir y =>
    intro x hx
    obtain rfl : d = x := by simpa [FS.steamRuntime] using hx
    exact hd

/-- A directory the link does not lead to may change. -/
theorem LinkGood.dirs {fs : FS} (h : LinkGood release fs) {dirs : AList fun _ : Str => Dir}
    (hdirs : ∀ v, fs.link = .symlink v → dirs.lookup v = fs.dirs.lookup v) :
    LinkGood release { fs with dirs := dirs } := by
  intro x hx
  refine h x ?_
  cases hl : fs.link with
  | none => simp [FS.steamRuntime, hl] at hx
  | symlink v => simpa [FS.steamRuntime, hl, hdirs v hl] using hx
  | dir y => simpa [FS.steamRuntime, hl] using hx

theorem linkGood_none {fs : FS} : LinkGood release { fs with link := .none } := by
  intro d hd
  simp [FS.steamRuntime] at hd

theorem prunable_not_target {fs : FS} : ∀ v ∈ prunable fs, fs.link ≠ .symlink v := by
  intro v hv
  simpa using (List.mem_filter.mp hv).2

/-- The tests of a run lead to an operation whose needs are met. -/
theorem pcInv_upgrade {fs : FS} (h : LinkGood release fs)
    (hok : Untroubled release ⟨fs, .idle⟩ .start) : PcInv release fs (upgrade release fs) := by
  obtain ⟨hne, hdue⟩ := hok
  unfold upgrade
  cases hsum : fs.checksum with
  | none => exact ⟨h, fun _ hpresent => absurd hsum hpresent⟩
  | some word =>
    cases word with
    | none => exact absurd hsum hne
    | some md5 =>
      by_cases hrun : fs.steamRuntime.bind (fun d => d.checksum.join) = some md5
      · obtain ⟨d, hd, hmd5⟩ := Option.bind_eq_some_iff.mp hrun
        have hd' : d.checksum = some (some md5) := Option.join_eq_some_iff.mp hmd5
        simp only [Option.join_some, hrun, if_true]
        exact ⟨h, fun _ _ => ⟨md5, hsum, d, hd, hd', h d hd md5 hd'⟩⟩
      · by_cases harch : fs.archive = some md5
        · simp only [Option.join_some, hrun, if_false, harch, ne_eq, not_true_eq_false]
          cases hv : version (release md5).versionTxt with
          | none => exact h
          | some v =>
            cases hl : fs.dirs.lookup v with
            | none => simpa [hl] using ⟨h, md5, hsum, harch⟩
            | some d =>
              have hd := hdue md5 v d ⟨hsum, harch, hrun⟩ hv hl
              simpa [hl] using ⟨h, md5, d, hsum, hl, hd⟩
        · simp only [Option.join_some, hrun, if_false, harch, ne_eq, not_false_eq_true, if_true]
          exact h

/-- A run that stops leaves a good link, save where a real directory is half removed. -/
theorem linkGood_stop {fs : FS} {pc : Pc} (hs : PcInv release fs pc)
    (hok : Untroubled release ⟨fs, pc⟩ .stop) : LinkGood release fs := by
  cases pc with
  | idle => exact hs
  | mkdir v => exact hs.1
  | tar v => exact hs.1
  | createChecksum v => exact hs.1
  | copyChecksum v => exact hs.1
  | rmRuntime v => exact hs.1
  | rmTree v =>
    obtain ⟨⟨d, hd⟩, -⟩ := hs
    intro x hx
    obtain rfl : d = x := by simpa [FS.steamRuntime, hd] using hx
    exact Dir.Good.of_no_checksum fun md5 => hok d md5 hd
  | lnS v => exact hs.1
  | past => exact hs.1
  | setup => exact hs
  | prune dirs => exact hs.1

/-- What the steps do. -/
inductive Effect (release : Md5 → Release) : State → Event → State → Prop
  | steam {fs : FS} (archive : Option Md5) (checksum : Option (Option Md5)) :
    Effect release ⟨fs, .idle⟩ (.steam archive checksum)
      ⟨{ fs with archive := archive, checksum := checksum }, .idle⟩
  | start {fs : FS} : Effect release ⟨fs, .idle⟩ .start ⟨fs, upgrade release fs⟩
  | stop {fs : FS} {pc : Pc} : Effect release ⟨fs, pc⟩ .stop ⟨fs, .idle⟩
  | mkdir {fs : FS} {v : Str} :
    Effect release ⟨fs, .mkdir v⟩ .next ⟨fs.setDir v ⟨[], none⟩, .tar v⟩
  | extract {fs : FS} {v : Str} {d : Dir} (file : String) (hd : fs.dirs.lookup v = some d) :
    Effect release ⟨fs, .tar v⟩ (.extract file)
      ⟨fs.setDir v { d with files := file :: d.files }, .tar v⟩
  | extracted {fs : FS} {v : Str} {d : Dir} {archive : Md5} (harch : fs.archive = some archive)
      (hd : fs.dirs.lookup v = some d) (hc : d.Complete release archive) :
    Effect release ⟨fs, .tar v⟩ .next ⟨fs, .createChecksum v⟩
  | createChecksum {fs : FS} {v : Str} {d : Dir} (hd : fs.dirs.lookup v = some d) :
    Effect release ⟨fs, .createChecksum v⟩ .next
      ⟨fs.setDir v { d with checksum := some none }, .copyChecksum v⟩
  | copyChecksum {fs : FS} {v : Str} {d : Dir} (hd : fs.dirs.lookup v = some d) :
    Effect release ⟨fs, .copyChecksum v⟩ .next
      ⟨fs.setDir v { d with checksum := fs.checksum }, .rmRuntime v⟩
  | keepRuntime {fs : FS} {v : Str} : Effect release ⟨fs, .rmRuntime v⟩ .next ⟨fs, .lnS v⟩
  | rmLink {fs : FS} {v : Str} :
    Effect release ⟨fs, .rmRuntime v⟩ .next ⟨{ fs with link := .none }, .lnS v⟩
  | rmDir {fs : FS} {v : Str} {d : Dir} (hl : fs.link = .dir d) :
    Effect release ⟨fs, .rmRuntime v⟩ .next ⟨fs, .rmTree v⟩
  | rmEntry {fs : FS} {v : Str} {d : Dir} (entry : Option String)
      (hd : fs.steamRuntime = some d) :
    Effect release ⟨fs, .rmTree v⟩ (.remove entry)
      ⟨fs.setSteamRuntime (d.remove entry), .rmTree v⟩
  | rmDone {fs : FS} {v : Str} :
    Effect release ⟨fs, .rmTree v⟩ .next ⟨{ fs with link := .none }, .lnS v⟩
  | lnS {fs : FS} {v : Str} :
    Effect release ⟨fs, .lnS v⟩ .next ⟨{ fs with link := .symlink v }, .past⟩
  | lnSFails {fs : FS} {v : Str} : Effect release ⟨fs, .lnS v⟩ .next ⟨fs, .idle⟩
  | pinned {fs : FS} : Effect release ⟨fs, .past⟩ .next ⟨fs, .prune (prunable fs)⟩
  | unpinned {fs : FS} : Effect release ⟨fs, .past⟩ .next ⟨fs, .setup⟩
  | write {fs : FS} {d : Dir} (file : String) (hd : fs.steamRuntime = some d) :
    Effect release ⟨fs, .setup⟩ (.write file)
      ⟨fs.setSteamRuntime { d with files := file :: d.files }, .setup⟩
  | setUp {fs : FS} : Effect release ⟨fs, .setup⟩ .next ⟨fs, .prune (prunable fs)⟩
  | pruneEntry {fs : FS} {v : Str} {dirs : List Str} {d : Dir} (entry : Option String)
      (hd : fs.dirs.lookup v = some d) :
    Effect release ⟨fs, .prune (v :: dirs)⟩ (.remove entry)
      ⟨fs.setDir v (d.remove entry), .prune (v :: dirs)⟩
  | pruned {fs : FS} {v : Str} {dirs : List Str} :
    Effect release ⟨fs, .prune (v :: dirs)⟩ .next
      ⟨{ fs with dirs := fs.dirs.erase v }, .prune dirs⟩
  | finished {fs : FS} : Effect release ⟨fs, .prune []⟩ .next ⟨fs, .idle⟩

theorem step_effect {s t : State} {e : Event} (h : step release s e = some t) :
    Effect release s e t := by
  obtain ⟨fs, pc⟩ := s
  cases pc with
  | idle =>
    cases e <;> simp only [step, reduceCtorEq, Option.some.injEq] at h
    case steam archive checksum => exact h ▸ .steam archive checksum
    case start => exact h ▸ .start
  | mkdir v =>
    cases e <;> simp only [step, reduceCtorEq, Option.some.injEq] at h
    case stop => exact h ▸ .stop
    case next => exact h ▸ .mkdir
  | tar v =>
    cases e <;> simp only [step, reduceCtorEq, Option.some.injEq] at h
    case stop => exact h ▸ .stop
    case extract file =>
      obtain ⟨archive, -, h⟩ := Option.bind_eq_some_iff.mp h
      obtain ⟨d, hd, h⟩ := Option.bind_eq_some_iff.mp h
      split at h
      · exact Option.some.inj h ▸ .extract file hd
      · cases h
    case next =>
      obtain ⟨archive, harch, h⟩ := Option.bind_eq_some_iff.mp h
      obtain ⟨d, hd, h⟩ := Option.bind_eq_some_iff.mp h
      split at h
      case isTrue hc => exact Option.some.inj h ▸ .extracted harch hd hc
      case isFalse => cases h
  | createChecksum v =>
    cases e <;> simp only [step, reduceCtorEq, Option.some.injEq] at h
    case stop => exact h ▸ .stop
    case next =>
      obtain ⟨d, hd, h⟩ := Option.bind_eq_some_iff.mp h
      exact Option.some.inj h ▸ .createChecksum hd
  | copyChecksum v =>
    cases e <;> simp only [step, reduceCtorEq, Option.some.injEq] at h
    case stop => exact h ▸ .stop
    case next =>
      obtain ⟨d, hd, h⟩ := Option.bind_eq_some_iff.mp h
      exact Option.some.inj h ▸ .copyChecksum hd
  | rmRuntime v =>
    cases e <;> simp only [step, reduceCtorEq, Option.some.injEq] at h
    case stop => exact h ▸ .stop
    case next =>
      cases hl : fs.link with
      | none =>
        rw [hl] at h
        exact Option.some.inj h ▸ .keepRuntime
      | symlink w =>
        rw [hl] at h
        dsimp only at h
        split at h
        · exact Option.some.inj h ▸ .rmLink
        · exact Option.some.inj h ▸ .keepRuntime
      | dir d =>
        rw [hl] at h
        exact Option.some.inj h ▸ .rmDir hl
  | rmTree v =>
    cases e <;> simp only [step, reduceCtorEq, Option.some.injEq] at h
    case stop => exact h ▸ .stop
    case remove entry =>
      obtain ⟨d, hd, h⟩ := Option.bind_eq_some_iff.mp h
      exact Option.some.inj h ▸ .rmEntry entry hd
    case next =>
      split at h
      · exact Option.some.inj h ▸ .rmDone
      · cases h
  | lnS v =>
    cases e <;> simp only [step, reduceCtorEq, Option.some.injEq] at h
    case stop => exact h ▸ .stop
    case next =>
      split at h
      · exact Option.some.inj h ▸ .lnS
      · exact Option.some.inj h ▸ .lnSFails
  | past =>
    cases e <;> simp only [step, reduceCtorEq, Option.some.injEq] at h
    case stop => exact h ▸ .stop
    case next =>
      obtain ⟨d, -, h⟩ := Option.bind_eq_some_iff.mp h
      split at h
      · exact Option.some.inj h ▸ .pinned
      · exact Option.some.inj h ▸ .unpinned
  | setup =>
    cases e <;> simp only [step, reduceCtorEq, Option.some.injEq] at h
    case stop => exact h ▸ .stop
    case write file =>
      obtain ⟨d, hd, h⟩ := Option.bind_eq_some_iff.mp h
      exact Option.some.inj h ▸ .write file hd
    case next => exact h ▸ .setUp
  | prune dirs =>
    cases dirs with
    | nil =>
      cases e <;> simp only [step, reduceCtorEq, Option.some.injEq] at h
      case stop => exact h ▸ .stop
      case next => exact h ▸ .finished
    | cons v dirs =>
      cases e <;> simp only [step, reduceCtorEq, Option.some.injEq] at h
      case stop => exact h ▸ .stop
      case remove entry =>
        obtain ⟨d, hd, h⟩ := Option.bind_eq_some_iff.mp h
        exact Option.some.inj h ▸ .pruneEntry entry hd
      case next =>
        split at h
        · exact Option.some.inj h ▸ .pruned
        · cases h

/-- The archive is extracted into a directory without a checksum. -/
theorem pcInv_extract {fs : FS} {v : Str} {d : Dir} (hs : PcInv release fs (.tar v))
    (hd : fs.dirs.lookup v = some d) (file : String) :
    PcInv release (fs.setDir v { d with files := file :: d.files }) (.tar v) := by
  obtain ⟨hgood, md5, d', hsum, harch, hd', hnone⟩ := hs
  obtain rfl := Option.some.inj (hd.symm.trans hd')
  have hgood' : Dir.Good release { d with files := file :: d.files } :=
    Dir.Good.of_no_checksum (by simp [hnone])
  exact ⟨hgood.setDir v hgood', md5, _, hsum, harch, AList.lookup_insert _, hnone⟩

theorem pcInv_extracted {fs : FS} {v : Str} {d : Dir} {archive : Md5}
    (hs : PcInv release fs (.tar v)) (harch : fs.archive = some archive)
    (hd : fs.dirs.lookup v = some d) (hc : d.Complete release archive) :
    PcInv release fs (.createChecksum v) := by
  obtain ⟨hgood, md5, -, hsum, harch', -, -⟩ := hs
  obtain rfl := Option.some.inj (harch.symm.trans harch')
  exact ⟨hgood, archive, d, hsum, hd, hc⟩

theorem pcInv_createChecksum {fs : FS} {v : Str} {d : Dir}
    (hs : PcInv release fs (.createChecksum v)) (hd : fs.dirs.lookup v = some d) :
    PcInv release (fs.setDir v { d with checksum := some none }) (.copyChecksum v) := by
  obtain ⟨hgood, md5, d', hsum, hd', hc⟩ := hs
  obtain rfl := Option.some.inj (hd.symm.trans hd')
  have hgood' : Dir.Good release { d with checksum := some none } :=
    Dir.Good.of_no_checksum (by simp)
  exact ⟨hgood.setDir v hgood', md5, _, hsum, AList.lookup_insert _, hc⟩

/-- From here on the directory vouches for its content. -/
theorem pcInv_copyChecksum {fs : FS} {v : Str} {d : Dir}
    (hs : PcInv release fs (.copyChecksum v)) (hd : fs.dirs.lookup v = some d) :
    PcInv release (fs.setDir v { d with checksum := fs.checksum }) (.rmRuntime v) := by
  obtain ⟨hgood, md5, d', hsum, hd', hc⟩ := hs
  obtain rfl := Option.some.inj (hd.symm.trans hd')
  have hgood' : Dir.Good release { d with checksum := fs.checksum } := by
    intro x hx
    obtain rfl : md5 = x := by simpa [hsum] using hx
    exact hc
  exact ⟨hgood.setDir v hgood', md5, _, hsum, AList.lookup_insert _, hsum, hc⟩

theorem pcInv_rmEntry {fs : FS} {v : Str} {d : Dir} (hs : PcInv release fs (.rmTree v)) :
    PcInv release (fs.setSteamRuntime d) (.rmTree v) := by
  obtain ⟨⟨x, hl⟩, hfilled⟩ := hs
  have hset : fs.setSteamRuntime d = { fs with link := .dir d } := by
    simp [FS.setSteamRuntime, hl]
  rw [hset]
  exact ⟨⟨d, rfl⟩, hfilled⟩

/-- The link leads to the directory just filled, or to one filled before. -/
theorem pcInv_lnS {fs : FS} {v : Str} (hs : PcInv release fs (.lnS v)) :
    PcInv release { fs with link := .symlink v } .past := by
  obtain ⟨-, md5, d, hsum, hd, hholds⟩ := hs
  have hlink : FS.steamRuntime { fs with link := .symlink v } = some d := hd
  refine ⟨fun x hx => ?_, fun _ _ => ⟨md5, hsum, d, hlink, hholds⟩⟩
  obtain rfl : d = x := Option.some.inj (hlink.symm.trans hx)
  intro md5' hmd5
  obtain rfl : md5 = md5' := by simpa [hholds.1] using hmd5
  exact hholds.2

theorem pcInv_write {fs : FS} {d : Dir} (hs : PcInv release fs .setup)
    (hd : fs.steamRuntime = some d) (file : String) :
    PcInv release (fs.setSteamRuntime { d with files := file :: d.files }) .setup := by
  have hgood : Dir.Good release { d with files := file :: d.files } :=
    fun md5 hmd5 f hf => List.mem_cons_of_mem file (hs d hd md5 hmd5 f hf)
  exact LinkGood.setSteamRuntime hs hgood

/-- The directory that is removed is not the one the link leads to. -/
theorem pcInv_prune {fs : FS} {v : Str} {dirs : List Str}
    (hs : PcInv release fs (.prune (v :: dirs))) (after : AList fun _ : Str => Dir)
    (hafter : ∀ w, w ≠ v → after.lookup w = fs.dirs.lookup w) :
    PcInv release { fs with dirs := after } (.prune (v :: dirs)) := by
  obtain ⟨hgood, htarget⟩ := hs
  refine ⟨hgood.dirs fun w hw => hafter w fun hwv => ?_, htarget⟩
  exact htarget v List.mem_cons_self (hwv ▸ hw)

theorem inv_step {s t : State} {e : Event} (hs : PcInv release s.fs s.pc)
    (hok : Untroubled release s e) (h : step release s e = some t) :
    PcInv release t.fs t.pc := by
  cases step_effect h with
  | steam archive checksum => exact hs
  | start => exact pcInv_upgrade hs hok
  | stop => exact linkGood_stop hs hok
  | @mkdir fs v =>
    obtain ⟨hgood, md5, hsum, harch⟩ := hs
    exact ⟨hgood.setDir v (Dir.Good.of_no_checksum (by simp)), md5, ⟨[], none⟩, hsum, harch,
      by simp [FS.setDir], rfl⟩
  | extract file hd => exact pcInv_extract hs hd file
  | extracted harch hd hc => exact pcInv_extracted hs harch hd hc
  | createChecksum hd => exact pcInv_createChecksum hs hd
  | copyChecksum hd => exact pcInv_copyChecksum hs hd
  | keepRuntime => exact hs
  | rmLink => exact ⟨linkGood_none, hs.2⟩
  | rmDir hl => exact ⟨⟨_, hl⟩, hs.2⟩
  | rmEntry entry hd => exact pcInv_rmEntry hs
  | rmDone => exact ⟨linkGood_none, hs.2⟩
  | lnS => exact pcInv_lnS hs
  | lnSFails => exact hs.1
  | pinned => exact ⟨hs.1, prunable_not_target⟩
  | unpinned => exact hs.1
  | write file hd => exact pcInv_write hs hd file
  | setUp => exact ⟨hs, prunable_not_target⟩
  | pruneEntry entry hd => exact pcInv_prune hs _ fun w hw => AList.lookup_insert_ne hw
  | @pruned fs v dirs =>
    have hinv := pcInv_prune hs (fs.dirs.erase v) fun w hw => AList.lookup_erase_ne hw
    exact ⟨hinv.1, fun w hw => hinv.2 w (List.mem_cons_of_mem v hw)⟩
  | finished => exact hs.1

/-- Before the first run steam-runtime is absent or a real directory, complete if it has a
checksum. -/
def Fresh (release : Md5 → Release) (fs : FS) : Prop :=
  fs.link = .none ∨ ∃ d, fs.link = .dir d ∧ d.Good release

theorem linkGood_fresh {fs : FS} (h : Fresh release fs) : LinkGood release fs := by
  intro x hx
  obtain hnone | ⟨d, hd, hgood⟩ := h
  · simp [FS.steamRuntime, hnone] at hx
  · obtain rfl : d = x := by simpa [FS.steamRuntime, hd] using hx
    exact hgood

/-- Wherever earlier runs have stopped, a run that gets past the upgrade has a complete
runtime with the checksum of the archive, as long as no run of them was troubled. -/
theorem runtime_ready_of_untroubled (release : Md5 → Release) (fs : FS) (hfs : Fresh release fs)
    (es : List Event) (s : State) (h : run (step release) ⟨fs, .idle⟩ es = some s)
    (hok : Meets (step release) (Untroubled release) ⟨fs, .idle⟩ es) :
    UpgradedSafely release s := by
  have hstart : PcInv release (State.mk fs .idle).fs (State.mk fs .idle).pc := linkGood_fresh hfs
  have hinv : PcInv release s.fs s.pc :=
    meets_invariant (fun r : State => PcInv release r.fs r.pc)
      (fun _ _ _ hr hmeets hstep => inv_step hr hmeets hstep) hstart hok h
  intro hpast
  rw [hpast] at hinv
  exact hinv.2 rfl

def scoutRelease : Md5 → Release := fun _ => ⟨"steam-runtime_0.1\n".toList, ["run.sh"]⟩

def downloaded : FS := ⟨some "d41d", some (some "d41d"), ∅, .none⟩

/-- The first run stops before it has made the directory, the second one goes through. -/
theorem runtime_ready_of_untroubled_scout :
    ∃ s, run (step scoutRelease) ⟨downloaded, .idle⟩
        [.start, .stop, .start, .next, .extract "run.sh", .next, .next, .next, .next, .next] =
          some s ∧ s.pc = .past ∧ UpgradedSafely scoutRelease s := by
  have hstart : Untroubled scoutRelease ⟨downloaded, .idle⟩ .start :=
    ⟨by decide, fun md5 v d _ _ hd => by simp [downloaded] at hd⟩
  refine ⟨_, rfl, rfl, runtime_ready_of_untroubled scoutRelease downloaded (Or.inl rfl)
    [.start, .stop, .start, .next, .extract "run.sh", .next, .next, .next, .next, .next] _ rfl ?_⟩
  refine ⟨hstart, fun t ht => ?_⟩
  obtain rfl := Option.some.inj ht
  refine ⟨trivial, fun t ht => ?_⟩
  obtain rfl := Option.some.inj ht
  refine ⟨hstart, fun t ht => ?_⟩
  obtain rfl := Option.some.inj ht
  iterate 7
    refine ⟨trivial, fun t ht => ?_⟩
    obtain rfl := Option.some.inj ht
  trivial

/-- A run that stops between mkdir and tar leaves an empty directory, and the next one makes
steam-runtime lead to it. -/
theorem stop_before_tar_links_empty_runtime :
    ∃ s, run (step scoutRelease) ⟨downloaded, .idle⟩
        [.start, .next, .stop, .start, .next, .next] = some s ∧
      ¬ UpgradedSafely scoutRelease s := by
  refine ⟨_, rfl, fun hsafe => ?_⟩
  obtain ⟨md5, -, d, hd, hsum, -⟩ := hsafe rfl (by decide)
  obtain rfl : (⟨[], none⟩ : Dir) = d := Option.some.inj hd
  cases hsum

end LSU.UpgradeRuntime
