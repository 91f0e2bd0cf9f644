import Mathlib.Data.List.AList
import LSU.Commands
import LSU.Run

/-! lsu-bootstrap in ~/.steam, one step at a time. A run can stop or fail before every step, and
the commands it starts can leave any part of their output. -/
namespace LSU.Bootstrap
open LSU.Run LSU.Commands

/-- The components of a path below steam. -/
abbrev Path := List Str

inductive Node where
  | dir
  | file (bytes : List UInt8)
deriving DecidableEq

/-- What is there of an entry while it is being written. -/
def Node.partOf : Node → Node → Bool
  | .dir, .dir => true
  | .file written, .file bytes => written.isPrefixOf bytes
  | _, _ => false

/-- A downloaded file: its SHA-256 sum, and what is in the
steam-launcher/bootstraplinux_ubuntu12_32.tar.xz in it. -/
structure Dist where
  sha256 : Str
  bootstrap : List (Path × Node)
deriving DecidableEq

abbrev Tree := AList fun _ : Path => Node

/-- `dist` is steam_1.0.0.79.tar.gz, `steam` the directory steam. -/
structure FS where
  dist : Option Dist
  steam : Option Tree
  symlinks : AList fun _ : Str => Str

def steamDistName : Str := "steam_1.0.0.79.tar.gz".toList

def sha256 : List (Str × Str) :=
  [(steamDistName,
    "3a0012daf5889311c2e1dcf33a587b409019b66d893a52192df6947e18f1ec46".toList)]

def verifyChecksum (path : Str) (dist : Dist) : Bool := some dist.sha256 = sha256.lookup path

/-- fetch is tried on the second one if it fails on the first. -/
def urls : List Str :=
  ["http://repo.steampowered.com/steam/pool/steam/s/steam/".toList ++ steamDistName,
    "http://repo.steampowered.com/steam/archive/stable/".toList ++ steamDistName]

def symlinks : List (Str × Str) :=
  [("root".toList, "steam".toList), ("bin32".toList, "steam/ubuntu12_32".toList),
    ("bin64".toList, "steam/ubuntu12_64".toList), ("sdk32".toList, "steam/linux32".toList),
    ("sdk64".toList, "steam/linux64".toList)]

/-- steam/ubuntu12_32 exists. -/
def FS.installed (fs : FS) : Bool :=
  fs.steam.any fun tree => tree.keys.any fun path => path.head? = some "ubuntu12_32".toList

def FS.lookup (fs : FS) (path : Path) : Option Node :=
  fs.steam.bind fun tree => tree.lookup path

/-- The next step of a run, `idle` between runs. -/
inductive Pc where
  | idle
  | bootstrap
  | download
  | fetch (urls : List Str)
  | downloaded
  | verify
  | mkdir
  | tar
  | extracted
  | links (symlinks : List (Str × Str))
  | done
deriving DecidableEq

/-- `passed` are the archives that have passed verify_checksum. -/
structure State where
  fs : FS
  pc : Pc
  passed : List Dist

/-- A fetch leaves a file or none, any number of times, and exits; tar writes an entry or a
part of it. -/
inductive Event where
  | start
  | next
  | stop
  | fetched (dist : Option Dist)
  | exit (ok : Bool)
  | extract (path : Path) (node : Node)

/-- The first test of set_up_file. -/
def setUpFile (present : Bool) (past body : Pc) : Pc := if present then past else body

/-- The second one, which raises. -/
def checkSetUp (present : Bool) (past : Pc) : Pc := if present then past else .idle

def afterFetch : List Str → Bool → Pc
  | _ :: url :: urls, false => .fetch (url :: urls)
  | _, _ => .downloaded

def step (s : State) (e : Event) : Option State :=
  match s.pc, e with
  | .idle, .start => some { s with pc := .bootstrap }
  | .done, .start => some { s with pc := .bootstrap }
  | .idle, _ => none
  | .done, _ => none
  | _, .stop => some { s with pc := .idle }
  | .bootstrap, .next =>
    some { s with pc := setUpFile s.fs.installed (.links symlinks) .download }
  | .download, .next => some { s with pc := setUpFile s.fs.dist.isSome .verify (.fetch urls) }
  | .fetch _, .fetched dist => some { s with fs := { s.fs with dist := dist } }
  | .fetch urls, .exit ok => some { s with pc := afterFetch urls ok }
  | .downloaded, .next => some { s with pc := checkSetUp s.fs.dist.isSome .verify }
  | .verify, .next =>
    match s.fs.dist.filter (verifyChecksum steamDistName) with
    | some dist => some { s with pc := .mkdir, passed := dist :: s.passed }
    | none => some { s with pc := .idle }
  | .mkdir, .next =>
    some { s with fs := { s.fs with steam := some (s.fs.steam.getD ∅) }, pc := .tar }
  | .tar, .extract path node => do
    let dist ← s.fs.dist
    let tree ← s.fs.steam
    if dist.bootstrap.any (fun entry => entry.1 = path ∧ node.partOf entry.2) then
      return { s with fs := { s.fs with steam := some (tree.insert path node) } }
    else
      none
  -- whatever the status of the pipeline
  | .tar, .next => some { s with pc := .extracted }
  | .extracted, .next => some { s with pc := checkSetUp s.fs.installed (.links symlinks) }
  | .links ((symlink, target) :: rest), .next =>
    if symlink ∈ s.fs.symlinks then some { s with pc := .links rest }
    else
      some { s with
        fs := { s.fs with symlinks := s.fs.symlinks.insert symlink target }, pc := .links rest }
  | .links [], .next => some { s with pc := .done }
  | _, _ => none

/-- The whole of the archive is there. -/
def FS.Holds (fs : FS) (dist : Dist) : Prop :=
  ∀ entry ∈ dist.bootstrap, fs.lookup entry.1 = some entry.2

instance (fs : FS) (dist : Dist) : Decidable (fs.Holds dist) :=
  inferInstanceAs (Decidable (∀ entry ∈ dist.bootstrap, fs.lookup entry.1 = some entry.2))

def HasArchive (s : State) : Prop := ∃ dist ∈ s.passed, s.fs.Holds dist

/-- What a run that has ended normally has done. -/
def EndsExtracted (s : State) : Prop := s.pc = .done → HasArchive s

/-- Before the first run. -/
def begin (fs : FS) : State := ⟨fs, .idle, []⟩

def Event.extracts : Event → Bool
  | .extract _ _ => true
  | _ => false

/-- When the pipeline exits, or the run stops before it does, steam/ubuntu12_32 is there only
with the whole of the archive. -/
def Untroubled (s : State) (e : Event) : Prop :=
  s.pc = .tar → e.extracts = false → s.fs.installed = true → ∀ dist ∈ s.fs.dist, s.fs.Holds dist

instance (s : State) (e : Event) : Decidable (Untroubled s e) :=
  inferInstanceAs (Decidable (s.pc = .tar → e.extracts = false → s.fs.installed = true →
    ∀ dist ∈ s.fs.dist, s.fs.Holds dist))

/-- What the steps do. -/
inductive Effect : State → Event → State → Prop
  | start {fs : FS} {pc : Pc} {passed : List Dist} (hpc : pc = .idle ∨ pc = .done) :
    Effect ⟨fs, pc, passed⟩ .start ⟨fs, .bootstrap, passed⟩
  | stop {fs : FS} {pc : Pc} {passed : List Dist} :
    Effect ⟨fs, pc, passed⟩ .stop ⟨fs, .idle, passed⟩
  | past {fs : FS} {passed : List Dist} (hinstalled : fs.installed = true) :
    Effect ⟨fs, .bootstrap, passed⟩ .next ⟨fs, .links symlinks, passed⟩
  | download {fs : FS} {passed : List Dist} :
    Effect ⟨fs, .bootstrap, passed⟩ .next ⟨fs, .download, passed⟩
  | present {fs : FS} {passed : List Dist} :
    Effect ⟨fs, .download, passed⟩ .next ⟨fs, .verify, passed⟩
  | fetch {fs : FS} {passed : List Dist} (hdist : fs.dist = none) :
    Effect ⟨fs, .download, passed⟩ .next ⟨fs, .fetch urls, passed⟩
  | fetched {fs : FS} {urls : List Str} {passed : List Dist} (dist : Option Dist) :
    Effect ⟨fs, .fetch urls, passed⟩ (.fetched dist)
      ⟨{ fs with dist := dist }, .fetch urls, passed⟩
  | retry {fs : FS} {urls rest : List Str} {passed : List Dist} :
    Effect ⟨fs, .fetch urls, passed⟩ (.exit false) ⟨fs, .fetch rest, passed⟩
  | exit {fs : FS} {urls : List Str} {passed : List Dist} (ok : Bool) :
    Effect ⟨fs, .fetch urls, passed⟩ (.exit ok) ⟨fs, .downloaded, passed⟩
  | downloaded {fs : FS} {passed : List Dist} :
    Effect ⟨fs, .downloaded, passed⟩ .next ⟨fs, .verify, passed⟩
  | raise {fs : FS} {pc : Pc} {passed : List Dist}
      (hpc : pc = .downloaded ∨ pc = .verify ∨ pc = .extracted) :
    Effect ⟨fs, pc, passed⟩ .next ⟨fs, .idle, passed⟩
  | verified {fs : FS} {passed : List Dist} {dist : Dist} (hdist : fs.dist = some dist) :
    Effect ⟨fs, .verify, passed⟩ .next ⟨fs, .mkdir, dist :: passed⟩
  | mkdir {fs : FS} {passed : List Dist} :
    Effect ⟨fs, .mkdir, passed⟩ .next
      ⟨{ fs with steam := some (fs.steam.getD ∅) }, .tar, passed⟩
  | extract {fs : FS} {passed : List Dist} (path : Path) (node : Node) (tree : Tree) :
    Effect ⟨fs, .tar, passed⟩ (.extract path node) ⟨{ fs with steam := some tree }, .tar, passed⟩
  | piped {fs : FS} {passed : List Dist} :
    Effect ⟨fs, .tar, passed⟩ .next ⟨fs, .extracted, passed⟩
  | extracted {fs : FS} {passed : List Dist} (hinstalled : fs.installed = true) :
    Effect ⟨fs, .extracted, passed⟩ .next ⟨fs, .links symlinks, passed⟩
  | link {fs : FS} {link : Str × Str} {rest : List (Str × Str)} {passed : List Dist}
      (links : AList fun _ : Str => Str) :
    Effect ⟨fs, .links (link :: rest), passed⟩ .next
      ⟨{ fs with symlinks := links }, .links rest, passed⟩
  | finish {fs : FS} {passed : List Dist} :
    Effect ⟨fs, .links [], passed⟩ .next ⟨fs, .done, passed⟩

theorem step_effect {s t : State} {e : Event} (h : step s e = some t) : Effect s e t := by
  obtain ⟨fs, pc, passed⟩ := s
  cases pc with
  | idle =>
    cases e <;> simp only [step, reduceCtorEq, Option.some.injEq] at h
    case start => exact h ▸ .start (Or.inl rfl)
  | done =>
    cases e <;> simp only [step, reduceCtorEq, Option.some.injEq] at h
    case start => exact h ▸ .start (Or.inr rfl)
  | bootstrap =>
    cases e <;> simp only [step, reduceCtorEq, Option.some.injEq] at h
    case stop => exact h ▸ .stop
    case next =>
      cases hinstalled : fs.installed with
      | true =>
        rw [hinstalled] at h
        exact h ▸ .past hinstalled
      | false =>
        rw [hinstalled] at h
        exact h ▸ .download
  | download =>
    cases e <;> simp only [step, reduceCtorEq, Option.some.injEq] at h
    case stop => exact h ▸ .stop
    case next =>
      cases hdist : fs.dist with
      | some dist =>
        rw [hdist] at h
        exact h ▸ .present
      | none =>
        rw [hdist] at h
        exact h ▸ .fetch hdist
  | fetch urls =>
    cases e <;> simp only [step, reduceCtorEq, Option.some.injEq] at h
    case stop => exact h ▸ .stop
    case fetched dist => exact h ▸ .fetched dist
    case exit ok =>
      unfold afterFetch at h
      split at h
      · exact h ▸ .retry
      · exact h ▸ .exit ok
  | downloaded =>
    cases e <;> simp only [step, reduceCtorEq, Option.some.injEq] at h
    case stop => exact h ▸ .stop
    case next =>
      cases hpresent : fs.dist.isSome with
      | true =>
        rw [hpresent] at h
        exact h ▸ .downloaded
      | false =>
        rw [hpresent] at h
        exact h ▸ .raise (Or.inl rfl)
  | verify =>
    cases e <;> simp only [step, reduceCtorEq, Option.some.injEq] at h
    case stop => exact h ▸ .stop
    case next =>
      cases hdist : fs.dist.filter (verifyChecksum steamDistName) with
      | some dist =>
        simp only [hdist, Option.some.injEq] at h
        exact h ▸ .verified (Option.filter_eq_some_iff.mp hdist).1
      | none =>
        simp only [hdist, Option.some.injEq] at h
        exact h ▸ .raise (Or.inr (Or.inl rfl))
  | mkdir =>
    cases e <;> simp only [step, reduceCtorEq, Option.some.injEq] at h
    case stop => exact h ▸ .stop
    case next => exact h ▸ .mkdir
  | tar =>
    cases e <;> simp only [step, reduceCtorEq, Option.some.injEq] at h
    case stop => exact h ▸ .stop
    case next => exact h ▸ .piped
    case extract path node =>
      obtain ⟨dist, -, h⟩ := Option.bind_eq_some_iff.mp h
      obtain ⟨tree, -, h⟩ := Option.bind_eq_some_iff.mp h
      split at h
      · exact Option.some.inj h ▸ .extract path node _
      · cases h
  | extracted =>
    cases e <;> simp only [step, reduceCtorEq, Option.some.injEq] at h
    case stop => exact h ▸ .stop
    case next =>
      cases hinstalled : fs.installed with
      | true =>
        rw [hinstalled] at h
        exact h ▸ .extracted hinstalled
      | false =>
        rw [hinstalled] at h
        exact h ▸ .raise (Or.inr (Or.inr rfl))
  | links rest =>
    cases rest with
    | nil =>
      cases e <;> simp only [step, reduceCtorEq, Option.some.injEq] at h
      case stop => exact h ▸ .stop
      case next => exact h ▸ .finish
    | cons link rest =>
      cases e <;> simp only [step, reduceCtorEq, Option.some.injEq] at h
      case stop => exact h ▸ .stop
      case next =>
        split at h
        · exact Option.some.inj h ▸ .link fs.symlinks
        · exact Option.some.inj h ▸ .link _

/-! steam/ubuntu12_32 vouches for the archive, save while tar runs. -/

def Sound (s : State) : Prop := s.fs.installed = true → HasArchive s

/-- The downloaded archive has passed. -/
def Verified (s : State) : Prop := ∃ dist ∈ s.passed, s.fs.dist = some dist

def Inv (s : State) : Prop :=
  match s.pc with
  | .mkdir => Sound s ∧ Verified s
  | .tar => Verified s
  | .links _ => HasArchive s
  | .done => HasArchive s
  | _ => Sound s

theorem HasArchive.sound {s : State} (h : HasArchive s) : Sound s := fun _ => h

/-- Where a pipeline ends or stops in an untroubled run. -/
theorem Verified.sound {s : State} {e : Event} (h : Verified s) (hok : Untroubled s e)
    (hpc : s.pc = .tar) (he : e.extracts = false) : Sound s := by
  intro hinstalled
  obtain ⟨dist, hpassed, hdist⟩ := h
  exact ⟨dist, hpassed, hok hpc he hinstalled dist hdist⟩

theorem inv_stop {fs : FS} {pc : Pc} {passed : List Dist} (hs : Inv ⟨fs, pc, passed⟩)
    (hok : Untroubled ⟨fs, pc, passed⟩ .stop) : Inv ⟨fs, .idle, passed⟩ := by
  cases pc with
  | mkdir => exact hs.1
  | tar =>
    have hsound : Sound ⟨fs, .tar, passed⟩ := Verified.sound hs hok rfl rfl
    exact hsound
  | links rest => exact HasArchive.sound hs
  | done => exact HasArchive.sound hs
  | idle => exact hs
  | bootstrap => exact hs
  | download => exact hs
  | fetch urls => exact hs
  | downloaded => exact hs
  | verify => exact hs
  | extracted => exact hs

theorem inv_step {s t : State} {e : Event} (hs : Inv s) (hok : Untroubled s e)
    (h : step s e = some t) : Inv t := by
  cases step_effect h with
  | start hpc =>
    rcases hpc with rfl | rfl
    · exact hs
    · exact HasArchive.sound hs
  | stop => exact inv_stop hs hok
  | past hinstalled => exact hs hinstalled
  | download => exact hs
  | present => exact hs
  | fetch hdist => exact hs
  | fetched dist => exact hs
  | retry => exact hs
  | exit ok => exact hs
  | downloaded => exact hs
  | raise hpc => rcases hpc with rfl | rfl | rfl <;> exact hs
  | @verified fs passed dist hdist =>
    constructor
    · intro hinstalled
      obtain ⟨d, hd, hholds⟩ := hs hinstalled
      exact ⟨d, List.mem_cons_of_mem dist hd, hholds⟩
    · exact ⟨dist, List.mem_cons_self, hdist⟩
  | mkdir => exact hs.2
  | extract path node tree => exact hs
  | @piped fs passed =>
    have hsound : Sound ⟨fs, .tar, passed⟩ := Verified.sound hs hok rfl rfl
    exact hsound
  | extracted hinstalled => exact hs hinstalled
  | link links => exact hs
  | finish => exact hs

/-- Wherever earlier runs have stopped, a run that ends normally has the whole of an archive that
has passed, as long as no extraction of them was troubled. -/
theorem ends_extracted_of_untroubled (fs : FS) (hfs : fs.installed = false) (es : List Event)
    (s : State) (h : run step (begin fs) es = some s)
    (hok : Meets step Untroubled (begin fs) es) : EndsExtracted s := by
  have hstart : Inv (begin fs) := by
    intro hinstalled
    rw [begin, hfs] at hinstalled
    contradiction
  have hinv : Inv s := meets_invariant Inv (fun _ _ _ hr hmeets hstep => inv_step hr hmeets hstep)
    hstart hok h
  intro hdone
  rw [Inv, hdone] at hinv
  exact hinv

/-- An archive with one file. -/
def launcher : Dist where
  sha256 := "3a0012daf5889311c2e1dcf33a587b409019b66d893a52192df6947e18f1ec46".toList
  bootstrap := [(["ubuntu12_32".toList], .dir),
    (["ubuntu12_32".toList, "steam".toList], .file [127, 69, 76, 70])]

def emptyHome : FS := ⟨none, none, ∅⟩

/-- The first run stops before tar has written a thing, the second one goes through. -/
def secondRunExtracts : List Event :=
  [.start, .next, .next, .fetched (some launcher), .exit true, .next, .next, .next, .stop,
    .start, .next, .next, .next, .next, .extract ["ubuntu12_32".toList] .dir,
    .extract ["ubuntu12_32".toList, "steam".toList] (.file [127, 69, 76, 70]), .next, .next,
    .next, .next, .next, .next, .next, .next]

theorem ends_extracted_of_untroubled_launcher :
    ∃ s, run step (begin emptyHome) secondRunExtracts = some s ∧ s.pc = .done ∧
      EndsExtracted s := by
  obtain ⟨s, hrun, hdone⟩ : ∃ s, run step (begin emptyHome) secondRunExtracts = some s ∧
      s.pc = .done := run_reaches (by decide +kernel)
  refine ⟨s, hrun, hdone, ?_⟩
  apply ends_extracted_of_untroubled emptyHome _ secondRunExtracts s hrun
  · decide +kernel
  · decide

/-- tar is stopped once it has made the directory. The next run takes it for the archive. -/
def stoppedInTar : List Event :=
  [.start, .next, .next, .fetched (some launcher), .exit true, .next, .next, .next,
    .extract ["ubuntu12_32".toList] .dir, .stop, .start, .next, .next, .next, .next, .next,
    .next, .next]

theorem partial_extraction_ends_normally :
    ∃ s, run step (begin emptyHome) stoppedInTar = some s ∧ ¬ EndsExtracted s := by
  obtain ⟨s, hrun, hdone, hnone⟩ : ∃ s, run step (begin emptyHome) stoppedInTar = some s ∧
      s.pc = .done ∧ ∀ dist ∈ s.passed, ¬ s.fs.Holds dist := run_reaches (by decide +kernel)
  refine ⟨s, hrun, ?_⟩
  intro hends
  obtain ⟨dist, hpassed, hholds⟩ := hends hdone
  exact hnone dist hpassed hholds

/-! The condition is needed: what a troubled extraction leaves is accepted for good. -/

/-- Only what is in ~/.steam has passed. -/
structure Kept (s : State) : Prop where
  dist : ∀ dist ∈ s.passed, s.fs.dist = some dist
  fetch : ∀ urls, s.pc = .fetch urls → s.passed = []

theorem kept_step {s t : State} {e : Event} (hs : Kept s) (h : step s e = some t) : Kept t := by
  cases step_effect h with
  | @fetch fs passed hdist =>
    have hnone : passed = [] := by
      apply List.eq_nil_iff_forall_not_mem.mpr
      intro dist hpassed
      have hsome := hs.dist dist hpassed
      rw [hdist] at hsome
      contradiction
    exact ⟨hs.dist, fun _ _ => hnone⟩
  | @fetched fs urls passed dist =>
    have hnone : passed = [] := hs.fetch urls rfl
    subst hnone
    exact ⟨by simp, fun _ _ => rfl⟩
  | @retry fs urls rest passed => exact ⟨hs.dist, fun _ _ => hs.fetch urls rfl⟩
  | verified hdist => exact ⟨List.forall_mem_cons.mpr ⟨hdist, hs.dist⟩, by simp⟩
  | raise hpc => exact ⟨hs.dist, by simp⟩
  | start hpc => exact ⟨hs.dist, by simp⟩
  | stop => exact ⟨hs.dist, by simp⟩
  | past hinstalled => exact ⟨hs.dist, by simp⟩
  | download => exact ⟨hs.dist, by simp⟩
  | present => exact ⟨hs.dist, by simp⟩
  | exit ok => exact ⟨hs.dist, by simp⟩
  | downloaded => exact ⟨hs.dist, by simp⟩
  | mkdir => exact ⟨hs.dist, by simp⟩
  | extract path node tree => exact ⟨hs.dist, by simp⟩
  | piped => exact ⟨hs.dist, by simp⟩
  | extracted hinstalled => exact ⟨hs.dist, by simp⟩
  | link links => exact ⟨hs.dist, by simp⟩
  | finish => exact ⟨hs.dist, by simp⟩

/-- The symbolic links leave steam as it is. -/
theorem run_links (rest : List (Str × Str)) (fs : FS) (passed : List Dist) :
    ∃ es fs', run step ⟨fs, .links rest, passed⟩ es = some ⟨fs', .done, passed⟩ ∧
      fs'.steam = fs.steam := by
  induction rest generalizing fs with
  | nil => exact ⟨[.next], fs, rfl, rfl⟩
  | cons link rest ih =>
    obtain ⟨links, hstep⟩ : ∃ links, step ⟨fs, .links (link :: rest), passed⟩ .next =
        some ⟨{ fs with symlinks := links }, .links rest, passed⟩ := by
      simp only [step]
      split
      · exact ⟨fs.symlinks, rfl⟩
      · exact ⟨_, rfl⟩
    obtain ⟨es, fs', hrun, hsteam⟩ := ih { fs with symlinks := links }
    exact ⟨.next :: es, fs', run_cons.mpr ⟨_, hstep, hrun⟩, hsteam⟩

/-- What a pipeline has left, or a run that has stopped, is past both tests. -/
theorem run_past {fs : FS} {pc : Pc} (passed : List Dist) (hinstalled : fs.installed = true)
    (hpc : pc = .extracted ∨ pc = .idle) :
    ∃ es fs', run step ⟨fs, pc, passed⟩ es = some ⟨fs', .done, passed⟩ ∧
      fs'.steam = fs.steam := by
  obtain ⟨es, fs', hrun, hsteam⟩ := run_links symlinks fs passed
  rcases hpc with rfl | rfl
  · refine ⟨.next :: es, fs', ?_, hsteam⟩
    rw [run_cons]
    refine ⟨⟨fs, .links symlinks, passed⟩, ?_, hrun⟩
    simp [step, checkSetUp, hinstalled]
  · refine ⟨.start :: .next :: es, fs', ?_, hsteam⟩
    rw [run_cons]
    refine ⟨⟨fs, .bootstrap, passed⟩, rfl, ?_⟩
    rw [run_cons]
    refine ⟨⟨fs, .links symlinks, passed⟩, ?_, hrun⟩
    simp [step, setUpFile, hinstalled]

/-- From a step that is troubled some run ends normally without the archive. -/
theorem troubled_ends_normally {fs : FS} {es : List Event} {s t : State} {e : Event}
    (h : run step (begin fs) es = some s) (he : step s e = some t) (hok : ¬ Untroubled s e) :
    ∃ es' u, run step (begin fs) (es ++ e :: es') = some u ∧ ¬ EndsExtracted u := by
  have hkept : Kept t := by
    have hstart : Kept (begin fs) := ⟨by simp [begin], by simp [begin]⟩
    exact kept_step (run_invariant Kept (fun _ _ _ => kept_step) hstart h) he
  simp only [Untroubled, Classical.not_imp, not_forall] at hok
  obtain ⟨hpc, hextracts, hinstalled, dist, hdist, hholds⟩ := hok
  have hleft : t.fs = s.fs ∧ (t.pc = .extracted ∨ t.pc = .idle) := by
    cases step_effect he with
    | stop => exact ⟨rfl, Or.inr rfl⟩
    | piped => exact ⟨rfl, Or.inl rfl⟩
    | extract path node tree => cases hextracts
    | start hstart => rcases hstart with rfl | rfl <;> cases hpc
    | raise hraise => rcases hraise with rfl | rfl | rfl <;> cases hpc
    | _ => cases hpc
  obtain ⟨fs', pc', passed⟩ := t
  obtain ⟨rfl, hpc'⟩ := hleft
  obtain ⟨es', fs', hrun, hsteam⟩ := run_past passed hinstalled hpc'
  refine ⟨es', ⟨fs', .done, passed⟩, ?_, ?_⟩
  · rw [run_append, h, Option.bind_some, run, he, Option.bind_some]
    exact hrun
  · intro hends
    obtain ⟨dist', hpassed, hholds'⟩ := hends rfl
    have hsame := hkept.dist dist' hpassed
    obtain rfl : dist = dist' := Option.some.inj ((Option.mem_def.mp hdist).symm.trans hsame)
    apply hholds
    intro entry hentry
    rw [FS.lookup, ← hsteam]
    exact hholds' entry hentry

end LSU.Bootstrap
