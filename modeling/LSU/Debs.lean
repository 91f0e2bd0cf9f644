import Mathlib.Logic.Function.Basic
import LSU.InitTmpDir
import LSU.Mounts
import LSU.WorkerPool

/-! download_debs and extract_debs of .utils.rb. Their threads share a closed queue. What a
command reports and leaves behind is an answer of the outside world, and nobody else writes to
dist_path. -/
namespace LSU.Debs
open LSU.Run LSU.Mounts LSU.WorkerPool
open LSU.InitTmpDir (chomp)

/-- An entry of the table: a plain file name, and `meta`. -/
structure Package where
  name : Str
  path : Str
  sha256 : Str
deriving DecidableEq

structure Table where
  entries : List Package
  nodup : (entries.map Package.name).Nodup

/-- How a file of dist_path has got its name. -/
inductive File where
  | before
  | mirrorList
  | fetched (url : Str) (reported : Bool)
  | moved (file : File)
deriving DecidableEq

abbrev Files := Str → Option File

/-- The values that the messages name; `errno` is a SystemCallError. -/
inductive Err where
  | unableToDownload (pkg : Str)
  | unableToComputeChecksum (pkg : Str)
  | wrongChecksum (sha256 pkg expected : Str)
  | unableToExtract (pkg : Str)
  | errno
deriving DecidableEq

/-! ### download_debs -/

def mirrorListPath : Str := "mirrors.txt".toList

def Package.tmp (pkg : Package) : Str := pkg.name ++ ".tmp".toList

def Package.url (pkg : Package) (mirror : Str) : Str :=
  mirror ++ '/' :: pkg.path ++ '/' :: pkg.name

/-- What a fetch that is not known to have worked leaves of the file it was to write. -/
inductive Left where
  | asBefore
  | written
  | nothing
deriving DecidableEq

def Left.apply (l : Left) (name : Str) (file : File) (files : Files) : Files :=
  match l with
  | .asBefore => files
  | .written => Function.update files name (some file)
  | .nothing => Function.update files name none

inductive Fetching where
  | trying (mirrors : List Str)
  | downloaded

/-- `failed` and `fetched` are the results of fetch, `moved` and `notMoved` those of mv. A copy
can be left where mv has failed to rename. -/
inductive FetchAnswer where
  | fetched
  | failed (left : Left)
  | noMirror
  | moved
  | notMoved (copied : Bool)

def fetchNext (pkg : Package) :
    Fetching → FetchAnswer → Files → Option (Files × After Fetching Err)
  | .trying (mirror :: _), .fetched, files =>
    some (Function.update files pkg.tmp (some (.fetched (pkg.url mirror) true)),
      .goesOn .downloaded)
  | .trying (mirror :: mirrors), .failed left, files =>
    some (left.apply pkg.tmp (.fetched (pkg.url mirror) false) files, .goesOn (.trying mirrors))
  | .trying [], .noMirror, files => some (files, .fails (.unableToDownload pkg.name))
  | .downloaded, .moved, files =>
    (files pkg.tmp).map fun file =>
      (Function.update (Function.update files pkg.tmp none) pkg.name (some (.moved file)), .done)
  | .downloaded, .notMoved copied, files =>
    match copied, files pkg.tmp with
    | true, some file =>
      some (Function.update files pkg.name (some (.moved file)), .fails .errno)
    | _, _ => some (files, .fails .errno)
  | _, _, _ => none

def fetchWork (mirrors : List Str) : Work Package Fetching Err FetchAnswer Files :=
  ⟨fun _ => .trying mirrors, fetchNext⟩

def fallbackMirrors : List Str :=
  ["https://mirrors.kernel.org/ubuntu".toList, "https://nl.archive.ubuntu.com/ubuntu".toList]

/-- What download_debs finds out before it starts the threads: whether mkdir_p works, whether the
mirror list is older than an hour, what the fetch of it leaves, its lines or nil where readlines
raises something other than ENOENT, and what shuffle does. -/
structure Prelude where
  mkdirP : Bool
  stale : Bool
  fetch : Left
  readlines : Option (List Str)
  shuffled : Bool

/-- The list, fetched again where it is not there or stale. -/
def Prelude.fetchList (b : Prelude) (files : Files) : Files :=
  if (files mirrorListPath).isNone || b.stale then
    b.fetch.apply mirrorListPath .mirrorList files
  else
    files

def Table.missing (dpkgs : Table) (files : Files) : List Package :=
  dpkgs.entries.filter fun pkg => (files pkg.name).isNone

def downloadPrepare (dpkgs : Table) (b : Prelude) (files : Files) :
    Except (Err × Files) (List Str × Pool Package Fetching Err Files) :=
  let queue := dpkgs.missing files
  if queue.isEmpty then
    .ok ([], .start 0 [] files)
  else if b.mkdirP then
    let files := b.fetchList files
    match if (files mirrorListPath).isNone then some [] else b.readlines with
    | some mirrors =>
      let fallback := if b.shuffled then fallbackMirrors.reverse else fallbackMirrors
      .ok (mirrors ++ fallback, .start 4 queue files)
    | none => .error (.errno, files)
  else
    .error (.errno, files)

def downloadDebs (dpkgs : Table) :
    Method (List Str) Package Fetching Err FetchAnswer Files Prelude :=
  ⟨downloadPrepare dpkgs, fetchWork⟩

/-! ### extract_debs -/

/-- A command that has been run on a package. -/
inductive Ran where
  | sha256 (pkg value : Str) (success : Bool)
  | tar (pkg : Str) (success : Bool)
deriving DecidableEq

inductive Extracting where
  | summing
  | extracting

/-- sha256 can not be started, or it comes to its end, or the pipeline of the shell does. -/
inductive ExtractAnswer where
  | noSha256
  | sha256 (output : Str) (success : Bool)
  | tar (success : Bool)

def extractNext (pkg : Package) :
    Extracting → ExtractAnswer → List Ran → Option (List Ran × After Extracting Err)
  | .summing, .noSha256, log => some (log, .fails .errno)
  | .summing, .sha256 output success, log =>
    let value := chomp output
    some (log ++ [.sha256 pkg.name value success],
      if !success then .fails (.unableToComputeChecksum pkg.name)
      else if value ≠ pkg.sha256 then .fails (.wrongChecksum value pkg.name pkg.sha256)
      else .goesOn .extracting)
  | .extracting, .tar success, log =>
    some (log ++ [.tar pkg.name success],
      if success then .done else .fails (.unableToExtract pkg.name))
  | _, _, _ => none

def extractWork : Work Package Extracting Err ExtractAnswer (List Ran) :=
  ⟨fun _ => .summing, extractNext⟩

/-- `clamp(1..16)` -/
def threads (ncpu : Int) : Nat := (max 1 (min ncpu 16)).toNat

/-- `ncpu` is what `to_i` makes of the output of sysctl, nil where that can not be started. -/
def extractPrepare (dpkgs : Table) (ncpu : Option Int) (log : List Ran) :
    Except (Err × List Ran) (Unit × Pool Package Extracting Err (List Ran)) :=
  match ncpu with
  | some n => .ok ((), .start (threads n) dpkgs.entries log)
  | none => .error (.errno, log)

def extractDebs (dpkgs : Table) :
    Method Unit Package Extracting Err ExtractAnswer (List Ran) (Option Int) :=
  ⟨extractPrepare dpkgs, fun _ => extractWork⟩

/-! ### The files of dist_path -/

variable {dpkgs : Table} {files : Files}

/-- No package has the name of the mirror list, and none has the name under which another is
fetched. -/
structure Table.Apart (dpkgs : Table) : Prop where
  list : ∀ pkg ∈ dpkgs.entries, pkg.name ≠ mirrorListPath
  tmp : ∀ pkg ∈ dpkgs.entries, ∀ other ∈ dpkgs.entries, pkg.name ≠ other.tmp

/-- It is so where all names end in .deb, as in the table of .dpkgs.rb. -/
theorem apart_of_deb (h : ∀ pkg ∈ dpkgs.entries, pkg.name.getLast? = some 'b') : dpkgs.Apart where
  list pkg hp heq := by
    have hb := h pkg hp
    rw [heq] at hb
    exact absurd hb (by decide)
  tmp pkg hp other ho heq := by
    have hb := h pkg hp
    rw [heq, Package.tmp, List.getLast?_append] at hb
    exact absurd hb (by simp)

theorem name_inj {pkg other : Package} (hp : pkg ∈ dpkgs.entries) (ho : other ∈ dpkgs.entries)
    (h : pkg.name = other.name) : pkg = other :=
  List.inj_on_of_nodup_map dpkgs.nodup hp ho h

theorem Left.apply_of_ne {l : Left} {name x : Str} {file : File} (h : x ≠ name) :
    l.apply name file files x = files x := by
  cases l <;> simp [Left.apply, h]

theorem fetchNext_frame {pkg : Package} {k : Fetching} {a : FetchAnswer} {t : Files}
    {after : After Fetching Err} (h : fetchNext pkg k a files = some (t, after)) {x : Str}
    (hname : x ≠ pkg.name) (htmp : x ≠ pkg.tmp) : t x = files x := by
  cases k with
  | trying mirrors =>
    cases mirrors with
    | nil =>
      cases a with
      | noMirror => cases h; rfl
      | _ => cases h
    | cons mirror mirrors =>
      cases a with
      | fetched =>
        cases h
        exact Function.update_of_ne htmp ..
      | failed left =>
        cases h
        exact Left.apply_of_ne htmp
      | _ => cases h
  | downloaded =>
    cases a with
    | moved =>
      obtain ⟨file, -, heq⟩ := Option.map_eq_some_iff.mp h
      cases heq
      rw [Function.update_of_ne hname, Function.update_of_ne htmp]
    | notMoved copied =>
      simp only [fetchNext] at h
      split at h
      case h_1 =>
        cases h
        exact Function.update_of_ne hname ..
      case h_2 => cases h; rfl
    | _ => cases h

/-- It has been fetched with success and then moved to its name. -/
def Package.MovedIn (pkg : Package) (files : Files) : Prop :=
  ∃ mirror, files pkg.name = some (.moved (.fetched (pkg.url mirror) true))

/-- What dist_path holds of a package in each phase of its download. -/
def Fetched : Phase Fetching Err → Package → Files → Prop
  | .at .downloaded, pkg, files =>
    files pkg.name = none ∧ ∃ mirror, files pkg.tmp = some (.fetched (pkg.url mirror) true)
  | .done, pkg, files => pkg.MovedIn files
  | .failed _, pkg, files => files pkg.name = none ∨ pkg.MovedIn files
  | _, pkg, files => files pkg.name = none

theorem Fetched.congr {ph : Phase Fetching Err} {pkg : Package} {s t : Files}
    (hname : t pkg.name = s pkg.name) (htmp : t pkg.tmp = s pkg.tmp) (h : Fetched ph pkg s) :
    Fetched ph pkg t := by
  cases ph with
  | «at» k => cases k <;> simpa [Fetched, hname, htmp] using h
  | _ => simpa [Fetched, Package.MovedIn, hname] using h

theorem Package.name_ne_tmp (pkg : Package) : pkg.name ≠ pkg.tmp := by
  intro h
  have := congrArg List.length h
  simp [Package.tmp] at this

theorem fetched_own {pkg : Package} {k : Fetching} {a : FetchAnswer} {s t : Files}
    {after : After Fetching Err} (hs : Fetched (.at k) pkg s)
    (h : fetchNext pkg k a s = some (t, after)) : Fetched after.phase pkg t := by
  have hne := pkg.name_ne_tmp
  cases k with
  | trying mirrors =>
    have hnone : s pkg.name = none := hs
    cases mirrors with
    | nil =>
      cases a with
      | noMirror => cases h; exact .inl hnone
      | _ => cases h
    | cons mirror mirrors =>
      cases a with
      | fetched =>
        cases h
        refine ⟨?_, mirror, Function.update_self ..⟩
        rw [Function.update_of_ne hne, hnone]
      | failed left =>
        cases h
        exact (Left.apply_of_ne hne).trans hnone
      | _ => cases h
  | downloaded =>
    obtain ⟨hnone, mirror, htmp⟩ := hs
    cases a with
    | moved =>
      obtain ⟨file, hfile, heq⟩ := Option.map_eq_some_iff.mp h
      cases heq
      obtain rfl := Option.some.inj (htmp.symm.trans hfile)
      exact ⟨mirror, Function.update_self ..⟩
    | notMoved copied =>
      cases copied with
      | true =>
        simp only [fetchNext, htmp] at h
        cases h
        exact .inr ⟨mirror, Function.update_self ..⟩
      | false =>
        cases h
        exact .inl hnone
    | _ => cases h

theorem fetchWork_keeps (ha : dpkgs.Apart) (mirrors : List Str) :
    (fetchWork mirrors).Keeps (dpkgs.missing files) Fetched where
  first _ _ _ h := h
  own _ _ _ _ _ _ _ hs h := fetched_own hs h
  others i hi j hj hij k a s t after h ph := by
    have hi := List.mem_of_mem_filter hi
    have hj := List.mem_of_mem_filter hj
    have hname : j.name ≠ i.name := fun heq => hij (name_inj hi hj heq.symm)
    refine Fetched.congr (fetchNext_frame h hname (ha.tmp j hj i hi)) (fetchNext_frame h ?_ ?_)
    · exact (ha.tmp i hi j hj).symm
    · intro heq
      exact hname (List.append_cancel_right heq)

/-- What the call starts the threads with. -/
theorem downloadPrepare_ok {b : Prelude} {mirrors : List Str}
    {p : Pool Package Fetching Err Files} (h : downloadPrepare dpkgs b files = .ok (mirrors, p)) :
    ∃ n t, p = .start n (dpkgs.missing files) t ∧ (n = 0 → dpkgs.missing files = []) ∧
      (t = files ∨ t = b.fetchList files) := by
  simp only [downloadPrepare] at h
  split at h
  case isTrue hq =>
    cases h
    rw [List.isEmpty_iff] at hq
    exact ⟨0, files, by rw [hq], fun _ => hq, .inl rfl⟩
  case isFalse =>
    split at h
    case isTrue =>
      split at h
      case h_1 =>
        cases h
        exact ⟨4, b.fetchList files, rfl, (absurd · (by decide)), .inr rfl⟩
      case h_2 => cases h
    case isFalse => cases h

theorem downloadPrepare_error {b : Prelude} {error : Err} {t : Files}
    (h : downloadPrepare dpkgs b files = .error (error, t)) :
    t = files ∨ t = b.fetchList files := by
  simp only [downloadPrepare] at h
  split at h
  case isTrue => cases h
  case isFalse =>
    split at h
    case isTrue =>
      split at h
      case h_1 => cases h
      case h_2 => cases h; exact .inr rfl
    case isFalse => cases h; exact .inl rfl

theorem Prelude.fetchList_name (b : Prelude) (ha : dpkgs.Apart) {pkg : Package}
    (hp : pkg ∈ dpkgs.entries) : b.fetchList files pkg.name = files pkg.name := by
  unfold Prelude.fetchList
  split
  case isTrue => exact Left.apply_of_ne (ha.list pkg hp)
  case isFalse => rfl

theorem nodup_of_table (dpkgs : Table) : dpkgs.entries.Nodup := List.Nodup.of_map _ dpkgs.nodup

theorem missing_nodup (dpkgs : Table) (files : Files) : (dpkgs.missing files).Nodup :=
  (nodup_of_table dpkgs).filter _

theorem mem_missing {pkg : Package} :
    pkg ∈ dpkgs.missing files ↔ pkg ∈ dpkgs.entries ∧ files pkg.name = none := by
  simp [Table.missing]

/-- The packages that have been there are left alone, and each other one is in its phase. -/
theorem download_pool (ha : dpkgs.Apart) {n : Nat} {t : Files} {mirrors : List Str}
    {es : List (Event FetchAnswer)} {p : Pool Package Fetching Err Files}
    (ht : ∀ pkg ∈ dpkgs.entries, t pkg.name = files pkg.name)
    (h : run (fetchWork mirrors).step (.start n (dpkgs.missing files) t) es = some p) :
    (∀ ph pkg, p.In ph pkg → Fetched ph pkg p.shared) ∧
      ∀ pkg ∈ dpkgs.entries, files pkg.name ≠ none → p.shared pkg.name = files pkg.name := by
  constructor
  · refine (fetchWork_keeps ha mirrors).run (missing_nodup dpkgs files) ?_ h
    intro pkg hp
    obtain ⟨hp, hnone⟩ := mem_missing.mp hp
    exact (ht pkg hp).trans hnone
  · intro pkg hp hsome
    refine run_shared (fun s => s pkg.name = files pkg.name) ?_ (ht pkg hp) h
    intro i hi k a s t after hnext hs
    obtain ⟨hi, hnone⟩ := mem_missing.mp hi
    refine (fetchNext_frame hnext ?_ (ha.tmp pkg hp i hi)).trans hs
    intro heq
    exact hsome (heq ▸ hnone)

theorem Fetched.origin {ph : Phase Fetching Err} {pkg : Package} (h : Fetched ph pkg files) :
    files pkg.name = none ∨ pkg.MovedIn files := by
  cases ph with
  | waiting => exact .inl h
  | «at» k =>
    cases k with
    | trying mirrors => exact .inl h
    | downloaded => exact .inl h.1
  | done => exact .inr h
  | failed error => exact h

theorem download_present (ha : dpkgs.Apart) {es : List (Call.Event Prelude FetchAnswer)}
    {c : Call (List Str) Package Fetching Err Files}
    (h : run (downloadDebs dpkgs).step (.entered files) es = some c) :
    (c.Returned → ∀ pkg ∈ dpkgs.entries, (c.shared pkg.name).isSome) ∧
      ∀ pkg ∈ dpkgs.entries, c.shared pkg.name = files pkg.name ∨ pkg.MovedIn c.shared := by
  have hname {b : Prelude} {t : Files} (ht : t = files ∨ t = b.fetchList files) :
      ∀ pkg ∈ dpkgs.entries, t pkg.name = files pkg.name := by
    intro pkg hp
    rcases ht with rfl | rfl
    · rfl
    · exact b.fetchList_name ha hp
  obtain rfl | ⟨b, error, t, hb, rfl⟩ | ⟨b, mirrors, p, q, es', hb, hrun, rfl⟩ := call_run h
  · exact ⟨fun hr => hr.elim, fun _ _ => .inl rfl⟩
  · exact ⟨fun hr => hr.elim, fun pkg hp => .inl (hname (downloadPrepare_error hb) pkg hp)⟩
  · obtain ⟨n, t, rfl, hn, ht⟩ := downloadPrepare_ok hb
    obtain ⟨hphase, hold⟩ := download_pool ha (hname ht) hrun
    constructor
    · intro hr pkg hp
      by_cases hnone : files pkg.name = none
      · have hdone := run_done hn hrun hr (mem_missing.mpr ⟨hp, hnone⟩)
        obtain ⟨mirror, hm⟩ := hphase .done pkg hdone
        exact Option.isSome_iff_exists.mpr ⟨_, hm⟩
      · rw [Call.shared, hold pkg hp hnone]
        exact Option.isSome_iff_ne_none.mpr hnone
    · intro pkg hp
      by_cases hnone : files pkg.name = none
      · obtain ⟨ph, hph⟩ := run_in hrun (mem_missing.mpr ⟨hp, hnone⟩)
        exact (hphase ph pkg hph).origin.imp_left fun h => h.trans hnone.symm
      · exact .inl (hold pkg hp hnone)

/-! ### What is run on a package -/

def Ran.pkg : Ran → Str
  | .sha256 pkg _ _ => pkg
  | .tar pkg _ => pkg

def history (pkg : Package) (log : List Ran) : List Ran := log.filter fun r => r.pkg = pkg.name

/-- The history of a package that has been passed to tar. -/
def tarred (pkg : Package) (success : Bool) : List Ran :=
  [.sha256 pkg.name pkg.sha256 true, .tar pkg.name success]

/-- The history of a package in each phase of its extraction. -/
def Extracted : Phase Extracting Err → Package → List Ran → Prop
  | .at .extracting, pkg, log => history pkg log = [.sha256 pkg.name pkg.sha256 true]
  | .done, pkg, log => history pkg log = tarred pkg true
  | .failed _, pkg, log =>
    history pkg log = [] ∨ (∃ value success, history pkg log = [.sha256 pkg.name value success]) ∨
      history pkg log = tarred pkg false
  | _, pkg, log => history pkg log = []

theorem history_concat_self {pkg : Package} {log : List Ran} {r : Ran} (h : r.pkg = pkg.name) :
    history pkg (log ++ [r]) = history pkg log ++ [r] := by
  simp [history, h]

theorem history_concat_of_ne {pkg : Package} {log : List Ran} {r : Ran} (h : r.pkg ≠ pkg.name) :
    history pkg (log ++ [r]) = history pkg log := by
  simp [history, h]

theorem Extracted.congr {ph : Phase Extracting Err} {pkg : Package} {s t : List Ran}
    (heq : history pkg t = history pkg s) (h : Extracted ph pkg s) : Extracted ph pkg t := by
  cases ph with
  | «at» k => cases k <;> simpa [Extracted, heq] using h
  | _ => simpa [Extracted, heq] using h

theorem extracted_own {pkg : Package} {k : Extracting} {a : ExtractAnswer} {s t : List Ran}
    {after : After Extracting Err} (hs : Extracted (.at k) pkg s)
    (h : extractNext pkg k a s = some (t, after)) : Extracted after.phase pkg t := by
  cases k with
  | summing =>
    have hnil : history pkg s = [] := hs
    cases a with
    | noSha256 => cases h; exact .inl hnil
    | sha256 output success =>
      have hone : history pkg (s ++ [.sha256 pkg.name (chomp output) success]) =
          [.sha256 pkg.name (chomp output) success] := by
        rw [history_concat_self rfl, hnil, List.nil_append]
      have hfail (error : Err) : Extracted (.failed error) pkg
          (s ++ [.sha256 pkg.name (chomp output) success]) := .inr (.inl ⟨_, _, hone⟩)
      cases h
      cases success with
      | false => exact hfail _
      | true =>
        by_cases hsum : chomp output = pkg.sha256
        · simpa [After.phase, Extracted, hsum] using hone
        · simpa [After.phase, hsum] using hfail (.wrongChecksum _ pkg.name pkg.sha256)
    | tar success => cases h
  | extracting =>
    have hone : history pkg s = [.sha256 pkg.name pkg.sha256 true] := hs
    cases a with
    | tar success =>
      have htar : history pkg (s ++ [.tar pkg.name success]) = tarred pkg success := by
        rw [history_concat_self rfl, hone]
        rfl
      cases h
      cases success with
      | true => exact htar
      | false => exact .inr (.inr htar)
    | _ => cases h

theorem extractNext_frame {pkg other : Package} {k : Extracting} {a : ExtractAnswer}
    {s t : List Ran} {after : After Extracting Err}
    (h : extractNext other k a s = some (t, after)) (hne : other.name ≠ pkg.name) :
    history pkg t = history pkg s := by
  cases k <;> cases a <;> cases h
  · rfl
  · exact history_concat_of_ne hne
  · exact history_concat_of_ne hne

theorem extractWork_keeps (dpkgs : Table) : extractWork.Keeps dpkgs.entries Extracted where
  first _ _ _ h := h
  own _ _ _ _ _ _ _ hs h := extracted_own hs h
  others _ hi _ hj hij _ _ _ _ _ h _ :=
    Extracted.congr (extractNext_frame h fun heq => hij (name_inj hi hj heq))

/-- What has gone to tar has gone there once, after the checksum of the table. -/
theorem Extracted.of_tar {ph : Phase Extracting Err} {pkg : Package} {log : List Ran}
    {success : Bool} (h : Extracted ph pkg log) (htar : .tar pkg.name success ∈ log) :
    history pkg log = tarred pkg success := by
  have hmem : .tar pkg.name success ∈ history pkg log := by simp [history, htar, Ran.pkg]
  have hnil : history pkg log ≠ [] := List.ne_nil_of_mem hmem
  have hsha (value : Str) (b : Bool) : history pkg log ≠ [.sha256 pkg.name value b] := by
    intro heq
    simp [heq] at hmem
  have hend (b : Bool) (heq : history pkg log = tarred pkg b) :
      history pkg log = tarred pkg success := by
    rw [heq] at hmem ⊢
    have : success = b := by simpa [tarred] using hmem
    rw [this]
  cases ph with
  | waiting => exact (hnil h).elim
  | «at» k =>
    cases k with
    | summing => exact (hnil h).elim
    | extracting => exact (hsha _ _ h).elim
  | done => exact hend true h
  | failed error =>
    obtain h | ⟨value, b, h⟩ | h := h
    · exact (hnil h).elim
    · exact (hsha _ _ h).elim
    · exact hend false h

theorem extractPrepare_ok {ncpu : Option Int} {log : List Ran} {u : Unit}
    {p : Pool Package Extracting Err (List Ran)}
    (h : extractPrepare dpkgs ncpu log = .ok (u, p)) :
    ∃ n, n ≠ 0 ∧ p = .start n dpkgs.entries log := by
  cases ncpu with
  | none => cases h
  | some ncpu =>
    cases h
    refine ⟨threads ncpu, ?_, rfl⟩
    unfold threads
    omega

theorem extractPrepare_error {ncpu : Option Int} {log t : List Ran} {error : Err}
    (h : extractPrepare dpkgs ncpu log = .error (error, t)) : t = log := by
  cases ncpu with
  | none => cases h; rfl
  | some ncpu => cases h

theorem extract_histories {es : List (Call.Event (Option Int) ExtractAnswer)}
    {c : Call Unit Package Extracting Err (List Ran)}
    (h : run (extractDebs dpkgs).step (.entered []) es = some c) :
    (c.Returned → ∀ pkg ∈ dpkgs.entries, history pkg c.shared = tarred pkg true) ∧
      ∀ pkg ∈ dpkgs.entries, ∀ success, .tar pkg.name success ∈ c.shared →
        history pkg c.shared = tarred pkg success := by
  obtain rfl | ⟨b, error, t, hb, rfl⟩ | ⟨b, u, p, q, es', hb, hrun, rfl⟩ := call_run h
  · exact ⟨fun hr => hr.elim, fun _ _ _ htar => by cases htar⟩
  · obtain rfl := extractPrepare_error hb
    exact ⟨fun hr => hr.elim, fun _ _ _ htar => by cases htar⟩
  · obtain ⟨n, hn, rfl⟩ := extractPrepare_ok hb
    have h0 : ∀ pkg ∈ dpkgs.entries, Extracted .waiting pkg [] := fun _ _ => rfl
    have hphase := (extractWork_keeps dpkgs).run (nodup_of_table dpkgs) h0 hrun
    constructor
    · intro hr pkg hp
      exact hphase .done pkg (run_done (absurd · hn) hrun hr hp)
    · intro pkg hp success htar
      obtain ⟨ph, hph⟩ := run_in hrun hp
      exact (hphase ph pkg hph).of_tar htar

/-! ### Failures -/

def Fetching.cost : Fetching → Nat
  | .trying mirrors => mirrors.length + 1
  | .downloaded => 0

theorem fetchWork_ends (mirrors : List Str) : (fetchWork mirrors).Ends fun _ => Fetching.cost where
  falls _ k a _ _ _ h := by
    cases k with
    | trying mirrors =>
      cases mirrors with
      | nil => cases a <;> cases h
      | cons mirror mirrors => cases a <;> cases h <;> simp [Fetching.cost]
    | downloaded =>
      cases a with
      | moved =>
        obtain ⟨file, -, heq⟩ := Option.map_eq_some_iff.mp h
        cases heq
      | notMoved copied =>
        simp only [fetchWork, fetchNext] at h
        split at h <;> cases h
      | _ => cases h
  answers _ k s := by
    cases k with
    | trying mirrors =>
      cases mirrors with
      | nil => exact ⟨.noMirror, rfl⟩
      | cons mirror mirrors => exact ⟨.fetched, rfl⟩
    | downloaded => exact ⟨.notMoved false, rfl⟩

def Extracting.cost : Extracting → Nat
  | .summing => 1
  | .extracting => 0

theorem extractWork_ends : extractWork.Ends fun _ => Extracting.cost where
  falls pkg k a s t k' h := by
    cases k with
    | summing =>
      cases a with
      | noSha256 => cases h
      | sha256 output success =>
        cases k' with
        | summing =>
          simp only [extractWork, extractNext] at h
          grind
        | extracting => exact Nat.zero_lt_one
      | tar success => cases h
    | extracting =>
      cases a with
      | tar success => cases success <;> cases h
      | _ => cases h
  answers _ k _ := by
    cases k with
    | summing => exact ⟨.noSha256, rfl⟩
    | extracting => exact ⟨.tar true, rfl⟩

theorem download_raises {es : List (Call.Event Prelude FetchAnswer)}
    {c : Call (List Str) Package Fetching Err Files}
    (h : run (downloadDebs dpkgs).step (.entered files) es = some c) (hf : c.Failed) :
    (downloadDebs dpkgs).Raises c := by
  refine Method.raises (fun b s mirrors p hb => ?_) fetchWork_ends h hf
  obtain ⟨n, t, rfl, hn, -⟩ := downloadPrepare_ok hb
  exact start_orderly hn

theorem extract_raises {es : List (Call.Event (Option Int) ExtractAnswer)} {log : List Ran}
    {c : Call Unit Package Extracting Err (List Ran)}
    (h : run (extractDebs dpkgs).step (.entered log) es = some c) (hf : c.Failed) :
    (extractDebs dpkgs).Raises c := by
  refine Method.raises (fun b s u p hb => ?_) (fun _ => extractWork_ends) h hf
  obtain ⟨n, hn, rfl⟩ := extractPrepare_ok hb
  exact start_orderly (absurd · hn)

/-! ### The calls -/

/-- With names that are apart, download_debs returns with every package there, and each that has
not been there is a fetched file moved to its name. extract_debs returns with every package
extracted once, and tar is given no package with another checksum than that of the table. A call
with a failed package raises. -/
theorem debs_complete (dpkgs : Table) :
    (dpkgs.Apart → ∀ files es c, run (downloadDebs dpkgs).step (.entered files) es = some c →
      (c.Returned → ∀ pkg ∈ dpkgs.entries, (c.shared pkg.name).isSome) ∧
        ∀ pkg ∈ dpkgs.entries, c.shared pkg.name = files pkg.name ∨
          ∃ mirror, c.shared pkg.name = some (.moved (.fetched (pkg.url mirror) true))) ∧
    (∀ es c, run (extractDebs dpkgs).step (.entered []) es = some c →
      (c.Returned → ∀ pkg ∈ dpkgs.entries, history pkg c.shared = tarred pkg true) ∧
        (∀ pkg ∈ dpkgs.entries, ∀ success, .tar pkg.name success ∈ c.shared →
          history pkg c.shared = tarred pkg success) ∧
        ∀ pkg ∈ dpkgs.entries, ∀ value computed success,
          .sha256 pkg.name value computed ∈ c.shared → value ≠ pkg.sha256 →
            .tar pkg.name success ∉ c.shared) ∧
    (∀ files es c, run (downloadDebs dpkgs).step (.entered files) es = some c → c.Failed →
      (downloadDebs dpkgs).Raises c) ∧
    ∀ es c, run (extractDebs dpkgs).step (.entered []) es = some c → c.Failed →
      (extractDebs dpkgs).Raises c := by
  refine ⟨fun ha files es c h => download_present ha h, fun es c h => ?_,
    fun files es c h hf => download_raises h hf, fun es c h hf => extract_raises h hf⟩
  obtain ⟨hret, htar⟩ := extract_histories h
  refine ⟨hret, htar, fun pkg hp value computed success hsha hne hmem => hne ?_⟩
  have hin : .sha256 pkg.name value computed ∈ history pkg c.shared := by
    simp [history, hsha, Ran.pkg]
  rw [htar pkg hp success hmem] at hin
  have hboth : value = pkg.sha256 ∧ computed = true := by simpa [tarred] using hin
  exact hboth.1

/-- Two packages of .dpkgs.rb. -/
def ffiAndDrm : Table where
  entries :=
    [⟨"libffi8_3.4.2-4_amd64.deb".toList, "pool/main/libf/libffi".toList,
        "b4f88c91fa6f4c942097be6abfc365fb133c5e147640168cbb7704fd855eac10".toList⟩,
      ⟨"libdrm-common_2.4.113-2~ubuntu0.22.04.1_all.deb".toList, "pool/main/libd/libdrm".toList,
        "35a306712d8b15b30c42ecd73ec087813eb01c0b3125dc8f7ca2b5134e133522".toList⟩]
  nodup := by decide +kernel

/-- The workers find the queue empty, and they are joined. -/
def allEnd {β α : Type} (n : Nat) : List (Call.Event β α) :=
  (List.range n).map (fun w => .pool (.deq w)) ++ List.replicate n (.pool .join)

/-- One fetch fails at the first mirror. -/
def fetchBoth : List (Call.Event Prelude FetchAnswer) :=
  [.prepare ⟨true, false, .nothing, none, true⟩, .pool (.deq 0), .pool (.deq 1),
    .pool (.answer 0 (.failed .written)), .pool (.answer 1 .fetched), .pool (.answer 0 .fetched),
    .pool (.answer 1 .moved), .pool (.answer 0 .moved)] ++ allEnd 4

/-- No mirror has the package. -/
def fetchNone : List (Call.Event Prelude FetchAnswer) :=
  [.prepare ⟨true, false, .nothing, none, false⟩, .pool (.deq 2),
    .pool (.answer 2 (.failed .nothing)), .pool (.answer 2 (.failed .asBefore)),
    .pool (.answer 2 .noMirror)]

def output (pkg : Package) : Str := pkg.sha256 ++ ['\n']

def extractBoth : List (Call.Event (Option Int) ExtractAnswer) :=
  [.prepare (some 2), .pool (.deq 1), .pool (.deq 0)] ++
    (ffiAndDrm.entries.zip [1, 0]).map
      (fun (pkg, w) => .pool (.answer w (.sha256 (output pkg) true))) ++
    [.pool (.answer 0 (.tar true)), .pool (.answer 1 (.tar true))] ++ allEnd 2

/-- The checksum of another file. -/
def extractOther : List (Call.Event (Option Int) ExtractAnswer) :=
  [.prepare (some 0), .pool (.deq 0), .pool (.answer 0 (.sha256 "e3b0c442".toList true))]

theorem debs_complete_two :
    (∃ c, run (downloadDebs ffiAndDrm).step (.entered fun _ => none) fetchBoth = some c ∧
      c.Returned ∧ ∀ pkg ∈ ffiAndDrm.entries, (c.shared pkg.name).isSome) ∧
    (∃ c, run (extractDebs ffiAndDrm).step (.entered []) extractBoth = some c ∧ c.Returned ∧
      ∀ pkg ∈ ffiAndDrm.entries, history pkg c.shared = tarred pkg true) ∧
    (∃ c, run (downloadDebs ffiAndDrm).step (.entered fun _ => none) fetchNone = some c ∧
      c.Failed ∧ (downloadDebs ffiAndDrm).Raises c) ∧
    ∃ c, run (extractDebs ffiAndDrm).step (.entered []) extractOther = some c ∧
      c.Failed ∧ (extractDebs ffiAndDrm).Raises c := by
  obtain ⟨hdownload, hextract, hfetchFails, hextractFails⟩ := debs_complete ffiAndDrm
  have hapart : ffiAndDrm.Apart := apart_of_deb (by decide +kernel)
  refine ⟨?_, ?_, ?_, ?_⟩
  · have hrun : ∃ c, run (downloadDebs ffiAndDrm).step (.entered fun _ => none) fetchBoth = some c ∧
      c.Returned := run_reaches (by decide +kernel)
    obtain ⟨c, hc, hr⟩ := hrun
    exact ⟨c, hc, hr, (hdownload hapart _ _ c hc).1 hr⟩
  · have hrun : ∃ c, run (extractDebs ffiAndDrm).step (.entered []) extractBoth = some c ∧
      c.Returned := run_reaches (by decide +kernel)
    obtain ⟨c, hc, hr⟩ := hrun
    exact ⟨c, hc, hr, (hextract _ c hc).1 hr⟩
  · have hrun : ∃ c, run (downloadDebs ffiAndDrm).step (.entered fun _ => none) fetchNone = some c ∧
      c.Failed := run_reaches (by decide +kernel)
    obtain ⟨c, hc, hf⟩ := hrun
    exact ⟨c, hc, hf, hfetchFails _ _ c hc hf⟩
  · have hrun : ∃ c, run (extractDebs ffiAndDrm).step (.entered []) extractOther = some c ∧
      c.Failed := run_reaches (by decide +kernel)
    obtain ⟨c, hc, hf⟩ := hrun
    exact ⟨c, hc, hf, hextractFails _ c hc hf⟩

/-- A package with the name under which another is fetched. -/
def xAndTmp : Table where
  entries := [⟨"x".toList, "pool".toList, []⟩, ⟨"x.tmp".toList, "pool".toList, []⟩]
  nodup := by decide +kernel

/-- The file x.tmp has its name from the worker of x.tmp, and the worker of x takes it away. -/
def fetchClash : List (Call.Event Prelude FetchAnswer) :=
  [.prepare ⟨true, false, .nothing, none, false⟩, .pool (.deq 0), .pool (.deq 1),
    .pool (.answer 0 .fetched), .pool (.answer 1 .fetched), .pool (.answer 1 .moved),
    .pool (.answer 0 .moved)] ++ allEnd 4

theorem moved_away :
    ¬ ∀ (dpkgs : Table) (files : Files) es c,
      run (downloadDebs dpkgs).step (.entered files) es = some c → c.Returned →
        ∀ pkg ∈ dpkgs.entries, (c.shared pkg.name).isSome := by
  intro h
  have hrun : ∃ c, run (downloadDebs xAndTmp).step (.entered fun _ => none) fetchClash = some c ∧
    c.Returned ∧ c.shared "x.tmp".toList = none := run_reaches (by decide +kernel)
  obtain ⟨c, hc, hret, hnone⟩ := hrun
  have hsome := h xAndTmp _ _ c hc hret ⟨"x.tmp".toList, "pool".toList, []⟩ (by decide +kernel)
  rw [hnone] at hsome
  cases hsome

end LSU.Debs
