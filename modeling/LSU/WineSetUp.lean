import LSU.FileJobs
import LSU.Mounts

/-! set_up of the FreeBSD Wine tool, one file-system operation at a time, in LSU_TMPDIR_PATH
behind init_tmp_dir. A run can be stopped before every operation; the next run starts again and
skips what exists. -/
namespace LSU.WineSetUp
open LSU.Resume LSU.Resume.Job LSU.FileTree LSU.FileJobs LSU.Mounts

abbrev Name := Str
abbrev Path := List Name
abbrev Mode := BitVec 12

/-- KNOWN_VERSIONS -/
inductive Version where
  | v9 | v10 | v11
deriving DecidableEq

def Version.text : Version → Str
  | .v9 => "9.0".toList
  | .v10 => "10.0".toList
  | .v11 => "11.0".toList

/-- `PROTON_VERSION.to_i` -/
def Version.toI : Version → Nat
  | .v9 => 9
  | .v10 => 10
  | .v11 => 11

inductive SetupState where
  | proton | steamrt | symlinks | manifest | done
deriving DecidableEq

/-- `$setup_steps` and `$setup_state` -/
structure SetupVars where
  steps : List SetupState
  state : Option SetupState

/-- none where it raises. -/
def setSetupState (v : SetupVars) (state : SetupState) : Option SetupVars :=
  if some state ≠ v.state then
    if state ∉ v.steps then some ⟨v.steps ++ [state], some state⟩ else none
  else some v

abbrev Files := Tree Name Char Mode Str

/-- The calls of set_setup_state are notes: it never raises in set_up. -/
abbrev SetUp := Job Files SetupState

/-- What set_up finds installed: PROTON_DIR with its files and what the patterns of `paths` give
in its directory `files`, the names in the directories of wine-proton, what is at the other ends
of the links, and what patch-dt_init.rb leaves, if it works. -/
structure Installed where
  version : Version
  protonDir : Str
  source : Name → Option (Str × Mode)
  globbed : List Path
  i386PkgRoot : Str
  i386Windows : List Name
  x8664Windows : List Name
  bin : Name → Bool
  binWow64 : Name → Bool
  outside : Outside Name Str
  umask : Mode
  patched : Option (Node Char Mode Str)

/-- `gsub` of a text, not within the next characters. -/
def gsub (pat rep : Str) : Nat → Str → Str
  | _, [] => []
  | n + 1, _ :: s => gsub pat rep n s
  | 0, c :: s =>
    if pat.isPrefixOf (c :: s) then rep ++ gsub pat rep (pat.length - 1) s
    else c :: gsub pat rep 0 s

/-- nil where there is nothing to replace. -/
def gsub! (pat rep s : Str) : Option Str :=
  if s.tails.any (pat.isPrefixOf ·) then some (gsub pat rep 0 s) else none

def freeBSDProton : Path := ["FreeBSD_Proton".toList]

variable (i : Installed)

namespace Installed

/-- The directory `proton_<version>`. -/
def proton : Path := freeBSDProton ++ ["proton_".toList ++ i.version.text]

def inProton (name : String) : Path := i.proton ++ [name.toList]

def filesTmp : Path := i.inProton "files.tmp"

/-- What becomes of the script. -/
def hijack (str : Str) : Option Str := do
  let str ← gsub! ", stderr=self.log_file, stdout=self.log_file".toList [] str
  let str ← gsub! "ld_path_var = \"LD_LIBRARY_PATH\"".toList
    "ld_path_var = \"__LD_LIBRARY_PATH\"".toList str
  let str ← gsub! "= find_nvidia_wine_dll_dir()".toList "= None".toList str
  if 10 < i.version.toI then
    gsub! "g_proton.host_pe_arch == \"x86_64-windows\"".toList "False".toList str
  else some str

/-- FileUtils.cp of a file in PROTON_DIR. -/
def cp (name : Name) (target : Path) : SetUp :=
  match i.source name with
  | some (text, mode) => writeFile target (mode &&& ~~~i.umask) text
  | none => raise

def chdir (dir : Path) : SetUp := require fun t => t.directory i.outside dir

def copiedFiles : List Name :=
  ["filelock.py", "user_settings.sample.py", "LICENSE", "LICENSE.OFL", "proton_3.7_tracked_files",
    "version"].map String.toList

def setUpCopy (name : Name) : SetUp :=
  setUpFile i.outside (i.proton ++ [name])
    (seq (note .proton) (i.cp name (i.proton ++ [name])))

def readText (t : Files) (p : Path) : Option Str :=
  match t.node p with
  | some (.file text _) => some text
  | _ => none

def chmod (p : Path) (mode : Mode) : SetUp := op (edit p fun text _ => (text, mode))

/-- The script is written first, and gets its mode then. -/
def writeProton (str : Str) : SetUp :=
  seq (writeFile (i.inProton "proton") (0o666 &&& ~~~i.umask) str)
    (chmod (i.inProton "proton") 0o700)

def hijackProton : SetUp :=
  read fun t => match (readText t (i.inProton "proton.bak")).bind i.hijack with
    | some str => i.writeProton str
    | none => raise

def setUpProton : SetUp :=
  setUpFile i.outside (i.inProton "proton") <|
    seq (note .proton) <|
    seq (i.cp "proton".toList (i.inProton "proton.bak")) i.hijackProton

/-- `paths` -/
def paths : List Path :=
  i.globbed ++ if 10 < i.version.toI then
    [["share".toList, "openxr".toList, "wineopenxr64.json".toList]] else []

/-- A path in the directory `files` of PROTON_DIR. -/
def protonFile (path : Path) : Str := (path.foldl fileJoin (fileJoin i.protonDir "files".toList))

/-- The patterns match no directory of the tool's own, so that a link is made in the tree. -/
def linkPath (path : Path) : SetUp :=
  guarded (fun t => t.exist i.outside (i.filesTmp ++ path)) <|
    seq (mkdirP i.outside i.proton ("files.tmp".toList :: path).dropLast)
      (op (place (i.filesTmp ++ path) (.link (i.protonFile path))))

/-- `ln -s`, with the name of the file. -/
def ln (dir : Path) (source : Str) (name : Name) : SetUp :=
  op (place (dir ++ [name]) (.link (fileJoin source name)))

def linkMissing (dir : Path) (source : Str) (names : List Name) : SetUp :=
  seq (i.chdir dir) <|
    each names fun name =>
      guarded (fun t => t.exist i.outside (dir ++ [name]))
        (seq (note .symlinks) (ln dir source name))

def fillBin (name : Name) (source : Str) (names : List Name) : SetUp :=
  seq (note .symlinks) <|
  seq (mkdirP i.outside i.proton ["files.tmp".toList, name]) <|
  seq (i.chdir (i.filesTmp ++ [name])) (each names (ln (i.filesTmp ++ [name]) source))

def setUpBin (name : Name) (source : Str) (names : List Name) : SetUp :=
  setUpFile i.outside (i.filesTmp ++ [name]) (i.fillBin name source names)

def wineProton : Str := "/usr/local/wine-proton".toList

/-- `bin/{msidb,wine,wine64,wineserver}` -/
def binNames : List Name :=
  (["msidb", "wine", "wine64", "wineserver"].map String.toList).filter i.bin

/-- `bin-wow64/{msidb,wine,wineserver}` -/
def binWow64Names : List Name :=
  (["msidb", "wine", "wineserver"].map String.toList).filter i.binWow64

def i386Dir : Path :=
  i.filesTmp ++ ["lib".toList, "wine".toList, "i386-windows".toList]

def x8664Dir : Path :=
  i.filesTmp ++ [if i.version.toI < 10 then "lib64".toList else "lib".toList, "wine".toList,
    "x86_64-windows".toList]

/-- `if PROTON_VERSION.to_i == 10` -/
def setUpBinWow64 : SetUp :=
  if i.version.toI = 10 then
    i.setUpBin "bin-wow64".toList (fileJoin wineProton "bin-wow64".toList) i.binWow64Names
  else skip

/-- files.tmp, up to the mv. -/
def fillFiles : SetUp :=
  seq (mkdirP i.outside i.proton ["files.tmp".toList]) <|
  seq (each i.paths i.linkPath) <|
  seq (i.linkMissing i.i386Dir
    (fileJoin i.i386PkgRoot "usr/local/wine-proton/lib/wine/i386-windows".toList)
    i.i386Windows) <|
  seq (i.linkMissing i.x8664Dir (fileJoin wineProton "lib/wine/x86_64-windows".toList)
    i.x8664Windows) <|
  seq (i.setUpBin "bin".toList (fileJoin wineProton "bin".toList) i.binNames)
    i.setUpBinWow64

def setUpFiles : SetUp :=
  setUpFile i.outside (i.inProton "files") <|
    seq (note .proton) <|
    seq i.fillFiles (op (rename i.proton "files.tmp".toList "files".toList))

def steamclientPatched : Path := ["steamclient.so.patched".toList]

/-- patch-dt_init.rb is another program, here one operation. -/
def patchDtInit : SetUp :=
  op fun t => i.patched.bind fun node => place steamclientPatched node t

def setUpSteamclient : SetUp := setUpFile i.outside steamclientPatched i.patchDtInit

def setUp : SetUp :=
  seq (setUpFile i.outside freeBSDProton (mkdirP i.outside [] freeBSDProton)) <|
  seq (i.chdir freeBSDProton) <|
  seq (setUpFile i.outside i.proton
    (mkdirP i.outside freeBSDProton ["proton_".toList ++ i.version.text])) <|
  seq (i.chdir i.proton) <|
  seq (each copiedFiles i.setUpCopy) <|
  seq i.setUpProton <|
  seq i.setUpFiles <|
  seq i.setUpSteamclient (note .done)

end Installed
end LSU.WineSetUp
