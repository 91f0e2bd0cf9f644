import Mathlib.Data.Char
import Mathlib.Data.List.DropRight
import Mathlib.Data.List.Lex
import Mathlib.Data.List.Sort
import LSU.Program

/-! mount and try_mount of .utils.rb, and the functions of lsu-mount-runtime that mount user
directories. What they ask the system for are the questions of a program. -/
namespace LSU.Mounts
open LSU.Program LSU.Program.Script

abbrev Str := List Char

/-- An entry of `mount --libxo json`. -/
structure MountInfo where
  node : Str
  fstype : Str
deriving DecidableEq

inductive Errno where
  | acces | rofs | other
deriving DecidableEq

/-- `statement` stands for a statement of the set-up that mounts nothing. -/
inductive Op where
  | exist (path : Str)
  | isFile (path : Str)
  | touch (path : Str)
  | mkdirP (path : Str)
  | mountCmd (fs : String) (src dst : Str) (options : Option String)
  | realpath (path : Str)
  | allMounts
  | statement (what : String)
deriving DecidableEq

/-- An error of touch and mkdir_p, a path or nil where realpath raises, the table or nil where
it can not be read, and else whether it is so or has worked. -/
@[reducible] def Op.Answer : Op → Type
  | .exist _ => Bool
  | .isFile _ => Bool
  | .touch _ => Option Errno
  | .mkdirP _ => Option Errno
  | .mountCmd .. => Bool
  | .realpath _ => Option Str
  | .allMounts => Option (List MountInfo)
  | .statement _ => Bool

inductive Err where
  | mountError
  | other
deriving DecidableEq

/-- The variables of lsu-mount-runtime: `mounts`, the `mounts` of mirror_mounts while it runs,
and `$get_all_mounts`. -/
structure Vars where
  mounts : List Str
  mirrored : List Str
  allMounts : Option (List MountInfo)

abbrev Ruby (α : Type) := Script Op.Answer Vars Err α

def exist (path : Str) : Ruby Bool := ask (Op.exist path)
def isFile (path : Str) : Ruby Bool := ask (Op.isFile path)
def touch (path : Str) : Ruby (Option Errno) := ask (Op.touch path)
def mkdirP (path : Str) : Ruby (Option Errno) := ask (Op.mkdirP path)
def mountCmd (fs : String) (src dst : Str) (options : Option String) : Ruby Bool :=
  ask (Op.mountCmd fs src dst options)
def realpath (path : Str) : Ruby (Option Str) := ask (Op.realpath path)
def mountTable : Ruby (Option (List MountInfo)) := ask Op.allMounts

/-- File.join -/
def fileJoin (a b : Str) : Str :=
  if b.head? = some '/' then a.rdropWhile (· = '/') ++ b
  else if a.getLast? = some '/' then a ++ b
  else a ++ '/' :: b

def mountPointName : Str := ".mountpoint".toList

/-- `fs == 'nullfs' && File.file?(from)` -/
def mountsFile (fs : String) (src : Str) : Ruby Bool :=
  if fs = "nullfs" then isFile src else pure false

/-- The first statement of mount, which keeps to itself the errors it rescues. -/
def makeMountPoint (fs : String) (src dst : Str) : Ruby (Option Errno) := do
  match ← exist dst with
  | true => pure none
  | false =>
    match ← mountsFile fs src with
    | true => touch dst
    | false =>
      match ← mkdirP dst with
      | none => touch (fileJoin dst mountPointName)
      | some errno => pure (some errno)

/-- File.realpath, which raises where a component can not be looked up. -/
def fileRealpath (path : Str) : Ruby Str := do
  match ← realpath path with
  | some resolved => pure resolved
  | none => raise .other

/-- `system(*cmd) || raise(..)`, and the path that mount returns. -/
def runMount (fs : String) (src dst : Str) (options : Option String) : Ruby Str := do
  match ← mountCmd fs src dst options with
  | true => fileRealpath dst
  | false => raise .mountError

def mount (fs : String) (src dst : Str) (options : Option String) : Ruby Str := do
  match ← makeMountPoint fs src dst with
  | some .other => raise .other
  | _ => runMount fs src dst options

def tryMount (fs : String) (src dst : Str) (options : Option String) : Ruby (Option Str) := do
  match ← attempt (mount fs src dst options) with
  | .ok path => pure (some path)
  | .error .mountError => pure none
  | .error e => raise e

/-- What stands behind each `^`. -/
def lineTails (s : Str) : List Str := s :: s.tails.filterMap fun
  | '\n' :: rest => some rest
  | _ => none

/-- `$` -/
def lineEnd (s : Str) : Bool := s.isEmpty || s.head? = some '\n'

def homePrefixes : List Str := ["/home/".toList, "/usr/home/".toList]

/-- HIER_HOME_PATH -/
def hierHomePath (path : Str) : Bool :=
  (lineTails path).any fun tail => homePrefixes.any fun home =>
    home.isPrefixOf tail && (tail.drop home.length).head?.any (· ≠ '/')

def reservedNames : List Str :=
  ["app", "bin", "boot", "compat", "dev", "etc", "lib32", "lib64", "libexec", "lib", "proc",
    "rescue", "root", "run", "sbin", "sys", "tmp", "usr", "var", "zroot"].map String.toList

/-- RESERVED_PATHS -/
def reservedPaths (path : Str) : Bool :=
  (lineTails path).any fun
    | '/' :: rest => lineEnd rest || reservedNames.any fun name =>
        name.isPrefixOf rest &&
          (lineEnd (rest.drop name.length) || (rest.drop name.length).head? = some '/')
    | _ => false

def usrHome : Str := "/usr/home/".toList

/-- `gsub(/^\/usr\/home\//, '/home/')` -/
def rehome (path : Str) : Str :=
  ['\n'].intercalate ((path.splitOn '\n').map fun line =>
    if usrHome.isPrefixOf line then "/home/".toList ++ line.drop usrHome.length else line)

def tryMountUserDir (mroot path : Str) : Ruby (Option Str) := do
  if path.head? = some '/' then
    let path ← fileRealpath path
    if hierHomePath path || !reservedPaths path then
      tryMount "nullfs" path (fileJoin mroot (rehome path)) (some "nocover")
    else
      pure none
  else
    pure none

def getAllMounts : Ruby (List MountInfo) := do
  match (← vars).allMounts with
  | some table => pure table
  | none =>
    match ← mountTable with
    | some table =>
      modify fun v => { v with allMounts := some table }
      pure table
    | none => raise .other

def skippedFstypes : List Str :=
  ["devfs", "fdescfs", "tmpfs", "linprocfs", "procfs", "linsysfs"].map String.toList

/-- `/^(dev|fdesc|tmp|(lin|)proc|linsys)fs$/` -/
def skippedFstype (fstype : Str) : Bool :=
  (fstype.splitOn '\n').any fun line => skippedFstypes.contains line

/-- The loop of mirror_mounts from a value of `node_to_skip` on. -/
def mirrorLoop (mroot : Str) : List MountInfo → Option Str → Ruby Unit
  | [], _ => pure ()
  | m :: rest, nodeToSkip =>
    if nodeToSkip.any (·.isPrefixOf m.node) = true then
      mirrorLoop mroot rest nodeToSkip
    else if skippedFstype m.fstype = true then
      mirrorLoop mroot rest (some m.node)
    else do
      match ← tryMountUserDir mroot m.node with
      | some path =>
        modify fun v => { v with mirrored := v.mirrored ++ [path] }
        mirrorLoop mroot rest none
      | none => mirrorLoop mroot rest (some m.node)

def sourceMounts (table : List MountInfo) (dir : Str) : List MountInfo :=
  (table.filter fun m => (fileJoin dir ['/']).isPrefixOf m.node).insertionSort
    fun m m' => m.node ≤ m'.node

/-- The list is a local variable: it goes with a return and with an exception. -/
def mirrorMounts (mroot dir : Str) : Ruby (List Str) := do
  let table ← getAllMounts
  mirrorLoop mroot (sourceMounts table dir) none
  let v ← vars
  modify fun v => { v with mirrored := [] }
  pure v.mirrored

end LSU.Mounts
