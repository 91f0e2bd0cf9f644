import LSU.MountRecord

/-! lsu-mount-runtime from the mount of the tmpfs on: the set-up of the chroot, what its rescue
branch unmounts, and the last mounts before the end. The set-up is a list of commands. Runs of
statements that mount nothing are one command; where they loop over files they may fail at any
of them. -/
namespace LSU.MountRuntime
open LSU.Program LSU.Program.Script LSU.Mounts

/-- The environment of a process and what it finds on the disk. `nvidiaLibs` are the matches in
a library directory, `compatMounts` the parts of STEAM_COMPAT_MOUNTS. -/
structure Env where
  mroot : Str
  mesaLibs : String
  emulPath : Str
  lsuDir : Str
  home : Str
  compatMounts : List Str
  nvidiaLibs : Str → List Str
  installPath : Option Str
  dataPath : Option Str
  libraryPaths : List Str
  toolPaths : List Str

inductive Cmd where
  | statement (what : String)
  | invalid
  | mount (fs : String) (src dst : Str) (options : Option String)
  | home
  | compat (dir : Str)

def Env.root (env : Env) (path : String) : Str := fileJoin env.mroot path.toList
def Env.emul (env : Env) (path : String) : Str := fileJoin env.emulPath path.toList

def Env.libDirs (env : Env) : List (Str × Str) :=
  [(env.emul "usr/lib64", env.root "usr/lib/x86_64-linux-gnu"),
    (env.emul "usr/lib", env.root "usr/lib/i386-linux-gnu")]

/-- `case LSU_MESA_LIBS` -/
def mesaCmds (env : Env) : List Cmd :=
  if env.mesaLibs = "ubuntu" then
    [.statement "extract_debs i386", .statement "extract_debs amd64", .statement "mv libs"]
  else if env.mesaLibs = "base" then
    [.statement "ln_s ld-linux-x86-64.so.2", .statement "ln_s ld-linux.so.2",
      .statement "max_symbol_version GLIBC", .statement "max_symbol_version GLIBCXX"] ++
    (env.libDirs.flatMap fun (source, dest) =>
      [.mount "nullfs" (fileJoin source "dri".toList) (fileJoin dest "dri".toList) none,
        .mount "nullfs" (fileJoin source "gbm".toList) (fileJoin dest "gbm".toList) none,
        .statement "cp files_to_copy"]) ++
    [.statement "cp drirc.d", .statement "write icd.d"]
  else if env.mesaLibs = "none" then
    []
  else
    [.invalid]

def nvidiaCmds (env : Env) : List Cmd :=
  env.libDirs.flatMap fun (source, dest) =>
    if env.nvidiaLibs source = [] then
      []
    else
      .mount "nullfs" source (fileJoin dest ".nvidia".toList) none ::
        (env.nvidiaLibs source).map fun _ => .statement "ln_s .nvidia"

/-- The begin block. -/
def setUpCmds (env : Env) : List Cmd :=
  [.statement "mkdir_p usr", .statement "zgrep | tar | tar", .statement "chmod -R u+rwX",
    .statement "mv usr/etc etc"] ++
  mesaCmds env ++
  [.statement "ln_s bin lib lib64 sbin run",
    .mount "linprocfs" "linprocfs".toList (env.root "proc") none,
    .mount "nullfs" "/tmp".toList (env.root "tmp") none,
    .mount "nullfs" "/var/run".toList (env.root "var/run") none,
    .mount "linsysfs" "linsysfs".toList (env.root "sys/.sys") none,
    .statement "drm workaround",
    .mount "devfs" "devfs".toList (env.root "dev/.dev") none,
    .mount "fdescfs" "fdescfs".toList (env.root "dev/fd") (some "linrdlnk"),
    .mount "nullfs" (env.emul "dev/shm") (env.root "dev/shm") none,
    .statement "ln_s .dev", .statement "cp etc",
    .mount "nullfs" env.lsuDir (env.root "/usr/steam-utils") none] ++
  nvidiaCmds env ++
  [.statement "copy_if_exists nvidia_icds",
    .mount "nullfs" "/usr/local/share/icons".toList (env.root "usr/share/icons") (some "union"),
    .mount "nullfs" "/usr/local/share/fonts".toList (env.root "usr/share/fonts") (some "union"),
    .statement "alsa", .statement "copy_if_exists diagnostic utilities",
    .home, .statement "ln_s usr/home"] ++
  env.compatMounts.map .compat

def statement (what : String) : Ruby Bool := ask (Op.statement what)

/-- `mounts << path` -/
def push (path : Str) : Ruby Unit := modify fun v => { v with mounts := v.mounts ++ [path] }

/-- `mounts.concat(mirror_mounts(mroot, dir))` -/
def concatMirrored (mroot dir : Str) : Ruby Unit := do
  let paths ← mirrorMounts mroot dir
  modify fun v => { v with mounts := v.mounts ++ paths }

/-- A user directory and the mounts below it. -/
def mountWithMirrored (mroot dir : Str) : Ruby Bool := do
  match ← tryMountUserDir mroot dir with
  | some path =>
    push path
    concatMirrored mroot dir
    pure true
  | none => pure false

def exec (env : Env) : Cmd → Ruby Unit
  | .statement what => do
    match ← statement what with
    | true => pure ()
    | false => raise .other
  | .invalid => raise .other
  | .mount fs src dst options => do
    let path ← mount fs src dst options
    push path
  | .home => do
    let homeDir ← fileRealpath env.home
    if hierHomePath homeDir = true then
      match ← mountWithMirrored env.mroot homeDir with
      | true => pure ()
      | false => raise .other
    else
      raise .other
  | .compat dir => do
    let _ ← mountWithMirrored env.mroot dir
    pure ()

def setUp (env : Env) : Ruby Unit := (setUpCmds env).forM (exec env)

/-- try_mount of the tmpfs, and `mounts << mroot`. -/
def mountRoot (env : Env) : Ruby Bool := do
  match ← tryMount "tmpfs" "tmpfs".toList env.mroot (some "nocover") with
  | some _ =>
    push env.mroot
    pure true
  | none => pure false

def noVars : Vars := ⟨[], [], none⟩

/-- What the rescue branch unmounts, in order. -/
def unmounts (v : Vars) : List Str := v.mounts.reverse

def lastDitchDirs (env : Env) : List Str :=
  (env.installPath.toList ++ env.dataPath.toList ++ env.libraryPaths ++
    env.toolPaths).insertionSort (· ≤ ·)

def reachDir (mroot dir : Str) : Ruby Unit := do
  let _ ← tryMountUserDir mroot dir
  let _ ← mirrorMounts mroot dir
  pure ()

/-- The mounts after the set-up and instead of it. -/
def lastDitch (env : Env) : Ruby Unit :=
  (lastDitchDirs env).forM fun dir => do
    match ← exist (fileJoin env.mroot dir) with
    | false => reachDir env.mroot dir
    | true =>
      match ← exist (fileJoin (fileJoin env.mroot dir) mountPointName) with
      | true => reachDir env.mroot dir
      | false => pure ()

section Record
variable {canonical : Str → Str}

theorem triple_push (path : Str) {E : Err → Vars → List (Turn Op.Answer) → Prop} :
    Triple (Recorded canonical [] [path]) (push path) (fun _ => Recorded canonical [] []) E := by
  refine .modify _ fun v hist h => ⟨h.1, h.2.1, fun hfaith => ?_⟩
  simpa using h.2.2 hfaith

variable (hcanon : ∀ path, canonical (canonical path) = canonical path)
include hcanon

theorem triple_concatMirrored (mroot dir : Str) :
    Triple (Recorded canonical [] []) (concatMirrored mroot dir)
      (fun _ => Recorded canonical [] []) (fun _ => Lost canonical) := by
  refine .bind (triple_mirrorMounts hcanon mroot dir) fun paths => ?_
  refine .modify _ fun v hist h => ⟨h.1, h.2.1, fun hfaith => ?_⟩
  simpa using h.2.2 hfaith

theorem triple_mountWithMirrored (mroot dir : Str) :
    Triple (Recorded canonical [] []) (mountWithMirrored mroot dir)
      (fun _ => Recorded canonical [] []) (fun _ => Lost canonical) := by
  refine .bind (triple_tryMountUserDir hcanon mroot dir) fun out => ?_
  cases out with
  | none => exact .pure _ fun _ _ h => h
  | some path =>
    refine .bind (triple_push path) fun _ => ?_
    exact .bind (triple_concatMirrored hcanon mroot dir) fun _ => .pure _ fun _ _ h => h

/-- A command records all mounts it makes, or loses some with an exception. -/
theorem triple_exec (env : Env) (cmd : Cmd) :
    Triple (Recorded canonical [] []) (exec env cmd) (fun _ => Recorded canonical [] [])
      (fun _ => Lost canonical) := by
  cases cmd with
  | statement what =>
    refine .bind (triple_ask_rests fun _ => rfl) fun worked => ?_
    cases worked with
    | true => exact .pure _ fun _ _ h => h
    | false => exact .raise _ fun _ _ h => h.lost
  | invalid => exact .raise _ fun _ _ h => h.lost
  | mount fs src dst options =>
    have hmount : Triple (Recorded canonical [] []) (Mounts.mount fs src dst options)
        (fun path => Recorded canonical [] [path]) (fun _ => Lost canonical) :=
      (triple_mount hcanon fs src dst options).conseq (fun _ _ h => h) (fun _ _ _ h => h.1)
        fun _ _ _ h => h.lost
    exact .bind hmount fun path => triple_push path
  | home =>
    refine .bind (triple_fileRealpath env.home) fun homeDir => ?_
    split
    · refine .bind (triple_mountWithMirrored hcanon env.mroot homeDir) fun mounted => ?_
      cases mounted with
      | true => exact .pure _ fun _ _ h => h
      | false => exact .raise _ fun _ _ h => h.lost
    · exact .raise _ fun _ _ h => h.lost
  | compat dir =>
    exact .bind (triple_mountWithMirrored hcanon env.mroot dir) fun _ => .pure _ fun _ _ h => h

theorem triple_setUp (env : Env) :
    Triple (Recorded canonical [] []) (setUp env) (fun _ => Recorded canonical [] [])
      (fun _ => Lost canonical) :=
  .forM _ fun cmd _ => triple_exec hcanon env cmd

theorem triple_mountRoot (env : Env) :
    Triple (Recorded canonical [] []) (mountRoot env) (fun _ => Recorded canonical [] [])
      (fun _ => Lost canonical) := by
  refine .bind (triple_tryMount hcanon _ _ env.mroot _) fun out => ?_
  cases out with
  | none => exact .pure _ fun _ _ h => h
  | some path =>
    have hroot : Triple (Mounted canonical [] env.mroot path) (push env.mroot)
        (fun _ => Recorded canonical [] []) (fun _ => Lost canonical) := by
      refine .modify _ fun v hist h => ⟨h.1.1, h.1.2.1, fun hfaith => ?_⟩
      have hmade := h.1.2.2 hfaith
      rw [h.2 hfaith] at hmade
      simpa [hcanon] using hmade
    exact .bind hroot fun _ => .pure _ fun _ _ h => h

theorem recorded_mountRoot {env : Env} {hist : List (Turn Op.Answer)} {v : Vars} {mounted : Bool}
    (h : Ends (mountRoot env) noVars hist (.ok mounted) v) : Recorded canonical [] [] v hist :=
  triple_mountRoot hcanon env _ _ (recorded_start canonical) hist (.ok mounted) v h

end Record

/-- A runtime on the libraries it brings along, without an NVIDIA driver. -/
def plainEnv : Env where
  mroot := "/tmp/steam/SteamLinuxRuntime_sniper".toList
  mesaLibs := "none"
  emulPath := "/compat/linux".toList
  lsuDir := "/opt/steam-utils".toList
  home := "/home/user".toList
  compatMounts := []
  nvidiaLibs := fun _ => []
  installPath := none
  dataPath := none
  libraryPaths := []
  toolPaths := []

/-- A system on which everything works, but for some statements and some paths to resolve. -/
def plainWorld (table : List MountInfo) (works : String → Bool) (resolves : Str → Bool) :
    ∀ op, Op.Answer op
  | .exist _ => true
  | .isFile _ => false
  | .touch _ => none
  | .mkdirP _ => none
  | .mountCmd .. => true
  | .realpath path => if resolves path then some path else none
  | .allMounts => some table
  | .statement what => works what

theorem faithful_play {α : Type} {table : List MountInfo} {works : String → Bool}
    {resolves : Str → Bool} {n : Nat} {p : Prog Op.Answer α} :
    Faithful id (p.play (plainWorld table works resolves) n).1 := by
  intro path resolved h
  have hturn := eq_of_heq (Sigma.mk.inj (mem_play h)).2
  simp only [plainWorld] at hturn
  split at hturn
  · exact Option.some.inj hturn
  · exact absurd hturn (by simp)

/-- What a script asks a system and gets from it. -/
def turns {α : Type} (world : ∀ op, Op.Answer op) (c : Ruby α) (v : Vars) : List (Turn Op.Answer) :=
  ((c v).play world 100).1

end LSU.MountRuntime
