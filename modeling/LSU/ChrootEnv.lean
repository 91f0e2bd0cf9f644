import LSU.Mounts
import LSU.RubyString
import LSU.SwapEnv

/-! The environment on its way from bin/steam to Steam, from Steam through a compatibility
tool or lsu-webhelper-chroot and lsu-run-in-chroot into a chroot, and back to the FreeBSD
programs that the wrappers of lxbin start, in any nesting. -/
namespace LSU.ChrootEnv
open LSU.Run LSU.SwapEnv

/-- `ENV[name] = value`, one after the other; nil takes the variable away. -/
def assign (vars : List (String × Option String)) (env : Env) : Env :=
  vars.foldl (fun env v => Function.update env v.1 v.2) env

/-- `ENV[name] ||= value` -/
def assignMissing (name value : String) (env : Env) : Env :=
  match env name with
  | some _ => env
  | none => setenv env name value

/-- `[..].compact.join(':')`. A list within the list is joined, also when it is empty. -/
def joinPath (parts : List (Option String)) : String := ":".intercalate parts.reduceOption

def nested (parts : List String) : Option String := some (":".intercalate parts)

def fakeLibs : List (Option String) :=
  ["/usr/steam-utils/lib32/fakepulse", "/usr/steam-utils/lib64/fakepulse",
    "/usr/steam-utils/lib32/fakeudev", "/usr/steam-utils/lib64/fakeudev",
    "/usr/steam-utils/lib32", "/usr/steam-utils/lib64"].map some

def runtimeLibs : List (Option String) :=
  ["/lib/i386-linux-gnu", "/lib/x86_64-linux-gnu", "/lib/x86_64-linux-gnu/nss"].map some

/-- What the scripts find: the directories of Proton and of its library, whether the glibc of
the runtime is an old one and whether everything else they need works; and how many arguments
are left for the program in the chroot. -/
structure Outside where
  steamapp : Option (String × String)
  oldGlibc : Bool
  ready : Bool
  args : Nat

/-- tools/LSU_Sniper_chroot/run.rb -/
def sniper (env : Env) : Env :=
  assign [("LSU_LINUX_LD_LIBRARY_PATH",
      some (joinPath (fakeLibs ++ runtimeLibs ++ [env "STEAM_COMPAT_INSTALL_PATH"]))),
    ("LSU_LINUX_PATH", some "/bin"), ("STEAM_COMPAT_TOOL_PATHS", none)] env

/-- `path =~ /\/steam-runtime\/(?!pinned_libs_(32|64)\/?)/` -/
def steamRuntimeLib (path : List Char) : Bool :=
  path.tails.any fun tail => "/steam-runtime/".toList.isPrefixOf tail &&
    ["pinned_libs_32", "pinned_libs_64"].all fun pinned =>
      !pinned.toList.isPrefixOf (tail.drop "/steam-runtime/".length)

/-- tools/LSU_Scout_chroot/run.rb -/
def scout (env : Env) : Option Env :=
  -- split raises on nil
  (env "LSU_LINUX_LD_LIBRARY_PATH").map fun path =>
    let steamRuntimeLibs := (RubyString.split path.toList ':').filter steamRuntimeLib
    assign [("LSU_LINUX_LD_LIBRARY_PATH",
        some (joinPath (fakeLibs ++ ["/usr/steam-runtime/pinned_libs_32",
          "/usr/steam-runtime/pinned_libs_64"].map some ++ runtimeLibs ++
          [nested (steamRuntimeLibs.map String.ofList), env "STEAM_COMPAT_INSTALL_PATH"]))),
      ("LSU_LINUX_PATH", some "/bin"), ("STEAM_COMPAT_TOOL_PATHS", none)] env

/-- The run.rb of a Proton, with the switches it sets. -/
def proton (switches : List String) (steamapp : Option (String × String)) (env : Env) :
    Option Env :=
  steamapp.map fun (protonPath, libPath) =>
    let steamapps := String.ofList (Mounts.fileJoin libPath.toList "steamapps".toList)
    assign ([("LSU_LINUX_LD_PRELOAD",
          some (joinPath [some "protonfix.so", env "LSU_LINUX_LD_PRELOAD"])),
        ("LSU_LINUX_LD_LIBRARY_PATH", some (joinPath (fakeLibs ++ runtimeLibs))),
        ("LSU_LINUX_PATH", some "/bin")] ++ switches.map (·, some "1") ++
      [("STEAM_COMPAT_LIBRARY_PATHS", some (":".intercalate
          ([some steamapps, env "STEAM_COMPAT_LIBRARY_PATHS"].reduceOption).eraseDups)),
        ("STEAM_COMPAT_TOOL_PATHS", some protonPath)]) env

def proton8 : Option (String × String) → Env → Option Env :=
  proton ["PROTON_NO_ESYNC", "PROTON_NO_FSYNC"]

def proton11 : Option (String × String) → Env → Option Env := proton ["PROTON_NO_FSYNC"]

/-- lxbin/lsu-webhelper-chroot.rb -/
def webhelper (env : Env) : Env :=
  assign [("LSU_LINUX_LD_LIBRARY_PATH", some (joinPath (["/usr/steam-utils/lib64/fakepulse",
      "/usr/steam-utils/lib64/fakeudev", "/usr/steam-utils/lib64", "/lib/x86_64-linux-gnu",
      "/lib/x86_64-linux-gnu/nss"].map some))),
    ("LSU_LINUX_PATH", some "/bin")] env

/-- What lsu-run-in-chroot makes of the environment. -/
def runInChroot (oldGlibc : Bool) (env : Env) : Env :=
  let env := env
    |> assignMissing "LSU_LINUX_LD_LIBRARY_PATH"
        "/lib/i386-linux-gnu:/lib/x86_64-linux-gnu:/lib/x86_64-linux-gnu/nss"
    |> assignMissing "LSU_LINUX_PATH" "/bin:/usr/bin"
    |> assignMissing "LSU_LINUX_LIBGL_DRIVERS_PATH"
        "/lib/i386-linux-gnu/dri:/lib/x86_64-linux-gnu/dri"
  if oldGlibc then
    assign [("LSU_LINUX_LD_LIBRARY_PATH", some (joinPath [some "/usr/steam-utils/lib32",
        some "/usr/steam-utils/lib64", env "LSU_LINUX_LD_LIBRARY_PATH"])),
      ("LSU_LINUX_LD_PRELOAD",
        some (joinPath [some "shmfix.so", env "LSU_LINUX_LD_PRELOAD"]))] env
  else
    env

inductive Tool where
  | sniper | scout | proton8 | proton11 | webhelper
deriving DecidableEq

def Tool.script (tool : Tool) (o : Outside) (env : Env) : Option Env :=
  match tool with
  | .sniper => some (ChrootEnv.sniper env)
  | .scout => ChrootEnv.scout env
  | .proton8 => ChrootEnv.proton8 o.steamapp env
  | .proton11 => ChrootEnv.proton11 o.steamapp env
  | .webhelper => some (ChrootEnv.webhelper env)

/-- What a Linux program that starts a tool gives to the program in the chroot: run.sh crosses
to FreeBSD, the script execs lsu-run-in-chroot, and that lsu-freebsd-to-linux-env in the
chroot. `argc` counts the arguments of lsu-linux-to-freebsd-env. -/
def launch (tool : Tool) (o : Outside) (argc : Nat) (env : Env) : Option Env := do
  let env ← main .linux argc env
  let env ← tool.script o env
  if o.ready then main .fbsd (6 + o.args) (runInChroot o.oldGlibc env) else none

/-- The texts that bin/steam makes of the directories it finds. -/
structure SteamPaths where
  clientLibraryPath : String
  gamesLibraryPath : String
  binPath : String
  cookie : String
  gamepads : String
  tools : String
  runtimeRoot : String
  bwrapStub : String

/-- The environment bin/steam gives to lsu-freebsd-to-linux-env. -/
def steam (p : SteamPaths) (env : Env) : Env :=
  assignMissing "PRESSURE_VESSEL_BWRAP" p.bwrapStub (assign [("ALSOFT_DRIVERS", some "oss"),
    ("LSU_COOKIE", some p.cookie), ("LSU_LINUX_LD_LIBRARY_PATH", some p.clientLibraryPath),
    ("LSU_LINUX_LD_PRELOAD",
      some (joinPath [some "steamfix.so", some "libSegFault.so", env "STEAM_LD_PRELOAD"])),
    ("LSU_LINUX_PATH", some p.binPath), ("SDL_AUDIODRIVER", some "alsa"),
    ("SDL_AUDIO_DRIVER", some "alsa"),
    ("SDL_JOYSTICK_DEVICE", some (joinPath [some p.gamepads, env "SDL_JOYSTICK_DEVICE"])),
    ("STEAM_ENABLE_SHADER_CACHE_MANAGEMENT", some "0"),
    ("STEAM_EXTRA_COMPAT_TOOLS_PATHS",
      some (joinPath [some p.tools, env "STEAM_EXTRA_COMPAT_TOOLS_PATHS"])),
    ("STEAM_RUNTIME", some p.runtimeRoot), ("STEAM_RUNTIME_LIBRARY_PATH", some p.gamesLibraryPath),
    ("STEAM_ZENITY", some "zenity"), ("SYSTEM_LD_LIBRARY_PATH", some p.gamesLibraryPath),
    ("SYSTEM_PATH", some p.binPath)] env)

/-! What becomes of the environment. -/

/-- The names a script writes. -/
def Tool.sets : Tool → List String
  | .sniper | .scout =>
    ["LSU_LINUX_LD_LIBRARY_PATH", "LSU_LINUX_PATH", "STEAM_COMPAT_TOOL_PATHS"]
  | .proton8 =>
    ["LSU_LINUX_LD_PRELOAD", "LSU_LINUX_LD_LIBRARY_PATH", "LSU_LINUX_PATH", "PROTON_NO_ESYNC",
      "PROTON_NO_FSYNC", "STEAM_COMPAT_LIBRARY_PATHS", "STEAM_COMPAT_TOOL_PATHS"]
  | .proton11 =>
    ["LSU_LINUX_LD_PRELOAD", "LSU_LINUX_LD_LIBRARY_PATH", "LSU_LINUX_PATH", "PROTON_NO_FSYNC",
      "STEAM_COMPAT_LIBRARY_PATHS", "STEAM_COMPAT_TOOL_PATHS"]
  | .webhelper => ["LSU_LINUX_LD_LIBRARY_PATH", "LSU_LINUX_PATH"]

theorem assign_frame {vars : List (String × Option String)} {name : String} (env : Env)
    (h : name ∉ vars.map Prod.fst) : assign vars env name = env name := by
  induction vars generalizing env with
  | nil => rfl
  | cons v vars ih =>
    simp only [List.map_cons, List.mem_cons, not_or] at h
    rw [assign, List.foldl_cons, ← assign, ih _ h.2, Function.update_of_ne h.1]

theorem assignMissing_frame {name name' value : String} (env : Env) (h : name' ≠ name) :
    assignMissing name value env name' = env name' := by
  rw [assignMissing]
  cases env name with
  | none => exact Function.update_of_ne h _ _
  | some old => rfl

theorem script_frame {tool : Tool} {o : Outside} {env got : Env}
    (h : tool.script o env = some got) {name : String} (hname : name ∉ tool.sets) :
    got name = env name := by
  cases tool with
  | sniper | webhelper =>
    obtain rfl := Option.some.inj h
    exact assign_frame env hname
  | scout =>
    obtain ⟨path, _, rfl⟩ := Option.map_eq_some_iff.mp h
    exact assign_frame env hname
  | proton8 | proton11 =>
    obtain ⟨found, _, rfl⟩ := Option.map_eq_some_iff.mp h
    exact assign_frame env hname

/-- The scripts leave alone what belongs to the FreeBSD side, on this side and on the other. -/
theorem fbsd_not_mem_sets (tool : Tool) (v : Var) :
    v.target ∉ tool.sets ∧ Side.fbsd.saveVar v ∉ tool.sets := by
  cases tool <;> cases v <;> decide

theorem runInChroot_frame {oldGlibc : Bool} (env : Env) {name : String}
    (h : ∀ v, name ≠ Side.linux.saveVar v) : runInChroot oldGlibc env name = env name := by
  have hlib : name ≠ "LSU_LINUX_LD_LIBRARY_PATH" := h .ldLibraryPath
  have hpreload : name ≠ "LSU_LINUX_LD_PRELOAD" := h .ldPreload
  have hlibgl : name ≠ "LSU_LINUX_LIBGL_DRIVERS_PATH" := h .libglDriversPath
  have hpath : name ≠ "LSU_LINUX_PATH" := h .path
  have hmissing : ∀ value, assignMissing "LSU_LINUX_LIBGL_DRIVERS_PATH" value
      (assignMissing "LSU_LINUX_PATH" "/bin:/usr/bin" (assignMissing "LSU_LINUX_LD_LIBRARY_PATH"
        "/lib/i386-linux-gnu:/lib/x86_64-linux-gnu:/lib/x86_64-linux-gnu/nss" env)) name =
      env name := by
    intro value
    rw [assignMissing_frame _ hlibgl, assignMissing_frame _ hpath, assignMissing_frame _ hlib]
  rw [runInChroot]
  cases oldGlibc with
  | false => exact hmissing _
  | true =>
    refine (assign_frame _ ?_).trans (hmissing _)
    simp [hlib, hpreload]

theorem launch_cases {tool : Tool} {o : Outside} {argc : Nat} {env got : Env}
    (h : launch tool o argc env = some got) :
    ∃ fbsd found, main .linux argc env = some fbsd ∧ tool.script o fbsd = some found ∧
      main .fbsd (6 + o.args) (runInChroot o.oldGlibc found) = some got := by
  simp only [launch, Option.bind_eq_bind, Option.bind_eq_some_iff] at h
  obtain ⟨fbsd, hfbsd, found, hfound, hready⟩ := h
  split at hready
  · exact ⟨fbsd, found, hfbsd, hfound, hready⟩
  · cases hready

theorem launch_saved {tool : Tool} {o : Outside} {argc : Nat} {env got : Env}
    (h : launch tool o argc env = some got) (v : Var) :
    got (Side.fbsd.saveVar v) = env (Side.fbsd.saveVar v) := by
  obtain ⟨fbsd, found, hcross, hscript, hback⟩ := launch_cases h
  have hnames := fbsd_not_mem_sets tool v
  calc
    got (Side.fbsd.saveVar v) = runInChroot o.oldGlibc found v.target :=
      main_nameOn hback .fbsd v
    _ = found v.target := runInChroot_frame found fun w => (Side.saveVar_ne_target _ w v).symm
    _ = fbsd v.target := script_frame hscript hnames.1
    _ = env (Side.fbsd.saveVar v) := main_nameOn hcross .fbsd v

theorem launch_frame {tool : Tool} {o : Outside} {argc : Nat} {env got : Env}
    (h : launch tool o argc env = some got) {name : String} (ht : ∀ v : Var, name ≠ v.target)
    (hs : name ∉ saveVars) (htool : name ∉ tool.sets) : got name = env name := by
  obtain ⟨fbsd, found, hcross, hscript, hback⟩ := launch_cases h
  have hlinux : ∀ v, name ≠ Side.linux.saveVar v := fun v he => hs (he ▸ saveVar_mem _ v)
  have hfbsd : ∀ v, name ≠ Side.fbsd.saveVar v := fun v he => hs (he ▸ saveVar_mem _ v)
  rw [main_frame hback ht hfbsd, runInChroot_frame found hlinux, script_frame hscript htool,
    main_frame hcross ht hlinux]

/-- A Linux program changes its environment, or starts a tool. -/
inductive Event where
  | edit (name : String) (value : Option String)
  | launch (tool : Tool) (o : Outside) (argc : Nat)

/-- Down the process tree, from a Linux program to the next. -/
def step (env : Env) : Event → Option Env
  | .edit name value => some (Function.update env name value)
  | .launch tool o argc => launch tool o argc env

def Event.writes : Event → String → Prop
  | .edit name _, n => n = name
  | .launch tool _ _, n => (∃ v : Var, n = v.target) ∨ n ∈ saveVars ∨ n ∈ tool.sets

/-- A program can write what lsu-freebsd-to-linux-env has saved; a launch does not. -/
theorem step_saved {env got : Env} {e : Event} {v : Var} (h : step env e = some got)
    (he : ∀ value, e ≠ .edit (Side.fbsd.saveVar v) value) :
    got (Side.fbsd.saveVar v) = env (Side.fbsd.saveVar v) := by
  cases e with
  | edit name value =>
    obtain rfl := Option.some.inj h
    exact Function.update_of_ne (fun hname => he value (by rw [hname])) _ _
  | launch tool o argc => exact launch_saved h v

theorem step_frame {env got : Env} {e : Event} (h : step env e = some got) {name : String}
    (hname : ¬ e.writes name) : got name = env name := by
  cases e with
  | edit n value =>
    obtain rfl := Option.some.inj h
    exact Function.update_of_ne hname _ _
  | launch tool o argc =>
    simp only [Event.writes, not_or, not_exists] at hname
    exact launch_frame h hname.1 hname.2.1 hname.2.2

theorem run_saved {env got : Env} {es : List Event} {v : Var} (h : run step env es = some got)
    (hes : ∀ value, .edit (Side.fbsd.saveVar v) value ∉ es) :
    got (Side.fbsd.saveVar v) = env (Side.fbsd.saveVar v) := by
  induction es generalizing env with
  | nil =>
    obtain rfl : env = got := by simpa using h
    rfl
  | cons e es ih =>
    obtain ⟨r, hr, hrun⟩ := run_cons.mp h
    rw [ih hrun fun value he => hes value (List.mem_cons_of_mem _ he),
      step_saved hr fun value he => hes value (he ▸ List.mem_cons_self)]

theorem run_frame {env got : Env} {es : List Event} (h : run step env es = some got)
    {name : String} (hname : ∀ e ∈ es, ¬ e.writes name) : got name = env name := by
  induction es generalizing env with
  | nil =>
    obtain rfl : env = got := by simpa using h
    rfl
  | cons e es ih =>
    obtain ⟨r, hr, hrun⟩ := run_cons.mp h
    rw [ih hrun fun e he => hname e (List.mem_cons_of_mem _ he),
      step_frame hr (hname e List.mem_cons_self)]

def steamSets : List String :=
  ["PRESSURE_VESSEL_BWRAP", "ALSOFT_DRIVERS", "LSU_COOKIE", "LSU_LINUX_LD_LIBRARY_PATH",
    "LSU_LINUX_LD_PRELOAD", "LSU_LINUX_PATH", "SDL_AUDIODRIVER", "SDL_AUDIO_DRIVER",
    "SDL_JOYSTICK_DEVICE", "STEAM_ENABLE_SHADER_CACHE_MANAGEMENT",
    "STEAM_EXTRA_COMPAT_TOOLS_PATHS", "STEAM_RUNTIME", "STEAM_RUNTIME_LIBRARY_PATH",
    "STEAM_ZENITY", "SYSTEM_LD_LIBRARY_PATH", "SYSTEM_PATH"]

theorem steam_frame (p : SteamPaths) (env : Env) {name : String} (h : name ∉ steamSets) :
    steam p env name = env name := by
  simp only [steamSets, List.mem_cons, not_or] at h
  rw [steam, assignMissing_frame _ h.1, assign_frame]
  simpa using h.2

/-- Whatever tools are started in each other and whatever the Linux programs on the way do to
their environment, a wrapper of lxbin gives a FreeBSD program each of the four variables as
bin/steam was started with it, if none on the way has written the LSU_FBSD variable it is saved
in; and a program in a chroot has the cookie of the session, if none on the way has written
that. -/
theorem session_environment (p : SteamPaths) (env0 start env : Env) (argc : Nat)
    (es : List Event) (hstart : main .fbsd argc (steam p env0) = some start)
    (hrun : run step start es = some env) :
    (∀ v : Var, (∀ value, .edit (Side.fbsd.saveVar v) value ∉ es) →
      ∀ argc' fbsd, main .linux argc' env = some fbsd → fbsd v.target = env0 v.target) ∧
    ((∀ e ∈ es, ¬ e.writes "LSU_COOKIE") → env "LSU_COOKIE" = some p.cookie) := by
  refine ⟨fun v hv argc' fbsd hwrap => ?_, fun hes => ?_⟩
  · calc
      fbsd v.target = env (Side.fbsd.saveVar v) := main_nameOn hwrap .fbsd v
      _ = start (Side.fbsd.saveVar v) := run_saved hrun hv
      _ = steam p env0 v.target := main_nameOn hstart .fbsd v
      _ = env0 v.target := steam_frame p env0 (by cases v <;> decide)
  · have hcookie : steam p env0 "LSU_COOKIE" = some p.cookie := by
      rw [steam, assignMissing_frame _ (by decide)]
      simp [assign]
    rw [run_frame hrun hes, main_frame hstart (fun v => by cases v <;> decide)
      (fun v => by cases v <;> decide), hcookie]

/-- A game in the runtime, started by a Proton that was started by Steam, opens a page. -/
theorem session_environment_nested :
    ∃ start env, main .fbsd 2 (steam ⟨"l", "g", "b", "c", "j", "t", "r", "s"⟩ fun name =>
        if name = "PATH" then some "/usr/bin" else none) = some start ∧
      run step start [.edit "LD_PRELOAD" (some "gameoverlayrenderer.so"),
        .launch .proton11 ⟨some ("/lib/Proton 11.0", "/lib"), false, true, 2⟩ 3,
        .launch .sniper ⟨none, false, true, 1⟩ 3] = some env ∧
      env "LSU_COOKIE" = some "c" := by
  refine ⟨_, _, rfl, rfl, ?_⟩
  refine (session_environment ⟨"l", "g", "b", "c", "j", "t", "r", "s"⟩ (fun name =>
    if name = "PATH" then some "/usr/bin" else none) _ _ 2 [.edit "LD_PRELOAD"
      (some "gameoverlayrenderer.so"),
      .launch .proton11 ⟨some ("/lib/Proton 11.0", "/lib"), false, true, 2⟩ 3,
      .launch .sniper ⟨none, false, true, 1⟩ 3] rfl rfl).2 ?_
  intro e he
  simp only [List.mem_cons, List.not_mem_nil, or_false] at he
  rcases he with rfl | rfl | rfl
  · simp [Event.writes]
  · have hborder : ∀ v : Var, "LSU_COOKIE" ≠ v.target := fun v => by cases v <;> decide
    simp [Event.writes, hborder, saveVars, Var.all, Side.saveVar, Tool.sets]
  · have hborder : ∀ v : Var, "LSU_COOKIE" ≠ v.target := fun v => by cases v <;> decide
    simp [Event.writes, hborder, saveVars, Var.all, Side.saveVar, Tool.sets]

end LSU.ChrootEnv
