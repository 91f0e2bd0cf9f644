import Mathlib.Data.List.ReduceOption
import LSU.ChrootEnv
import LSU.LibraryFolders
import LSU.MountRuntime

/-! The search for an installed tool in the library folders, and how the directories a tool
needs come to be seen in its chroot. -/
namespace LSU.Reach
open LSU.Program LSU.Program.Script LSU.Mounts LSU.MountRuntime LSU.ChrootEnv
open LSU.Json (Value)
open LSU.LibraryFolders (findSteamLibraryFolders document libraryfoldersKey pathKey)

/-! The last mounts of lsu-mount-runtime. -/

/-- How the loop has dealt with a directory: it was in the chroot, and not as an empty mount
point; or it can not be there, by its path; or its mount was tried, whether that worked or
not. -/
inductive Dealt (mroot dir : Str) (hist : List (Turn Op.Answer)) : Prop
  | there (h : ⟨.exist (fileJoin mroot dir), true⟩ ∈ hist)
      (hpoint : ⟨.exist (fileJoin (fileJoin mroot dir) mountPointName), false⟩ ∈ hist)
  | relative (h : dir.head? ≠ some '/')
  | reserved (path : Str) (h : ⟨.realpath dir, some path⟩ ∈ hist)
      (hno : hierHomePath path = false ∧ reservedPaths path = true)
  | mounted (path : Str) (works : Bool) (h : ⟨.realpath dir, some path⟩ ∈ hist)
      (hcmd :
        ⟨.mountCmd "nullfs" path (fileJoin mroot (rehome path)) (some "nocover"), works⟩ ∈ hist)

theorem Dealt.mono {mroot dir : Str} {hist : List (Turn Op.Answer)} (tr : List (Turn Op.Answer))
    (h : Dealt mroot dir hist) : Dealt mroot dir (hist ++ tr) := by
  cases h with
  | there h hpoint => exact .there (List.mem_append_left tr h) (List.mem_append_left tr hpoint)
  | relative h => exact .relative h
  | reserved path h hno => exact .reserved path (List.mem_append_left tr h) hno
  | mounted path works h hcmd =>
    exact .mounted path works (List.mem_append_left tr h) (List.mem_append_left tr hcmd)

/-- A mount command has been run, with whatever success. -/
def Tried (fs : String) (src dst : Str) (options : Option String)
    (hist : List (Turn Op.Answer)) : Prop :=
  ∃ works : Bool, ⟨.mountCmd fs src dst options, works⟩ ∈ hist

/-- What later turns do not take back is kept by every script. -/
theorem triple_keep {α : Type} {H : List (Turn Op.Answer) → Prop}
    (hmono : ∀ hist tr, H hist → H (hist ++ tr)) (c : Ruby α) :
    Triple (fun _ => H) c (fun _ _ => H) fun _ _ => H := by
  intro v hist h tr r w _
  cases r with
  | ok a => exact hmono hist tr h
  | error e => exact hmono hist tr h

/-- Where try_mount comes to its end it has run its command. -/
theorem triple_tryMount_tried {H : List (Turn Op.Answer) → Prop}
    (hmono : ∀ hist tr, H hist → H (hist ++ tr)) (fs : String) (src dst : Str)
    (options : Option String) :
    Triple (fun _ => H) (tryMount fs src dst options)
      (fun _ _ hist => H hist ∧ Tried fs src dst options hist) (fun _ _ _ => True) := by
  have hboth : ∀ hist tr, H hist ∧ Tried fs src dst options hist →
      H (hist ++ tr) ∧ Tried fs src dst options (hist ++ tr) := by
    rintro hist tr ⟨h, works, hmem⟩
    exact ⟨hmono hist tr h, works, List.mem_append_left tr hmem⟩
  have hrun : Triple (fun _ => H) (runMount fs src dst options)
      (fun _ _ hist => H hist ∧ Tried fs src dst options hist)
      (fun _ _ hist => H hist ∧ Tried fs src dst options hist) := by
    have hask : Triple (fun (_ : Vars) => H) (ask (Op.mountCmd fs src dst options))
        (fun _ _ hist => H hist ∧ Tried fs src dst options hist)
        (fun (_ : Err) _ hist => H hist ∧ Tried fs src dst options hist) :=
      .ask _ fun works v hist h => ⟨hmono hist _ h, works, by simp⟩
    refine .bind hask fun works => ?_
    cases works with
    | true => exact triple_keep hboth (fileRealpath dst)
    | false => exact .raise _ fun _ _ h => h
  have hmount : Triple (fun _ => H) (Mounts.mount fs src dst options)
      (fun _ _ hist => H hist ∧ Tried fs src dst options hist)
      (fun e _ hist => e = .other ∨ H hist ∧ Tried fs src dst options hist) := by
    have hrun' : Triple (fun _ => H) (runMount fs src dst options)
        (fun _ _ hist => H hist ∧ Tried fs src dst options hist)
        (fun e _ hist => e = .other ∨ H hist ∧ Tried fs src dst options hist) :=
      hrun.conseq (fun _ _ h => h) (fun _ _ _ h => h) fun _ _ _ h => Or.inr h
    have hpoint : Triple (fun _ => H) (makeMountPoint fs src dst) (fun _ _ => H)
        (fun e _ hist => e = .other ∨ H hist ∧ Tried fs src dst options hist) :=
      triple_makeMountPoint (fun h _ => hmono _ _ h) fs src dst
    refine .bind hpoint fun errno => ?_
    split
    · exact .raise _ fun _ _ _ => Or.inl rfl
    · exact hrun'
  refine .bind (.attempt (S := fun out _ hist => out = .error .other ∨
    H hist ∧ Tried fs src dst options hist) (hmount.conseq (fun _ _ h => h)
      (fun _ _ _ h => Or.inr h) fun _ _ _ h => h.imp_left (congrArg Except.error))) fun out => ?_
  cases out with
  | ok path => exact .pure _ fun _ _ h => h.resolve_left nofun
  | error e =>
    cases e with
    | mountError => exact .pure _ fun _ _ h => h.resolve_left (by simp)
    | other => exact .raise _ fun _ _ _ => trivial

/-- try_mount_user_dir deals with its directory. -/
theorem triple_tryMountUserDir_dealt (mroot dir : Str) :
    Triple (fun _ _ => True) (tryMountUserDir mroot dir)
      (fun _ _ hist => Dealt mroot dir hist) (fun _ _ _ => True) := by
  unfold tryMountUserDir
  split
  · have hpath : Triple (fun _ _ => True) (fileRealpath dir)
        (fun path _ hist => ⟨.realpath dir, some path⟩ ∈ hist)
        (fun (_ : Err) _ _ => True) := by
      refine .bind (Q := fun out _ hist => ⟨.realpath dir, out⟩ ∈ hist)
        (.ask _ fun out v hist _ => by simp) fun out => ?_
      cases out with
      | some path => exact .pure _ fun _ _ h => h
      | none => exact .raise _ fun _ _ _ => trivial
    refine .bind hpath fun path => ?_
    split
    · refine (triple_tryMount_tried (fun hist tr h => List.mem_append_left tr h) _ path _ _).conseq
        (fun _ _ h => h) (fun _ _ hist h => ?_) fun _ _ _ _ => trivial
      obtain ⟨hreal, works, hcmd⟩ := h
      exact .mounted path works hreal hcmd
    · rename_i hno
      refine .pure _ fun _ _ h => .reserved path h ?_
      simpa using hno
  · rename_i hrel
    exact .pure _ fun _ _ _ => .relative hrel

theorem triple_reachDir_dealt (mroot dir : Str) :
    Triple (fun _ _ => True) (reachDir mroot dir) (fun _ _ hist => Dealt mroot dir hist)
      (fun _ _ _ => True) := by
  refine .bind (triple_tryMountUserDir_dealt mroot dir) fun _ => ?_
  refine .bind ((triple_keep (fun hist tr h => h.mono tr) (mirrorMounts mroot dir)).conseq
    (fun _ _ h => h) (fun _ _ _ h => h) fun _ _ _ _ => trivial) fun _ => ?_
  exact .pure _ fun _ _ h => h

/-- The loop deals with every directory it is given, if it ends. -/
theorem triple_lastDitch_dealt (env : MountRuntime.Env) :
    Triple (fun _ _ => True) (lastDitch env)
      (fun _ _ hist => ∀ dir ∈ lastDitchDirs env, Dealt env.mroot dir hist)
      (fun _ _ _ => True) := by
  refine .forM_each (fun _ _ tr h => h.mono tr) _ fun dir _ => ?_
  refine .bind (Q := fun out _ hist => ⟨.exist (fileJoin env.mroot dir), out⟩ ∈ hist)
    (.ask _ fun _ _ _ _ => by simp) fun out => ?_
  have hreach : ∀ {P : Vars → List (Turn Op.Answer) → Prop}, Triple P (reachDir env.mroot dir)
      (fun _ _ hist => Dealt env.mroot dir hist) (fun _ _ _ => True) := fun {P} =>
    (triple_reachDir_dealt env.mroot dir).conseq (fun _ _ _ => trivial) (fun _ _ _ h => h)
      fun _ _ _ _ => trivial
  cases out with
  | false => exact hreach
  | true =>
    refine .bind (Q := fun out _ hist => ⟨.exist (fileJoin env.mroot dir), true⟩ ∈ hist ∧
      ⟨.exist (fileJoin (fileJoin env.mroot dir) mountPointName), out⟩ ∈ hist)
      (.ask _ fun out v hist h => ⟨List.mem_append_left _ h, by simp⟩) fun out => ?_
    cases out with
    | true => exact hreach
    | false => exact .pure _ fun _ _ h => .there h.1 h.2

/-! From the file of the library folders to the mount of a Proton. -/

def steamappsCommon : Str := "steamapps/common".toList

/-- The target in a library folder. -/
def steamappTarget (name dir : Str) : Str := fileJoin (fileJoin dir steamappsCommon) name

/-- The loop over the folders; File.join raises on what is not a text. -/
def firstSteamapp (exist : Str → Bool) (name : Str) :
    List (Option Value) → Option (Option (Str × Str))
  | [] => some none
  | some (.str dir) :: rest =>
    if exist (steamappTarget name dir) then some (some (steamappTarget name dir, dir))
    else firstSteamapp exist name rest
  | _ :: _ => none

/-- The raise of a step is `none`, as is nil within it. -/
def findSteamappWithLibraryPath (parse : Str → Option Value) (exist : Str → Bool)
    (steamRootPath vdf name : Str) : Option (Option (Str × Str)) := do
  let folders ← findSteamLibraryFolders parse steamRootPath vdf
  firstSteamapp exist name folders

/-- PROTON_DIR -/
def protonDir : Tool → Option Str
  | .proton8 => some "Proton 8.0".toList
  | .proton11 => some "Proton 11.0".toList
  | _ => none

/-- The run.rb of a Proton with its search. -/
def runProton (tool : Tool) (o : Outside) (parse : Str → Option Value) (exist : Str → Bool)
    (steamRootPath vdf : Str) (env : SwapEnv.Env) : Option SwapEnv.Env := do
  let name ← protonDir tool
  let steamapp ← findSteamappWithLibraryPath parse exist steamRootPath vdf name
  tool.script { o with steamapp := steamapp.map fun out => (.ofList out.1, .ofList out.2) } env

/-- `ENV[name].split(':')`, nothing without the variable. -/
def pathVar (env : SwapEnv.Env) (name : String) : List Str :=
  match env name with
  | some paths => RubyString.split paths.toList ':'
  | none => []

/-- What the loop reads of the environment of lsu-mount-runtime. -/
def withEnv (env : SwapEnv.Env) (base : MountRuntime.Env) : MountRuntime.Env :=
  { base with
    installPath := (env "STEAM_COMPAT_INSTALL_PATH").map String.toList
    dataPath := (env "STEAM_COMPAT_DATA_PATH").map String.toList
    libraryPaths := pathVar env "STEAM_COMPAT_LIBRARY_PATHS"
    toolPaths := pathVar env "STEAM_COMPAT_TOOL_PATHS" }

/-- Every part of a part is one of the whole. -/
theorem splitOn_intercalate {c : Char} {paths : List Str} (h : paths ≠ []) :
    ([c].intercalate paths).splitOn c = paths.flatMap (·.splitOn c) := by
  induction paths with
  | nil => exact absurd rfl h
  | cons path paths ih =>
    by_cases hrest : paths = []
    · simp [hrest]
    · rw [List.intercalate_cons_of_ne_nil hrest, List.flatMap_cons, ← ih hrest,
        List.append_assoc, List.singleton_append]
      exact List.splitOn_append_cons_of_beq path _ (beq_self_eq_true c)

theorem mem_pathVar {env : SwapEnv.Env} {name : String} {paths : List String} {path : String}
    {dir : Str} (henv : env name = some (":".intercalate paths)) (hpath : path ∈ paths)
    (hdir : dir ∈ path.toList.splitOn ':') (hne : dir ≠ []) : dir ∈ pathVar env name := by
  have hparts : (":".intercalate paths).toList.splitOn ':' =
      (paths.map String.toList).flatMap (·.splitOn ':') := by
    rw [String.toList_intercalate]
    exact splitOn_intercalate (by simpa using List.ne_nil_of_mem hpath)
  rw [pathVar, henv]
  refine RubyString.mem_split ?_ hne
  rw [hparts]
  exact List.mem_flatMap.mpr ⟨path.toList, List.mem_map_of_mem hpath, hdir⟩

/-- The first folder that holds the target. -/
theorem firstSteamapp_texts (exist : Str → Bool) (name : Str) (dirs : List Str) :
    firstSteamapp exist name (dirs.map fun dir => some (.str dir)) =
      some ((dirs.find? fun dir => exist (steamappTarget name dir)).map fun dir =>
        (steamappTarget name dir, dir)) := by
  induction dirs with
  | nil => rfl
  | cons dir dirs ih =>
    rw [List.map_cons, firstSteamapp, ih, List.find?_cons]
    cases exist (steamappTarget name dir) <;> rfl

/-- What a game under Proton needs: Proton, the library it is in, and what Steam asks for. -/
def needed (protonPath steamapps : Str) (env : SwapEnv.Env) : List Str :=
  [protonPath, steamapps].filter (!·.contains ':') ++
    ((env "STEAM_COMPAT_INSTALL_PATH").toList ++
      (env "STEAM_COMPAT_DATA_PATH").toList).map String.toList ++
    pathVar env "STEAM_COMPAT_LIBRARY_PATHS"

theorem mem_lastDitchDirs {env : MountRuntime.Env} {dir : Str} :
    dir ∈ lastDitchDirs env ↔ env.installPath = some dir ∨ env.dataPath = some dir ∨
      dir ∈ env.libraryPaths ∨ dir ∈ env.toolPaths := by
  simp [lastDitchDirs]

/-- What run.rb of a Proton puts into the variables with paths. -/
theorem proton_paths {tool : Tool} {name : Str} (htool : protonDir tool = some name)
    {o : Outside} {env got : SwapEnv.Env} (h : tool.script o env = some got) :
    ∃ protonPath lib, o.steamapp = some (protonPath, lib) ∧
      got "STEAM_COMPAT_TOOL_PATHS" = some protonPath ∧
      got "STEAM_COMPAT_LIBRARY_PATHS" = some (":".intercalate
        ([some (.ofList (fileJoin lib.toList "steamapps".toList)),
          env "STEAM_COMPAT_LIBRARY_PATHS"].reduceOption).eraseDups) := by
  cases tool with
  | sniper | scout | webhelper => cases htool
  | proton8 | proton11 =>
    obtain ⟨⟨protonPath, lib⟩, hfound, rfl⟩ := Option.map_eq_some_iff.mp h
    exact ⟨protonPath, lib, hfound, by simp [assign], by simp [assign]⟩

/-- All that is needed gets to the loop. -/
theorem needed_subset {tool : Tool} {name : Str} (htool : protonDir tool = some name)
    {o : Outside} {env got : SwapEnv.Env} (h : tool.script o env = some got)
    {protonPath lib : Str} (hfound : o.steamapp = some (.ofList protonPath, .ofList lib))
    (base : MountRuntime.Env) {dir : Str}
    (hdir : dir ∈ needed protonPath (fileJoin lib "steamapps".toList) env) (hne : dir ≠ []) :
    dir ∈ lastDitchDirs (withEnv got base) := by
  obtain ⟨protonPath', lib', hfound', htools, hlibs⟩ := proton_paths htool h
  rw [hfound] at hfound'
  obtain ⟨rfl, rfl⟩ := Prod.mk.inj (Option.some.inj hfound')
  rw [String.toList_ofList] at hlibs
  have hframe : ∀ name, name = "STEAM_COMPAT_INSTALL_PATH" ∨ name = "STEAM_COMPAT_DATA_PATH" →
      got name = env name := by
    intro name hname
    refine script_frame h ?_
    obtain rfl | rfl := hname <;> cases tool <;> decide
  have hlib : ∀ path ∈ [some (.ofList (fileJoin lib "steamapps".toList)),
      env "STEAM_COMPAT_LIBRARY_PATHS"].reduceOption, dir ∈ path.toList.splitOn ':' →
      dir ∈ pathVar got "STEAM_COMPAT_LIBRARY_PATHS" := fun path hpath hpart =>
    mem_pathVar hlibs (List.mem_eraseDups.mpr hpath) hpart hne
  rw [mem_lastDitchDirs]
  simp only [needed, List.mem_append, List.mem_filter, List.mem_cons, List.not_mem_nil,
    or_false, List.mem_map, Option.mem_toList] at hdir
  obtain (⟨hdir, hcolon⟩ | ⟨path, hpath, rfl⟩) | hdir := hdir
  · have hpart : dir ∈ (String.ofList dir).toList.splitOn ':' := by
      rw [String.toList_ofList, List.splitOn_eq_singleton (by simpa using hcolon)]
      exact List.mem_singleton.mpr rfl
    obtain rfl | rfl := hdir
    · rw [← String.intercalate_singleton (s := ":") (t := String.ofList dir)] at htools
      exact Or.inr (Or.inr (Or.inr (mem_pathVar htools List.mem_cons_self hpart hne)))
    · exact Or.inr (Or.inr (Or.inl (hlib _ (List.reduceOption_mem_iff.mpr (by simp)) hpart)))
  · obtain hpath | hpath := hpath
    · left
      simp only [withEnv, hframe _ (Or.inl rfl), hpath, Option.map_some]
    · right; left
      simp only [withEnv, hframe _ (Or.inr rfl), hpath, Option.map_some]
  · refine Or.inr (Or.inr (Or.inl ?_))
    cases hvar : env "STEAM_COMPAT_LIBRARY_PATHS" with
    | none => simp [pathVar, hvar] at hdir
    | some paths =>
      refine hlib paths (List.reduceOption_mem_iff.mpr (by simp [hvar])) ?_
      rw [pathVar, hvar] at hdir
      exact (List.rdropWhile_prefix _ _).subset hdir

/-- Where a Proton is in a library folder that Steam has written down, the loop, if it ends,
has dealt with the directory of the first such Proton, with the games of its library and with
what Steam itself asks for; unless there is a colon in the path. -/
theorem proton_reached (tool : Tool) (o : Outside) (parse : Str → Option Value)
    (exist : Str → Bool) (steamRootPath vdf : Str) (dirs : List Str)
    (hdirs : findSteamLibraryFolders parse steamRootPath vdf =
      some (dirs.map fun dir => some (.str dir)))
    (env got : SwapEnv.Env) (hrun : runProton tool o parse exist steamRootPath vdf env = some got)
    (base : MountRuntime.Env) (v w : Vars) (hist : List (Turn Op.Answer))
    (hends : Ends (lastDitch (withEnv got base)) v hist (.ok ()) w) :
    ∃ name lib, protonDir tool = some name ∧
      dirs.find? (fun dir => exist (steamappTarget name dir)) = some lib ∧
      ∀ dir ∈ needed (steamappTarget name lib) (fileJoin lib "steamapps".toList) env,
        Dealt base.mroot dir hist := by
  simp only [runProton, findSteamappWithLibraryPath, hdirs, firstSteamapp_texts,
    Option.bind_eq_bind, Option.bind_some, Option.bind_eq_some_iff] at hrun
  obtain ⟨name, htool, hscript⟩ := hrun
  obtain ⟨protonPath, lib, hfound, -, -⟩ := proton_paths htool hscript
  cases hfind : dirs.find? fun dir => exist (steamappTarget name dir) with
  | none => simp [hfind] at hfound
  | some lib =>
    refine ⟨name, lib, htool, hfind, fun dir hdir => ?_⟩
    by_cases hne : dir = []
    · exact .relative (by simp [hne])
    · have hmem : dir ∈ lastDitchDirs (withEnv got base) :=
        needed_subset htool hscript (by simp [hfind]) base hdir hne
      exact triple_lastDitch_dealt _ v [] trivial hist (.ok ()) w hends dir hmem

/-- A file with one more library. -/
def gamesVdf : Str :=
  document libraryfoldersKey (.block "0".toList (.value pathKey "/games".toList .nil) .nil)

def protonInGames : Str := "/games/steamapps/common/Proton 8.0".toList

def nothingSet : SwapEnv.Env := fun _ => none

/-- What run.rb makes of an environment without variables. -/
def gamesEnv : SwapEnv.Env :=
  (proton8 (some (.ofList protonInGames, "/games")) nothingSet).getD nothingSet

/-- On a system where all mounts work Proton and the games are dealt with. -/
theorem proton_reached_games :
    Dealt plainEnv.mroot protonInGames (turns (plainWorld [] (fun _ => true) fun _ => true)
        (lastDitch (withEnv gamesEnv plainEnv)) noVars) ∧
      Dealt plainEnv.mroot "/games/steamapps".toList
        (turns (plainWorld [] (fun _ => true) fun _ => true)
          (lastDitch (withEnv gamesEnv plainEnv)) noVars) := by
  have hfind : findSteamappWithLibraryPath Json.parse (· == protonInGames) "/root".toList gamesVdf
      "Proton 8.0".toList = some (some (protonInGames, "/games".toList)) := by decide +kernel
  have hrun : runProton .proton8 ⟨none, false, true, 0⟩ Json.parse (· == protonInGames)
      "/root".toList gamesVdf nothingSet = some gamesEnv := by
    simp only [runProton, protonDir, Option.bind_eq_bind, Option.bind_some, hfind]
    rfl
  have hloop : lastDitchDirs (withEnv gamesEnv plainEnv) =
      ["/games/steamapps".toList, protonInGames] := by decide +kernel
  have hends : Ends (lastDitch (withEnv gamesEnv plainEnv)) noVars
      (turns (plainWorld [] (fun _ => true) fun _ => true)
        (lastDitch (withEnv gamesEnv plainEnv)) noVars) (.ok ()) ⟨[], [], some []⟩ := by
    refine ends_play 100 ?_
    rw [lastDitch, hloop]
    rfl
  obtain ⟨name, lib, hname, hlib, hdealt⟩ := proton_reached .proton8 ⟨none, false, true, 0⟩
    Json.parse (· == protonInGames) "/root".toList gamesVdf ["/root".toList, "/games".toList]
    (by decide +kernel) nothingSet gamesEnv hrun plainEnv noVars _ _ hends
  have hname' : "Proton 8.0".toList = name := Option.some.inj hname
  have hfirst : ["/root".toList, "/games".toList].find? (fun dir =>
      steamappTarget "Proton 8.0".toList dir == protonInGames) = some "/games".toList := by
    decide +kernel
  rw [← hname', hfirst] at hlib
  have hneeded : needed (steamappTarget "Proton 8.0".toList "/games".toList)
      (fileJoin "/games".toList "steamapps".toList) nothingSet =
        [protonInGames, "/games/steamapps".toList] := by decide +kernel
  rw [← hname', ← Option.some.inj hlib, hneeded] at hdealt
  exact ⟨hdealt _ List.mem_cons_self, hdealt _ (List.mem_cons_of_mem _ List.mem_cons_self)⟩

end LSU.Reach
