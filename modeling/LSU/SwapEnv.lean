import Mathlib.Logic.Function.Basic
import LSU.Run

/-! The two builds of swap-env.c, which carry four variables of the environment across
the border between FreeBSD and the Linuxulator. `getenv` is application of the environment. -/
namespace LSU.SwapEnv
open LSU.Run

abbrev Env := String → Option String

def setenv (env : Env) (name value : String) : Env := Function.update env name (some value)
def unsetenv (env : Env) (name : String) : Env := Function.update env name none

def swapEnvVars (targetVar saveVar loadVar : String) (env : Env) : Env :=
  let env := match env targetVar with
    | some oldValue => setenv env saveVar oldValue
    | none => unsetenv env saveVar
  match env loadVar with
  | some newValue => setenv env targetVar newValue
  | none => unsetenv env targetVar

inductive Side where
  | fbsd | linux
deriving DecidableEq

def Side.other : Side → Side
  | .fbsd => .linux
  | .linux => .fbsd

/-- The program that leaves `side`: with FBSD_TO_LINUX defined the one that leaves the
FreeBSD side. `none` is the exit without `execvp`. -/
def main (side : Side) (argc : Nat) (env : Env) : Option Env :=
  if argc < 2 then
    none
  else match side with
    | .fbsd => some <| env
        |> swapEnvVars "LD_LIBRARY_PATH" "LSU_FBSD_LD_LIBRARY_PATH" "LSU_LINUX_LD_LIBRARY_PATH"
        |> swapEnvVars "LD_PRELOAD" "LSU_FBSD_LD_PRELOAD" "LSU_LINUX_LD_PRELOAD"
        |> swapEnvVars "LIBGL_DRIVERS_PATH" "LSU_FBSD_LIBGL_DRIVERS_PATH"
            "LSU_LINUX_LIBGL_DRIVERS_PATH"
        |> swapEnvVars "PATH" "LSU_FBSD_PATH" "LSU_LINUX_PATH"
    | .linux => some <| env
        |> swapEnvVars "LD_LIBRARY_PATH" "LSU_LINUX_LD_LIBRARY_PATH" "LSU_FBSD_LD_LIBRARY_PATH"
        |> swapEnvVars "LD_PRELOAD" "LSU_LINUX_LD_PRELOAD" "LSU_FBSD_LD_PRELOAD"
        |> swapEnvVars "LIBGL_DRIVERS_PATH" "LSU_LINUX_LIBGL_DRIVERS_PATH"
            "LSU_FBSD_LIBGL_DRIVERS_PATH"
        |> swapEnvVars "PATH" "LSU_LINUX_PATH" "LSU_FBSD_PATH"

/-- The four variables that differ between the sides. -/
inductive Var where
  | ldLibraryPath | ldPreload | libglDriversPath | path
deriving DecidableEq

def Var.target : Var → String
  | .ldLibraryPath => "LD_LIBRARY_PATH"
  | .ldPreload => "LD_PRELOAD"
  | .libglDriversPath => "LIBGL_DRIVERS_PATH"
  | .path => "PATH"

def Side.saveVar : Side → Var → String
  | .fbsd, .ldLibraryPath => "LSU_FBSD_LD_LIBRARY_PATH"
  | .fbsd, .ldPreload => "LSU_FBSD_LD_PRELOAD"
  | .fbsd, .libglDriversPath => "LSU_FBSD_LIBGL_DRIVERS_PATH"
  | .fbsd, .path => "LSU_FBSD_PATH"
  | .linux, .ldLibraryPath => "LSU_LINUX_LD_LIBRARY_PATH"
  | .linux, .ldPreload => "LSU_LINUX_LD_PRELOAD"
  | .linux, .libglDriversPath => "LSU_LINUX_LIBGL_DRIVERS_PATH"
  | .linux, .path => "LSU_LINUX_PATH"

def Var.all : List Var := [.ldLibraryPath, .ldPreload, .libglDriversPath, .path]

theorem Var.mem_all (v : Var) : v ∈ Var.all := by cases v <;> simp [Var.all]

theorem Var.target_inj {v w : Var} : v.target = w.target ↔ v = w := by
  cases v <;> cases w <;> simp [Var.target]

theorem Side.saveVar_inj {x y : Side} {v w : Var} :
    x.saveVar v = y.saveVar w ↔ x = y ∧ v = w := by
  cases x <;> cases y <;> cases v <;> cases w <;> simp [Side.saveVar]

theorem Side.saveVar_ne_target (x : Side) (v w : Var) : x.saveVar v ≠ w.target := by
  cases x <;> cases v <;> cases w <;> simp [Side.saveVar, Var.target]

theorem Side.other_ne (x : Side) : x.other ≠ x := by cases x <;> simp [Side.other]

theorem Side.other_other (x : Side) : x.other.other = x := by cases x <;> rfl

theorem Side.eq_other_of_ne {x y : Side} (h : x ≠ y) : x = y.other := by
  cases x <;> cases y <;> simp_all [Side.other]

/-- One swap as two writes; the second reads what the first has left. -/
theorem swapEnvVars_eq (targetVar saveVar loadVar : String) (env : Env) :
    swapEnvVars targetVar saveVar loadVar env =
      Function.update (Function.update env saveVar (env targetVar)) targetVar
        (Function.update env saveVar (env targetVar) loadVar) := by
  unfold swapEnvVars
  cases ht : env targetVar with
  | none => simp only [unsetenv, setenv]; split <;> simp_all
  | some old => simp only [unsetenv, setenv]; split <;> simp_all

def swapVar (side : Side) (env : Env) (v : Var) : Env :=
  swapEnvVars v.target (side.saveVar v) (side.other.saveVar v) env

theorem main_eq (side : Side) (argc : Nat) (env : Env) :
    main side argc env =
      if argc < 2 then none else some (Var.all.foldl (swapVar side) env) := by
  cases side <;> rfl

/-- What a variable of the border reads as on each side: on the side we are on the
variable itself, on the other one its save variable. -/
def nameOn (side x : Side) (v : Var) : String :=
  if x = side then v.target else x.saveVar v

theorem swapVar_self (side x : Side) (env : Env) (v : Var) :
    swapVar side env v (nameOn side.other x v) = env (nameOn side x v) := by
  rw [swapVar, swapEnvVars_eq]
  have hs := side.saveVar_ne_target v v
  by_cases hx : x = side
  · subst hx
    simp [nameOn, (Side.other_ne x).symm, hs]
  · obtain rfl := Side.eq_other_of_ne hx
    have hne : side.other.saveVar v ≠ side.saveVar v := by simp [Side.saveVar_inj, Side.other_ne]
    simp [nameOn, Side.other_ne, hne]

theorem swapVar_frame (side : Side) (env : Env) (v : Var) (name : String)
    (ht : name ≠ v.target) (hs : name ≠ side.saveVar v) : swapVar side env v name = env name := by
  rw [swapVar, swapEnvVars_eq]
  simp [ht, hs]

theorem foldl_swapVar_frame (side : Side) (vs : List Var) (env : Env) (name : String)
    (ht : ∀ v ∈ vs, name ≠ v.target) (hs : ∀ v ∈ vs, name ≠ side.saveVar v) :
    vs.foldl (swapVar side) env name = env name := by
  induction vs generalizing env with
  | nil => rfl
  | cons v vs ih =>
    simp only [List.mem_cons, forall_eq_or_imp] at ht hs
    rw [List.foldl_cons, ih _ ht.2 hs.2, swapVar_frame side env v name ht.1 hs.1]

theorem nameOn_ne_target {side x : Side} {v w : Var} (h : v ≠ w) :
    nameOn side x v ≠ w.target := by
  unfold nameOn
  split
  · simpa [Var.target_inj] using h
  · exact Side.saveVar_ne_target x v w

theorem nameOn_ne_saveVar {side x y : Side} {v w : Var} (h : v ≠ w) :
    nameOn side x v ≠ y.saveVar w := by
  unfold nameOn
  split
  · exact (Side.saveVar_ne_target y w v).symm
  · simp [Side.saveVar_inj, h]

/-- Swaps of other variables neither read nor write this one's three names, so over a list
without repetitions each variable is swapped once and undisturbed. -/
theorem foldl_swapVar (side x : Side) (vs : List Var) (hn : vs.Nodup) (env : Env) (v : Var)
    (hv : v ∈ vs) :
    vs.foldl (swapVar side) env (nameOn side.other x v) = env (nameOn side x v) := by
  induction vs generalizing env with
  | nil => simp at hv
  | cons w vs ih =>
    obtain ⟨hw, hn⟩ := List.nodup_cons.mp hn
    rw [List.foldl_cons]
    obtain rfl | hv := List.mem_cons.mp hv
    · have hne : ∀ u ∈ vs, v ≠ u := fun u hu he => hw (he ▸ hu)
      rw [foldl_swapVar_frame side vs _ _ (fun u hu => nameOn_ne_target (hne u hu))
        (fun u hu => nameOn_ne_saveVar (hne u hu)), swapVar_self]
    · have hne : v ≠ w := fun he => hw (he ▸ hv)
      rw [ih hn _ hv, swapVar_frame side env w _ (nameOn_ne_target hne) (nameOn_ne_saveVar hne)]

/-- The whole crossing: what every border variable reads as, on either side, stays. -/
theorem main_nameOn {side : Side} {argc : Nat} {env env' : Env}
    (h : main side argc env = some env') (x : Side) (v : Var) :
    env' (nameOn side.other x v) = env (nameOn side x v) := by
  rw [main_eq] at h
  split at h
  · cases h
  · obtain rfl := Option.some.inj h
    exact foldl_swapVar side x Var.all (by simp [Var.all]) env v v.mem_all

theorem main_frame {side : Side} {argc : Nat} {env env' : Env}
    (h : main side argc env = some env') {name : String}
    (ht : ∀ v : Var, name ≠ v.target) (hs : ∀ v, name ≠ side.saveVar v) :
    env' name = env name := by
  rw [main_eq] at h
  split at h
  · cases h
  · obtain rfl := Option.some.inj h
    exact foldl_swapVar_frame side Var.all env name (fun v _ => ht v) (fun v _ => hs v)

/-- A run of border crossings. `left` keeps the environment each side was last left with;
the programs do not read it. -/
structure State where
  side : Side
  env : Env
  left : Side → Option Env

inductive Event where
  | edit (name : String) (value : Option String)
  | cross (argc : Nat)

def start (side : Side) (env : Env) : State := ⟨side, env, fun _ => none⟩

def saveVars : List String := Var.all.map Side.fbsd.saveVar ++ Var.all.map Side.linux.saveVar

/-- Between two crossings the environment is edited at will, save for the save variables. -/
def step (s : State) : Event → Option State
  | .edit name value =>
    if name ∈ saveVars then none else some { s with env := Function.update s.env name value }
  | .cross argc =>
    (main s.side argc s.env).map fun env =>
      ⟨s.side.other, env, Function.update s.left s.side (some s.env)⟩

theorem saveVar_mem (x : Side) (v : Var) : x.saveVar v ∈ saveVars := by
  cases x <;> cases v <;> simp [saveVars, Var.all]

theorem step_cross {s t : State} {argc : Nat} (h : step s (.cross argc) = some t) :
    main s.side argc s.env = some t.env ∧ t.side = s.side.other ∧
      t.left = Function.update s.left s.side (some s.env) := by
  obtain ⟨env, henv, rfl⟩ := Option.map_eq_some_iff.mp h
  exact ⟨henv, rfl, rfl⟩

/-- What side `x` finds when it is entered next, or has now. -/
def view (s : State) (x : Side) (v : Var) : Option String := s.env (nameOn s.side x v)

theorem view_cross {s t : State} {argc : Nat} (h : step s (.cross argc) = some t) (x : Side)
    (v : Var) : view t x v = view s x v := by
  obtain ⟨hm, hside, _⟩ := step_cross h
  rw [view, view, hside]
  exact main_nameOn hm x v

/-- The value a side's variable was left with, or that of its LSU_* variable at the start. -/
def expected (env0 : Env) (left : Side → Option Env) (x : Side) (v : Var) : Option String :=
  match left x with
  | some env => env v.target
  | none => env0 (x.saveVar v)

/-- The side we are not on keeps what it is expected to find. -/
def Kept (env0 : Env) (s : State) : Prop :=
  ∀ v, view s s.side.other v = expected env0 s.left s.side.other v

theorem kept_step (env0 : Env) {s t : State} {e : Event} (hs : Kept env0 s)
    (h : step s e = some t) : Kept env0 t := by
  intro v
  cases e with
  | edit name value =>
    simp only [step] at h
    split at h
    · cases h
    · rename_i hname
      obtain rfl := Option.some.inj h
      have hne : s.side.other.saveVar v ≠ name := fun he => hname (he ▸ saveVar_mem _ v)
      simpa [view, nameOn, Side.other_ne, hne] using hs v
  | cross argc =>
    rw [view_cross h]
    obtain ⟨_, hside, hleft⟩ := step_cross h
    simp [hside, hleft, Side.other_other, view, nameOn, expected]

theorem kept_run (env0 : Env) (side : Side) {es : List Event} {s : State}
    (h : run step (start side env0) es = some s) : Kept env0 s := by
  refine run_invariant (Kept env0) (fun r e t hr he => kept_step env0 hr he) ?_ h
  intro v
  simp [view, nameOn, start, expected, Side.other_ne]

/-- Along every run of crossings and edits, an arrival finds the four variables as its side
was last left (at first, as that side's LSU_* variables were at the start), touches no other
variable but the eight save variables, and going straight back undoes it up to the save
variables of the side it came from. -/
theorem crossing_restores_side (env0 : Env) (side : Side) (es : List Event) (s t : State)
    (argc : Nat) (hrun : run step (start side env0) es = some s)
    (hcross : step s (.cross argc) = some t) :
    (∀ v : Var, t.env v.target = match s.left t.side with
      | some env => env v.target
      | none => env0 (t.side.saveVar v)) ∧
    (∀ name, (∀ v : Var, name ≠ v.target) → name ∉ saveVars → t.env name = s.env name) ∧
    (∀ argc' u, step t (.cross argc') = some u →
      ∀ name, (∀ v, name ≠ s.side.saveVar v) → u.env name = s.env name) := by
  obtain ⟨hm, hside, _⟩ := step_cross hcross
  refine ⟨?_, ?_, ?_⟩
  · intro v
    have hv : view t t.side v = view s s.side.other v := by rw [view_cross hcross, hside]
    have hk := kept_run env0 side hrun v
    rw [view, nameOn, if_pos rfl, hk, ← hside] at hv
    exact hv
  · intro name ht hs
    exact main_frame hm ht fun v he => hs (he ▸ saveVar_mem _ v)
  · intro argc' u hback name hs
    obtain ⟨hm', hside', _⟩ := step_cross hback
    rw [hside, Side.other_other] at hside'
    by_cases ht : ∃ v : Var, name = v.target
    · obtain ⟨v, rfl⟩ := ht
      have hv : view u s.side v = view s s.side v := by rw [view_cross hback, view_cross hcross]
      simpa [view, nameOn, hside'] using hv
    · have ht : ∀ v : Var, name ≠ v.target := fun v he => ht ⟨v, he⟩
      by_cases ho : ∃ v, name = s.side.other.saveVar v
      · obtain ⟨v, rfl⟩ := ho
        have hv : view u s.side.other v = view s s.side.other v := by
          rw [view_cross hback, view_cross hcross]
        simpa [view, nameOn, hside', Side.other_ne] using hv
      · have ho : ∀ v, name ≠ s.side.other.saveVar v := fun v he => ho ⟨v, he⟩
        rw [main_frame hm' ht (by simpa [hside] using ho), main_frame hm ht hs]

theorem crossing_restores_side_path :
    ∃ s t, run step (start .fbsd fun name => if name = "PATH" then some "/bin" else none)
        [.cross 2, .edit "PATH" (some "/usr/bin")] = some s ∧
      step s (.cross 2) = some t ∧ t.env "PATH" = some "/bin" := by
  refine ⟨_, _, rfl, rfl, ?_⟩
  exact (crossing_restores_side (fun name => if name = "PATH" then some "/bin" else none) .fbsd
    [.cross 2, .edit "PATH" (some "/usr/bin")] _ _ 2 rfl rfl).1 .path

end LSU.SwapEnv
