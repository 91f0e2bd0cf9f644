import LSU.InitTmpDir

/-! A run of lsu-mount-runtime that raises in the set-up of the chroot, from init_tmp_dir on, and
what its rescue branch undoes of it. -/
namespace LSU.MountRuntime
open LSU.Program LSU.Program.Script LSU.Mounts LSU.InitTmpDir

/-- File.write, which may raise. -/
def write (name : String) : Ruby Unit := do
  match ← statement name with
  | true => pure ()
  | false => raise .other

/-- init_tmp_dir; `cookie` is whether LSU_COOKIE is set. -/
def initTmpDir (tmpdir : Str) (cookie : Bool) : Ruby Unit := do
  match ← mountTmpDir tmpdir with
  | some _ =>
    match cookie with
    | true => write ".cookie"
    | false => pure ()
    write ".setup-done"
  | none => pure ()
  match ← exist (fileJoin tmpdir setupDoneName) with
  | true => pure ()
  | false => raise .other

/-- From init_tmp_dir to the mount of the tmpfs. -/
def prepare (tmpdir : Str) (cookie : Bool) (env : Env) : Ruby Unit := do
  initTmpDir tmpdir cookie
  match ← mkdirP env.mroot with
  | none => pure ()
  | some _ => raise .other

/-- How many mount commands have succeeded. -/
def mountsMade (hist : List (Turn Op.Answer)) : Nat := hist.countP fun
  | ⟨.mountCmd .., (answer : Bool)⟩ => answer
  | _ => false

/-! What a script leaves of the variables. -/
section Keeps
variable {I : Vars → Prop}

theorem keeps_fileRealpath (path : Str) : Keeps I (fileRealpath path) := by
  refine .bind (.ask _) fun answer => ?_
  cases answer with
  | some resolved => exact .pure _
  | none => exact .raise _

theorem keeps_mount (fs : String) (src dst : Str) (options : Option String) :
    Keeps I (Mounts.mount fs src dst options) := by
  have hrun : Keeps I (runMount fs src dst options) := by
    refine .bind (.ask _) fun mounted => ?_
    cases mounted with
    | true => exact keeps_fileRealpath dst
    | false => exact .raise _
  refine .bind (triple_makeMountPoint (fun h _ => h) fs src dst) fun errno => ?_
  cases errno with
  | none => exact hrun
  | some errno =>
    cases errno with
    | acces => exact hrun
    | rofs => exact hrun
    | other => exact .raise _

theorem keeps_tryMount (fs : String) (src dst : Str) (options : Option String) :
    Keeps I (tryMount fs src dst options) := by
  refine .bind (.attempt (keeps_mount fs src dst options)) fun out => ?_
  cases out with
  | ok path => exact .pure _
  | error e =>
    cases e with
    | mountError => exact .pure _
    | other => exact .raise _

theorem keeps_tryMountUserDir (mroot path : Str) : Keeps I (tryMountUserDir mroot path) := by
  unfold tryMountUserDir
  split
  · refine .bind (keeps_fileRealpath path) fun resolved => ?_
    split
    · exact keeps_tryMount _ _ _ _
    · exact .pure _
  · exact .pure _

/-- mirror_mounts has only lists of its own. -/
theorem keeps_mirrorMounts (hmirrored : ∀ v l, I v → I { v with mirrored := l })
    (htable : ∀ v table, I v → I { v with allMounts := table }) (mroot dir : Str) :
    Keeps I (mirrorMounts mroot dir) := by
  have hall : Keeps I getAllMounts := by
    refine .bind (Triple.vars fun _ _ h => h) fun v => ?_
    split
    · exact .pure _
    · refine .bind (.ask _) fun table => ?_
      cases table with
      | some table => exact .bind (.modify _ fun v h => htable v _ h) fun _ => .pure _
      | none => exact .raise _
  have hloop : ∀ (source : List MountInfo) (nodeToSkip : Option Str),
      Keeps I (mirrorLoop mroot source nodeToSkip) := by
    intro source
    induction source with
    | nil => exact fun _ => .pure _
    | cons info rest ih =>
      intro nodeToSkip
      rw [mirrorLoop]
      split
      · exact ih nodeToSkip
      · split
        · exact ih (some info.node)
        · refine .bind (keeps_tryMountUserDir mroot info.node) fun out => ?_
          cases out with
          | none => exact ih (some info.node)
          | some path => exact .bind (.modify _ fun v h => hmirrored v _ h) fun _ => ih none
  refine .bind hall fun table => .bind (hloop _ none) fun _ => ?_
  refine .bind (Triple.vars fun _ _ h => h) fun v => ?_
  exact .bind (.modify _ fun v h => hmirrored v _ h) fun _ => .pure _

theorem keeps_initTmpDir (tmpdir : Str) (cookie : Bool) : Keeps I (initTmpDir tmpdir cookie) := by
  have hwrite : ∀ name, Keeps I (write name) := by
    intro name
    refine .bind (.ask _) fun worked => ?_
    cases worked with
    | true => exact .pure _
    | false => exact .raise _
  have hmount : Keeps I (mountTmpDir tmpdir) := by
    refine .bind (.ask _) fun errno => ?_
    cases errno with
    | none => exact keeps_tryMount _ _ _ _
    | some errno => exact .raise _
  have hcheck : Keeps I (do
      match ← exist (fileJoin tmpdir setupDoneName) with
      | true => pure ()
      | false => raise .other : Ruby Unit) := by
    refine .bind (.ask _) fun done => ?_
    cases done with
    | true => exact .pure _
    | false => exact .raise _
  refine .bind hmount fun mounted => ?_
  cases mounted with
  | none => exact hcheck
  | some path =>
    cases cookie with
    | true => exact .bind (hwrite _) fun _ => .bind (hwrite _) fun _ => hcheck
    | false => exact .bind (hwrite _) fun _ => hcheck

theorem keeps_prepare (tmpdir : Str) (cookie : Bool) (env : Env) :
    Keeps I (prepare tmpdir cookie env) := by
  refine .bind (keeps_initTmpDir tmpdir cookie) fun _ => .bind (.ask _) fun errno => ?_
  cases errno with
  | none => exact .pure _
  | some errno => exact .raise _

end Keeps

/-- The lists where `n` mounts are recorded and mirror_mounts is not running. -/
def Between (n : Nat) (v : Vars) : Prop := v.mounts.length = n ∧ v.mirrored = []

/-- A command that raises has put at most one mount on the list, and that if it raises out of
mirror_mounts. -/
theorem triple_exec_raises (env : Env) (cmd : Cmd) (n : Nat) :
    Triple (fun v _ => Between n v) (exec env cmd) (fun _ _ _ => True)
      fun _ v _ => Between n v ∨ v.mounts.length = n + 1 := by
  have hkeep : ∀ {α : Type} {c : Ruby α}, Keeps (Between n) c →
      Triple (fun v _ => Between n v) c (fun _ v _ => Between n v)
        fun _ v _ => Between n v ∨ v.mounts.length = n + 1 :=
    fun h => h.conseq (fun _ _ h => h) (fun _ _ _ h => h) fun _ _ _ h => Or.inl h
  have hdir : ∀ dir, Triple (fun v _ => Between n v) (mountWithMirrored env.mroot dir)
      (fun mounted v _ => mounted = false → Between n v)
      fun _ v _ => Between n v ∨ v.mounts.length = n + 1 := by
    intro dir
    refine .bind (hkeep (keeps_tryMountUserDir env.mroot dir)) fun out => ?_
    cases out with
    | none => exact .pure _ fun _ _ h _ => h
    | some path =>
      have hpush : Triple (fun v _ => Between n v) (push path)
          (fun _ v _ => v.mounts.length = n + 1)
          fun _ v _ => Between n v ∨ v.mounts.length = n + 1 :=
        .modify _ fun v _ h => by simp [h.1]
      have hmirror : Triple (fun v _ => v.mounts.length = n + 1) (mirrorMounts env.mroot dir)
          (fun _ _ _ => True) fun _ v _ => Between n v ∨ v.mounts.length = n + 1 :=
        (keeps_mirrorMounts (I := fun v => v.mounts.length = n + 1) (fun _ _ h => h)
          (fun _ _ h => h) env.mroot dir).conseq (fun _ _ h => h) (fun _ _ _ _ => trivial)
          fun _ _ _ h => Or.inr h
      have hconcat : Triple (fun v _ => v.mounts.length = n + 1) (concatMirrored env.mroot dir)
          (fun _ _ _ => True) fun _ v _ => Between n v ∨ v.mounts.length = n + 1 :=
        .bind hmirror fun paths => .modify _ fun _ _ _ => trivial
      exact .bind hpush fun _ => .bind hconcat fun _ => .pure _ fun _ _ _ h => Bool.noConfusion h
  cases cmd with
  | statement what =>
    refine .bind (hkeep (.ask _)) fun worked => ?_
    cases worked with
    | true => exact .pure _ fun _ _ _ => trivial
    | false => exact .raise _ fun _ _ h => Or.inl h
  | invalid => exact .raise _ fun _ _ h => Or.inl h
  | mount fs src dst options =>
    exact .bind (hkeep (keeps_mount fs src dst options)) fun path => .modify _ fun _ _ _ => trivial
  | home =>
    refine .bind (hkeep (keeps_fileRealpath env.home)) fun homeDir => ?_
    split
    · refine .bind (hdir homeDir) fun mounted => ?_
      cases mounted with
      | true => exact .pure _ fun _ _ _ => trivial
      | false => exact .raise _ fun _ _ h => Or.inl (h rfl)
    · exact .raise _ fun _ _ h => Or.inl h
  | compat dir => exact .bind (hdir dir) fun _ => .pure _ fun _ _ _ => trivial

/-- The set-up raises in one of its commands, after the turns `before` of those that come first
and the turns `own` of that command. -/
def RaisesIn (env : Env) (v : Vars) (before own : List (Turn Op.Answer)) (e : Err) (w : Vars) :
    Prop :=
  ∃ cmds cmd rest x, setUpCmds env = cmds ++ cmd :: rest ∧
    Ends (cmds.forM (exec env)) v before (.ok ()) x ∧ Ends (exec env cmd) x own (.error e) w

theorem setUp_raises {env : Env} {v w : Vars} {tr : List (Turn Op.Answer)} {e : Err}
    (h : Ends (setUp env) v tr (.error e) w) :
    ∃ before own, tr = before ++ own ∧ RaisesIn env v before own e w := by
  rw [setUp] at h
  suffices hsplit : ∀ cmds v tr, Ends (cmds.forM (exec env)) v tr (.error e) w →
      ∃ first cmd rest before own x, cmds = first ++ cmd :: rest ∧ tr = before ++ own ∧
        Ends (first.forM (exec env)) v before (.ok ()) x ∧ Ends (exec env cmd) x own (.error e) w by
    obtain ⟨first, cmd, rest, before, own, x, hcmds, htr, hfirst, hcmd⟩ := hsplit _ v tr h
    exact ⟨before, own, htr, first, cmd, rest, x, hcmds, hfirst, hcmd⟩
  intro cmds
  induction cmds with
  | nil =>
    intro v tr h
    have hok := (ends_pure.mp h).2.1
    cases hok
  | cons cmd cmds ih =>
    intro v tr h
    obtain ⟨u, u', _, x, rfl, hu, hu'⟩ | ⟨e', he, hcmd⟩ := ends_bind.mp h
    · obtain ⟨first, cmd', rest, before, own, y, rfl, rfl, hfirst, hraise⟩ := ih x u' hu'
      refine ⟨cmd :: first, cmd', rest, u ++ before, own, y, rfl, ?_, ?_, hraise⟩
      · rw [List.append_assoc]
      · exact ends_bind.mpr (Or.inl ⟨u, before, (), x, rfl, hu, hfirst⟩)
    · obtain rfl := Except.error.inj he
      exact ⟨[], cmd, cmds, [], tr, v, rfl, rfl, ends_pure.mpr ⟨rfl, rfl, rfl⟩, hcmd⟩

/-- The nodes of the mount table, the newest first. -/
def tableAfter (canonical : Str → Str) (table : List Str) (hist : List (Turn Op.Answer)) :
    List Str :=
  hist.foldl (fun table turn => mountedBy canonical turn ++ table) table

/-- An umount that works takes away the newest mount on the node. -/
def umount (canonical : Str → Str) (table : List Str) (path : Str) : List Str :=
  table.erase (canonical path)

/-- The rescue branch undoes what the run has done to the mount table. -/
structure RescueUndoes (canonical : Str → Str) (table : List Str) (hist : List (Turn Op.Answer))
    (v : Vars) : Prop where
  reverse : (unmounts v).map canonical = (made canonical hist).reverse
  restored : (unmounts v).foldl (umount canonical) (tableAfter canonical table hist) = table

section Undoes
variable {canonical : Str → Str} {table : List Str}

theorem made_length (hist : List (Turn Op.Answer)) :
    (made canonical hist).length = mountsMade hist := by
  induction hist with
  | nil => rfl
  | cons turn hist ih =>
    have hone : (mountedBy canonical turn).length = mountsMade [turn] := by
      obtain ⟨op, answer⟩ := turn
      cases op with
      | mountCmd fs src dst options =>
        cases answer with
        | true => rfl
        | false => rfl
      | _ => rfl
    have hcons : mountsMade ([turn] ++ hist) = mountsMade [turn] + mountsMade hist :=
      List.countP_append
    rw [List.singleton_append] at hcons
    rw [hcons, ← hone, ← ih, made, List.flatMap_cons, List.length_append, made]

theorem tableAfter_eq (table : List Str) (hist : List (Turn Op.Answer)) :
    tableAfter canonical table hist = (made canonical hist).reverse ++ table := by
  induction hist generalizing table with
  | nil => rfl
  | cons turn hist ih =>
    have hone : (mountedBy canonical turn).reverse = mountedBy canonical turn := by
      unfold mountedBy
      split
      · split <;> rfl
      · rfl
    have hrest := ih (mountedBy canonical turn ++ table)
    simpa [tableAfter, made, hone] using hrest

theorem foldl_umount (paths table : List Str) :
    paths.foldl (umount canonical) (paths.map canonical ++ table) = table := by
  induction paths with
  | nil => rfl
  | cons path paths ih => simpa [umount] using ih

theorem RescueUndoes.of_recorded {hist : List (Turn Op.Answer)} {v : Vars}
    (h : made canonical hist = v.mounts.map canonical) :
    RescueUndoes canonical table hist v := by
  have hreverse : (unmounts v).map canonical = (made canonical hist).reverse := by
    rw [h, unmounts, List.map_reverse]
  refine ⟨hreverse, ?_⟩
  rw [tableAfter_eq, ← hreverse]
  exact foldl_umount (unmounts v) table

/-- Whether the realpath behind a mount has raised shows in the turns of the command. -/
theorem realpathRaises_append {u v : List (Turn Op.Answer)} (hu : Settled u) :
    RealpathRaises (u ++ v) ↔ RealpathRaises v := by
  constructor
  · rintro ⟨w, fs, src, dst, options, h⟩
    cases v using List.reverseRecOn with
    | nil =>
      rw [List.append_nil] at h
      exact absurd (hu ⟨.realpath dst, none⟩ (by simp [h])) Bool.false_ne_true
    | append_singleton v y =>
      rw [← List.append_assoc, List.append_cons w] at h
      obtain ⟨h, hy⟩ := List.append_inj' h rfl
      cases v using List.reverseRecOn with
      | nil =>
        rw [List.append_nil] at h
        exact absurd (hu ⟨.mountCmd fs src dst options, true⟩ (by simp [h])) Bool.false_ne_true
      | append_singleton v x =>
        rw [← List.append_assoc] at h
        obtain ⟨-, hx⟩ := List.append_inj' h rfl
        exact ⟨v, fs, src, dst, options, by rw [hx, hy, List.append_assoc]; rfl⟩
  · rintro ⟨w, fs, src, dst, options, rfl⟩
    exact ⟨u ++ w, fs, src, dst, options, by rw [List.append_assoc]⟩

variable (hcanon : ∀ path, canonical (canonical path) = canonical path)
include hcanon

/-- The rescue branch undoes a run if and only if init_tmp_dir has mounted nothing, the command
that raises has mounted no more than one file system, and the exception is not that of the
realpath behind a successful mount. -/
theorem rescue_undoes_iff {tmpdir : Str} {cookie : Bool} {env : Env}
    {start root before own : List (Turn Op.Answer)} {v₀ v w : Vars} {e : Err}
    (hprepare : Ends (prepare tmpdir cookie env) noVars start (.ok ()) v₀)
    (hroot : Ends (mountRoot env) v₀ root (.ok true) v) (hraises : RaisesIn env v before own e w)
    (hfaith : Faithful canonical (start ++ (root ++ before ++ own))) :
    RescueUndoes canonical table (start ++ (root ++ before ++ own)) w ↔
      mountsMade start = 0 ∧ mountsMade own ≤ 1 ∧ ¬ RealpathRaises own := by
  obtain ⟨cmds, cmd, rest, x, -, hbefore, hraise⟩ := hraises
  have hfaith : Faithful canonical (root ++ before ++ own) := fun path resolved hmem =>
    hfaith path resolved (List.mem_append_right start hmem)
  obtain rfl : v₀ = noVars :=
    keeps_prepare (I := (· = noVars)) tmpdir cookie env noVars [] rfl start (.ok ()) v₀ hprepare
  have hcmds : Triple (Recorded canonical [] []) (cmds.forM (exec env))
      (fun _ => Recorded canonical [] []) fun _ => Lost canonical :=
    .forM _ fun cmd _ => triple_exec hcanon env cmd
  have hx : Recorded canonical [] [] x (root ++ before) :=
    hcmds v root (recorded_mountRoot hcanon hroot) before (.ok ()) x hbefore
  obtain ⟨lost, hmade, hlost⟩ :=
    triple_exec hcanon env cmd x (root ++ before) hx own (.error e) w hraise hfaith
  rw [realpathRaises_append hx.2.1] at hlost
  have hpushed : Between x.mounts.length w ∨ w.mounts.length = x.mounts.length + 1 :=
    triple_exec_raises env cmd x.mounts.length x [] ⟨rfl, hx.1⟩ own (.error e) w hraise
  have hsofar : made canonical (root ++ before) = x.mounts.map canonical := by
    simpa using hx.2.2 hfaith.left
  have hcount : w.mounts.length + w.mirrored.length + lost.length =
      x.mounts.length + mountsMade own := by
    have hlength := congrArg List.length hmade
    rw [made_append, hsofar, List.length_append, made_length] at hlength
    simpa [Nat.add_assoc] using hlength.symm
  rw [← hlost]
  constructor
  · intro h
    have hreverse := h.reverse
    rw [unmounts, List.map_reverse, List.reverse_inj, made_append, hmade] at hreverse
    have hlength := congrArg List.length hreverse
    simp only [List.map_append, List.length_append, List.length_map, made_length] at hlength
    have hle : w.mounts.length ≤ x.mounts.length + 1 := hpushed.elim (fun h => by simp [h.1]) (·.le)
    exact ⟨by omega, by omega, List.length_eq_zero_iff.mp (by omega)⟩
  · rintro ⟨hstart, hown, rfl⟩
    have hmirrored : w.mirrored = [] := by
      obtain hbetween | hone := hpushed
      · exact hbetween.2
      · rw [List.length_nil] at hcount
        exact List.length_eq_zero_iff.mp (by omega)
    have hnone : made canonical start = [] := List.length_eq_zero_iff.mp (by rw [made_length, hstart])
    exact .of_recorded (by rw [made_append, hnone, hmade]; simp [hmirrored])

end Undoes

/-- A world in which LSU_TMPDIR_PATH is set up. -/
def tmpDirThere : ∀ op, Op.Answer op
  | .mountCmd .. => false
  | op => plainWorld [] (fun _ => true) (fun _ => true) op

/-- The set-up up to the home directory. -/
def beforeHome : List Cmd := (setUpCmds plainEnv).dropLast.dropLast

def rootVars : Vars := ⟨[plainEnv.mroot], [], none⟩

def homeVars : Vars :=
  ⟨plainEnv.mroot :: ["proc", "tmp", "var/run", "sys/.sys", "dev/.dev", "dev/fd", "dev/shm",
    "/usr/steam-utils", "usr/share/icons", "usr/share/fonts"].map plainEnv.root, [], none⟩

/-- Two file systems below the home directory, of which one can not be looked up. -/
def homeTable : List MountInfo :=
  [⟨"/home/user/a".toList, "zfs".toList⟩, ⟨"/home/user/b".toList, "zfs".toList⟩]

def unreadable (path : String) : ∀ op, Op.Answer op :=
  plainWorld homeTable (fun _ => true) (· ≠ path.toList)

def startTurns : List (Turn Op.Answer) :=
  turns tmpDirThere (prepare "/tmp/steam".toList true plainEnv) noVars

def rootTurns (path : String) : List (Turn Op.Answer) :=
  turns (unreadable path) (mountRoot plainEnv) noVars

def beforeHomeTurns (path : String) : List (Turn Op.Answer) :=
  turns (unreadable path) (beforeHome.forM (exec plainEnv)) rootVars

def homeTurns (path : String) : List (Turn Op.Answer) :=
  turns (unreadable path) (exec plainEnv .home) homeVars

theorem startTurns_ends :
    Ends (prepare "/tmp/steam".toList true plainEnv) noVars startTurns (.ok ()) noVars :=
  ends_play 100 rfl

theorem run_faithful (path : String) :
    Faithful id (startTurns ++ (rootTurns path ++ beforeHomeTurns path ++ homeTurns path)) := by
  have hstart : Faithful id startTurns := by
    intro p resolved h
    have hturn := eq_of_heq (Sigma.mk.inj (mem_play h)).2
    exact Option.some.inj hturn
  exact hstart.append ((faithful_play.append faithful_play).append faithful_play)

/-- The first of the two can not be looked up: mirror_mounts raises before it has mounted
anything, and the home directory is unmounted with the rest. -/
theorem rescue_undoes_first_unreadable :
    Ends (mountRoot plainEnv) noVars (rootTurns "/home/user/a") (.ok true) rootVars ∧
      ∃ w, RaisesIn plainEnv rootVars (beforeHomeTurns "/home/user/a") (homeTurns "/home/user/a")
          .other w ∧ fileJoin plainEnv.mroot "/home/user".toList ∈ w.mounts ∧
        RescueUndoes id [] (startTurns ++ (rootTurns "/home/user/a" ++
          beforeHomeTurns "/home/user/a" ++ homeTurns "/home/user/a")) w := by
  have hroot : Ends (mountRoot plainEnv) noVars (rootTurns "/home/user/a") (.ok true) rootVars :=
    ends_play 100 rfl
  have hraises : RaisesIn plainEnv rootVars (beforeHomeTurns "/home/user/a")
      (homeTurns "/home/user/a") .other
      ⟨homeVars.mounts ++ [fileJoin plainEnv.mroot "/home/user".toList], [], some homeTable⟩ :=
    ⟨beforeHome, .home, [.statement "ln_s usr/home"], homeVars, rfl, ends_play 100 rfl,
      ends_play 100 rfl⟩
  refine ⟨hroot, _, hraises, by simp, ?_⟩
  refine (rescue_undoes_iff (fun _ => rfl) startTurns_ends hroot hraises (run_faithful _)).mpr
    ⟨by decide, by decide, fun h => ?_⟩
  exact absurd h.before_last (by decide)

/-- The second of the two can not be looked up: the mount of the first is on no list. -/
theorem mirrored_mount_lost :
    Ends (mountRoot plainEnv) noVars (rootTurns "/home/user/b") (.ok true) rootVars ∧
      ∃ w, RaisesIn plainEnv rootVars (beforeHomeTurns "/home/user/b") (homeTurns "/home/user/b")
          .other w ∧
        ¬ RescueUndoes id [] (startTurns ++ (rootTurns "/home/user/b" ++
          beforeHomeTurns "/home/user/b" ++ homeTurns "/home/user/b")) w := by
  have hraises : RaisesIn plainEnv rootVars (beforeHomeTurns "/home/user/b")
      (homeTurns "/home/user/b") .other
      ⟨homeVars.mounts ++ [fileJoin plainEnv.mroot "/home/user".toList],
        [fileJoin plainEnv.mroot "/home/user/a".toList], some homeTable⟩ :=
    ⟨beforeHome, .home, [.statement "ln_s usr/home"], homeVars, rfl, ends_play 100 rfl,
      ends_play 100 rfl⟩
  refine ⟨ends_play 100 rfl, _, hraises, fun h => ?_⟩
  have hlength := congrArg List.length h.reverse
  exact absurd hlength (by decide)

end LSU.MountRuntime
