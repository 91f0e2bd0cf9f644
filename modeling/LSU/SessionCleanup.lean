import LSU.Session

/-! What the sessions of bin/steam leave mounted in LSU_TMPDIR_PATH, and on what. -/
namespace LSU.Session
open LSU.Run LSU.Mounts LSU.UserDirs LSU.MirrorMounts LSU.Sweep LSU.Umount

section Runs
variable {kernel : Kernel} {user : Str} {dir : List Component} {s t : State} {e : Event}

/-! Runs in which lsu-umount and the tools keep apart. -/

def Pc.checks : Pc → Bool
  | .check _ => true
  | _ => false

/-- lsu-umount begins when no tool is at work, and no tool begins before it ends. -/
def Alone (dir : List Component) (s : State) : Event → Prop
  | .go => s.pc.checks = true → readTmpDirCookie dir s.table = true → s.tools = 0
  | .enter => s.pc.pending = []
  | _ => True

instance (dir : List Component) (s : State) (e : Event) : Decidable (Alone dir s e) :=
  match e with
  | .go => inferInstanceAs (Decidable (_ → _ → _))
  | .enter => inferInstanceAs (Decidable (_ = _))
  | .start | .done _ | .exit _ | .signal | .stop | .tmpfs | .writeCookie | .writeSetupDone
  | .leave | .mount _ | .rescue _ | .unmount _ | .wait => isTrue trivial

/-- While a tool is at work the tmpfs is there, and set up. -/
structure Safe (user : Str) (dir : List Component) (s : State) : Prop where
  inv : Inv user dir s
  anchored : Anchored user dir s.table
  idle : 0 < s.tools → s.pc.pending = []
  ready : 0 < s.tools → (tmpfsAt dir s.table).any Entry.setupDone = true

/-- While lsu-umount has something to try, no tool is at work. -/
theorem Safe.no_tools (h : Safe user dir s) {path : Str} {rest : List Str}
    (hpending : s.pc.pending = path :: rest) : ¬ 0 < s.tools := by
  intro htools
  rw [h.idle htools] at hpending
  cases hpending

/-- The tmpfs that is found, and that it is set up, is kept by a table that has it still. -/
theorem Safe.ready_of_mem (h : Safe user dir s) {table : List Entry}
    (htable : TableInv user dir table)
    (hkeep : ∀ x ∈ s.table, x.mount.path = dir → x ∈ table) (htools : 0 < s.tools) :
    (tmpfsAt dir table).any Entry.setupDone = true := by
  obtain ⟨x, hx, hset⟩ := (Option.any_eq_true _ _).mp (h.ready htools)
  obtain ⟨hmem, hdir⟩ := tmpfsAt_some hx
  rw [htable.tmpfsAt_eq (hkeep x hmem hdir) hdir]
  exact hset

theorem Safe.step (h : Safe user dir s) (hkernel : kernel.Obeys user) (hrefuses : kernel.Refuses)
    (halone : Alone dir s e) (hstep : Session.step kernel user dir s e = some t) :
    Safe user dir t := by
  have hinv := h.inv.step hkernel hstep
  cases step_effect hstep with
  | move pc hpc => exact ⟨hinv, h.anchored, fun _ => hpc, h.ready⟩
  | begin next hpc hcookie =>
    have htools : s.tools = 0 := halone (by rw [hpc]; rfl) hcookie
    exact ⟨hinv, h.anchored, fun hpos => absurd htools hpos.ne',
      fun hpos => absurd htools hpos.ne'⟩
  | attempt force path rest next hpending =>
    have htools := h.no_tools hpending
    exact ⟨hinv, h.anchored.taken hkernel hrefuses s.now force path,
      fun hpos => absurd hpos htools, fun hpos => absurd hpos htools⟩
  | again path rest next hpc =>
    have htools := h.no_tools (show s.pc.pending = path :: rest by rw [hpc, Pc.pending])
    exact ⟨hinv, h.anchored, fun hpos => absurd hpos htools, fun hpos => absurd hpos htools⟩
  | tmpfs hnone =>
    refine ⟨hinv, h.anchored.tmpfs hnone, h.idle, fun htools => ?_⟩
    have hready := h.ready htools
    rw [hnone] at hready
    cases hready
  | write f hmount _ hset hnew =>
    refine ⟨hinv, h.anchored.update hmount hset, h.idle, fun htools => ?_⟩
    -- init_tmp_dir writes only where no tool is at work yet
    obtain ⟨x, hx, hdone⟩ := (Option.any_eq_true _ _).mp hnew
    have hready := h.ready htools
    rw [hx, Option.any_some] at hready
    simp [hready] at hdone
  | enter hready => exact ⟨hinv, h.anchored, fun _ => halone, fun _ => hready⟩
  | leave hpos => exact ⟨hinv, h.anchored, fun _ => h.idle hpos, fun _ => h.ready hpos⟩
  | mount m hmay =>
    obtain ⟨hup, hin⟩ := mayMount_iff.mp hmay
    refine ⟨hinv, ?_, h.idle, fun htools => ?_⟩
    · exact h.anchored.mount hup fun huser hpre => h.ready (hin huser hpre)
    · exact h.ready_of_mem hinv.table (fun x hx _ => List.mem_append_left _ hx) htools
  | rescue path hpath =>
    refine ⟨hinv, h.anchored.taken hkernel hrefuses s.now true (pathText path), h.idle,
      fun htools => ?_⟩
    refine h.ready_of_mem hinv.table (fun x hx hdir => ?_) htools
    exact mem_taken hkernel hx (node_ne hdir hpath)
  | unmount place hother =>
    refine ⟨hinv, ?_, h.idle, fun htools => ?_⟩
    · obtain ⟨x, hx, hforeign⟩ := (Option.any_eq_true _ _).mp hother
      obtain ⟨u, v, htable, herase⟩ := eraseIdx_split hx
      have hanchored := h.anchored
      rw [htable] at hanchored
      rw [herase]
      refine hanchored.erased fun hdir => ?_
      have hown := h.inv.table.owner x (List.mem_of_getElem? hx) hdir
      simp [mine, hown] at hforeign
    · refine h.ready_of_mem hinv.table (fun x hx hdir => ?_) htools
      exact mem_eraseIdx hother hx (h.inv.table.owner x hx hdir)
  | wait => exact ⟨hinv, h.anchored, h.idle, h.ready⟩

/-- A tool that init_tmp_dir has returned to mounts its runtime when bin/steam has unmounted the
tmpfs. -/
theorem orphaned_beside_umount :
    ∃ s, run (Session.step strictly you steamTmp) (start varOnly 0)
        [.tmpfs, .writeCookie, .writeSetupDone, .enter, .start, .go, .go, .mount ⟨you, soldier⟩] =
          some s ∧
      ⟨⟨you, soldier⟩, false, false⟩ ∈ s.table ∧ ∀ t ∈ s.table, t.mount.path ≠ steamTmp :=
  ⟨_, rfl, by simp [varOnly], by decide⟩

/-! A run of lsu-umount that nothing disturbs. -/

end Runs

end LSU.Session
