import LSU.Numerals
import LSU.TopTwo
import LSU.UpgradeRuntime

/-! The clean-up at the end of lsu-upgrade-steam-runtime: which directories steam-runtime_*
it leaves. -/
namespace LSU.PruneRuntimes
open LSU.Numerals LSU.Run LSU.TopTwo LSU.UpgradeRuntime

/-- Number by number. -/
def Higher (v w : Str) : Prop := compareNumbers (numbers v) (numbers w) = .gt

instance (v w : Str) : Decidable (Higher v w) :=
  inferInstanceAs (Decidable (compareNumbers (numbers v) (numbers w) = .gt))

def Event.Cleans : Event → Prop
  | .next => True
  | .remove _ => True
  | _ => False

/-- A clean-up that comes to its end. -/
def CleanedUp (release : Md5 → Release) (fs fs' : FS) : Prop :=
  ∃ es, (∀ e ∈ es, Event.Cleans e) ∧
    run (step release) ⟨fs, .prune (prunable fs)⟩ es = some ⟨fs', .idle⟩

/-- Two versions that no other is higher than, or all there are of fewer. -/
structure Highest (highest versions : List Str) : Prop where
  nodup : highest.Nodup
  subset : highest ⊆ versions
  length : highest.length = min 2 versions.length
  not_higher : ∀ v ∈ versions, v ∉ highest → ∀ w ∈ highest, ¬ Higher v w

/-- Exactly the directories that are neither one of the two highest versions nor the link's
target are gone, and none of them is higher than one that stays without being the target. -/
def KeepsHighest (fs fs' : FS) : Prop :=
  (∃ highest, Highest highest fs.dirs.keys ∧
    ∀ v, v ∈ fs'.dirs ↔ v ∈ fs.dirs ∧ (v ∈ highest ∨ fs.link = .symlink v)) ∧
  ∀ v ∈ fs.dirs, v ∉ fs'.dirs → ∀ w ∈ fs'.dirs, fs.link ≠ .symlink w → ¬ Higher v w

variable {release : Md5 → Release}

theorem mem_setDir {fs : FS} {v : Str} {d : Dir} (hd : fs.dirs.lookup v = some d) (d' : Dir)
    (w : Str) : w ∈ (fs.setDir v d').dirs ↔ w ∈ fs.dirs := by
  have hv : v ∈ fs.dirs := by
    rw [← AList.lookup_isSome, hd]
    rfl
  rw [FS.setDir, AList.mem_insert]
  constructor
  · rintro (rfl | hw)
    · exact hv
    · exact hw
  · exact Or.inr

/-- A clean-up removes the directories it starts with, and no others. -/
theorem cleaned_dirs {es : List Event} {fs fs' : FS} {dirs : List Str}
    (hes : ∀ e ∈ es, Event.Cleans e)
    (hrun : run (step release) ⟨fs, .prune dirs⟩ es = some ⟨fs', .idle⟩) (v : Str) :
    v ∈ fs'.dirs ↔ v ∈ fs.dirs ∧ v ∉ dirs := by
  induction es generalizing fs dirs with
  | nil => cases hrun
  | cons e es ih =>
    rw [List.forall_mem_cons] at hes
    obtain ⟨t, hstep, hrun⟩ := run_cons.mp hrun
    cases step_effect hstep with
    | stop => exact hes.1.elim
    | pruneEntry entry hd =>
      rw [ih hes.2 hrun, mem_setDir hd]
    | pruned =>
      rw [ih hes.2 hrun, AList.mem_erase, List.mem_cons]
      tauto
    | finished =>
      cases es with
      | nil =>
        obtain rfl : fs = fs' := by simpa using hrun
        simp
      | cons e' es =>
        -- an idle run takes no event of a clean-up
        rw [List.forall_mem_cons] at hes
        obtain ⟨t, hidle, -⟩ := run_cons.mp hrun
        cases step_effect hidle with
        | steam => exact hes.2.1.elim
        | start => exact hes.2.1.elim
        | stop => exact hes.2.1.elim

/-- Its files removed one by one, a directory has what others remain of it. -/
theorem remove_files (release : Md5 → Release) (dirs : List Str) (files : List String) {fs : FS}
    {v : Str} {d : Dir} (hd : fs.dirs.lookup v = some d) :
    ∃ fs', run (step release) ⟨fs, .prune (v :: dirs)⟩
        (files.map fun file => .remove (some file)) = some ⟨fs', .prune (v :: dirs)⟩ ∧
      fs'.dirs.lookup v = some { d with files := d.files.filter (· ∉ files) } ∧
      ∀ w, w ∈ fs'.dirs ↔ w ∈ fs.dirs := by
  induction files generalizing fs d with
  | nil => exact ⟨fs, rfl, by simpa using hd, fun w => Iff.rfl⟩
  | cons file files ih =>
    have hone : (fs.setDir v (d.remove (some file))).dirs.lookup v =
        some (d.remove (some file)) := AList.lookup_insert _
    obtain ⟨fs', hrun, hlook, hmem⟩ := ih hone
    refine ⟨fs', ?_, ?_, fun w => (hmem w).trans (mem_setDir hd _ w)⟩
    · rw [List.map_cons, run_cons]
      refine ⟨_, ?_, hrun⟩
      simp [step, hd]
    · rw [hlook]
      simp [Dir.remove, List.filter_filter, List.mem_cons, not_or, Bool.and_comm]

/-- A clean-up of directories that are there can come to its end. -/
theorem cleans_up (release : Md5 → Release) {dirs : List Str} {fs : FS} (hnodup : dirs.Nodup)
    (hin : ∀ v ∈ dirs, v ∈ fs.dirs) :
    ∃ es fs', (∀ e ∈ es, Event.Cleans e) ∧
      run (step release) ⟨fs, .prune dirs⟩ es = some ⟨fs', .idle⟩ := by
  induction dirs generalizing fs with
  | nil => exact ⟨[.next], fs, by simp [Event.Cleans], rfl⟩
  | cons v dirs ih =>
    rw [List.nodup_cons] at hnodup
    rw [List.forall_mem_cons] at hin
    obtain ⟨d, hd⟩ := Option.isSome_iff_exists.mp (AList.lookup_isSome.mpr hin.1)
    obtain ⟨fs₁, hfiles, hlook, hmem⟩ := remove_files release dirs d.files hd
    have hempty : d.files.filter (· ∉ d.files) = [] := by
      rw [List.filter_eq_nil_iff]
      simp
    rw [hempty] at hlook
    -- the checksum file goes last, and then the directory itself
    obtain ⟨fs₂, hfs₂⟩ : ∃ fs₂, fs₂ = fs₁.setDir v ⟨[], none⟩ := ⟨_, rfl⟩
    have hgone : fs₂.dirs.lookup v = some ⟨[], none⟩ := hfs₂ ▸ AList.lookup_insert _
    have hdirs : ∀ w ∈ dirs, w ∈ fs₂.dirs.erase v := by
      intro w hw
      rw [AList.mem_erase, hfs₂, mem_setDir hlook, hmem]
      exact ⟨fun heq => hnodup.1 (heq ▸ hw), hin.2 w hw⟩
    obtain ⟨es, fs', hes, hrun⟩ := @ih { fs₂ with dirs := fs₂.dirs.erase v } hnodup.2 hdirs
    refine ⟨d.files.map (fun file => .remove (some file)) ++ .remove none :: .next :: es, fs',
      ?_, ?_⟩
    · simp only [List.mem_append, List.mem_map, List.mem_cons]
      rintro e (⟨file, -, rfl⟩ | rfl | rfl | he)
      · trivial
      · trivial
      · trivial
      · exact hes e he
    · rw [run_append, hfiles, Option.bind_some, run_cons]
      refine ⟨⟨fs₂, .prune (v :: dirs)⟩, ?_, ?_⟩
      · simp [step, hlook, hfs₂, Dir.remove]
      · rw [run_cons]
        exact ⟨_, by simp [step, hgone], hrun⟩

theorem mem_prunable {fs : FS} {v : Str} :
    v ∈ prunable fs ↔
      (v ∈ fs.dirs ∧ 2 ≤ above fs.dirs.keys v) ∧ fs.link ≠ .symlink v := by
  rw [AList.mem_keys, ← mem_below fs.dirs.keys_nodup, prunable, List.mem_filter,
    decide_eq_true_eq]
  rfl

theorem prunable_nodup (fs : FS) : (prunable fs).Nodup := (below_nodup fs.dirs.keys_nodup).filter _

/-- What stays has fewer than two others behind it as texts, or the link leads to it. -/
theorem cleanedUp_dirs {fs fs' : FS} (h : CleanedUp release fs fs') (v : Str) :
    v ∈ fs'.dirs ↔ v ∈ fs.dirs ∧ (v ∈ top fs.dirs.keys ∨ fs.link = .symlink v) := by
  obtain ⟨es, hes, hrun⟩ := h
  rw [cleaned_dirs hes hrun, mem_prunable, mem_top, ← AList.mem_keys]
  by_cases hlink : fs.link = .symlink v
  · simp [hlink]
  · simp only [hlink, ne_eq, not_false_eq_true, and_true, or_false]
    constructor
    · rintro ⟨hv, hnot⟩
      exact ⟨hv, hv, by by_contra hge; exact hnot ⟨hv, by omega⟩⟩
    · rintro ⟨hv, -, hlt⟩
      exact ⟨hv, fun hge => by omega⟩

theorem cleanedUp_exists (release : Md5 → Release) (fs : FS) : ∃ fs', CleanedUp release fs fs' := by
  obtain ⟨es, fs', hes, hrun⟩ := cleans_up release (prunable_nodup fs)
    fun v hv => (mem_prunable.mp hv).1.1
  exact ⟨fs', es, hes, hrun⟩

/-- The directories that stay leave one choice of the two highest. -/
theorem KeepsHighest.top_highest {fs fs' : FS} (hclean : CleanedUp release fs fs')
    (h : KeepsHighest fs fs') : Highest (top fs.dirs.keys) fs.dirs.keys := by
  obtain ⟨⟨highest, hhigh, hmem⟩, -⟩ := h
  have hkeys := fs.dirs.keys_nodup
  have hagree : ∀ v, fs.link ≠ .symlink v → (v ∈ highest ↔ v ∈ top fs.dirs.keys) := by
    intro v hlink
    have hboth := (hmem v).symm.trans (cleanedUp_dirs hclean v)
    simp only [hlink, or_false] at hboth
    constructor
    · intro hv
      exact (hboth.mp ⟨AList.mem_keys.mpr (hhigh.subset hv), hv⟩).2
    · intro hv
      exact (hboth.mpr ⟨AList.mem_keys.mpr (mem_top.mp hv).1, hv⟩).2
  have hsame : ∀ v, v ∈ highest ↔ v ∈ top fs.dirs.keys := by
    intro v
    by_cases hlink : fs.link = .symlink v
    · apply mem_iff_of_agree hhigh.nodup (hkeys.filter _)
      · rw [hhigh.length]
        exact (top_length hkeys).symm
      · intro w hw
        apply hagree
        rw [hlink]
        exact fun heq => hw (Link.symlink.inj heq).symm
    · exact hagree v hlink
  refine ⟨hkeys.filter _, fun v hv => (mem_top.mp hv).1, top_length hkeys, ?_⟩
  intro v hv hnot w hw
  rw [← hsame] at hnot hw
  exact hhigh.not_higher v hv hnot w hw

/-- The clean-up keeps two highest versions and the link's target, if and only if no version
with at least two others behind it as texts is higher than one that has fewer. -/
theorem prune_keeps_highest_iff (release : Md5 → Release) (fs : FS) :
    (∀ fs', CleanedUp release fs fs' → KeepsHighest fs fs') ↔
      ∀ v ∈ fs.dirs.keys, ∀ w ∈ fs.dirs.keys, 2 ≤ above fs.dirs.keys v →
        above fs.dirs.keys w < 2 → ¬ Higher v w := by
  constructor
  · intro h v hv w hw htwo hfew
    obtain ⟨fs', hclean⟩ := cleanedUp_exists release fs
    apply ((h fs' hclean).top_highest hclean).not_higher v hv
    · rw [mem_top]
      omega
    · exact mem_top.mpr ⟨hw, hfew⟩
  · intro h fs' hclean
    have hkept := cleanedUp_dirs hclean
    have hhigh : Highest (top fs.dirs.keys) fs.dirs.keys := by
      refine ⟨fs.dirs.keys_nodup.filter _, fun v hv => (mem_top.mp hv).1,
        top_length fs.dirs.keys_nodup, ?_⟩
      intro v hv hnot w hw
      rw [mem_top] at hnot hw
      exact h v hv w hw.1 (by by_contra hlt; exact hnot ⟨hv, by omega⟩) hw.2
    refine ⟨⟨top fs.dirs.keys, hhigh, hkept⟩, ?_⟩
    intro v hv hgone w hw hlink
    rw [hkept] at hgone hw
    apply hhigh.not_higher v (AList.mem_keys.mp hv)
    · exact fun hin => hgone ⟨hv, Or.inl hin⟩
    · exact hw.2.resolve_right hlink

/-- Three versions of which the second number has grown a digit. -/
def grown : FS where
  archive := none
  checksum := none
  dirs := ((AList.singleton "0.9".toList ⟨[], none⟩).insert "0.10".toList ⟨[], none⟩).insert
    "0.11".toList ⟨[], none⟩
  link := .symlink "0.11".toList

/-- As a text 0.10 stands before 0.9, and it is what goes. -/
theorem newer_runtime_pruned :
    ∃ fs', CleanedUp scoutRelease grown fs' ∧ ¬ KeepsHighest grown fs' := by
  have hrun : run (step scoutRelease) ⟨grown, .prune (prunable grown)⟩ [.next, .next] =
      some ⟨{ grown with dirs := grown.dirs.erase "0.10".toList }, .idle⟩ := by
    rfl
  refine ⟨_, ⟨[.next, .next], by simp [Event.Cleans], hrun⟩, ?_⟩
  rintro ⟨-, hnone⟩
  apply hnone "0.10".toList (by decide) (by decide) "0.9".toList (by decide) (by decide)
  decide

end LSU.PruneRuntimes
