import LSU.WineSetUp

/-! set_up of the FreeBSD Wine tool builds the same directory however often it was stopped, as
long as it was not stopped in the middle of something it takes for done afterwards. -/
namespace LSU.WineSetUp
open LSU.Resume LSU.Resume.Job LSU.FileTree LSU.FileJobs LSU.Mounts

namespace Installed
variable (i : Installed)

/-- The copy of a file in PROTON_DIR. -/
def copy (name : Name) : Option (Str × Mode) :=
  (i.source name).map fun file => (file.1, file.2 &&& ~~~i.umask)

/-- What the script is to be. -/
def script : Option (Str × Mode) :=
  ((i.source "proton".toList).bind fun file => i.hijack file.1).map fun str => (str, 0o700)

/-- What exists of the things that are not made by a single operation is finished. -/
structure Whole (t : Files) : Prop where
  copied : ∀ name ∈ copiedFiles, ∀ text mode,
    t.node (i.proton ++ [name]) = some (.file text mode) → i.copy name = some (text, mode)
  proton : ∀ text mode, t.node (i.inProton "proton") = some (.file text mode) →
    i.script = some (text, mode)
  bin : t.exist i.outside (i.filesTmp ++ ["bin".toList]) = true → ∀ name ∈ i.binNames,
    (t.node (i.filesTmp ++ ["bin".toList] ++ [name])).isSome
  binWow64 : i.version.toI = 10 →
    t.exist i.outside (i.filesTmp ++ ["bin-wow64".toList]) = true → ∀ name ∈ i.binWow64Names,
      (t.node (i.filesTmp ++ ["bin-wow64".toList] ++ [name])).isSome

/-- Not in files.tmp, which is renamed. -/
def Kept (q : Path) : Prop := ¬ i.filesTmp <+: q

end Installed

open Installed
variable {i : Installed} {s t u : Files}

theorem kept_of_length {p : Path} (h : p.length < i.filesTmp.length) :
    ∀ q, q <+: p → i.Kept q := by
  intro q hq hpre
  have hlength := (hpre.trans hq).length_le
  omega

theorem kept_inProton {name : Name} (h : name ≠ "files.tmp".toList) :
    ∀ q, q <+: i.proton ++ [name] → i.Kept q := by
  intro q hq hpre
  have hlength : i.filesTmp.length = (i.proton ++ [name]).length := by
    simp [filesTmp, inProton]
  have heq := (hpre.trans hq).eq_of_length hlength
  exact h (List.singleton_injective (List.append_cancel_left heq)).symm

theorem copiedFiles_ne {name : Name} (h : name ∈ copiedFiles) : name ≠ "files.tmp".toList := by
  intro heq
  rw [heq] at h
  exact absurd h (by decide)

theorem proton_name_ne : "proton".toList ≠ "files.tmp".toList := by decide

theorem files_name_ne : "files".toList ≠ "files.tmp".toList := by decide

theorem kept_freeBSDProton : ∀ q, q <+: freeBSDProton → i.Kept q := by
  apply kept_of_length
  simp [filesTmp, inProton, proton, freeBSDProton]

theorem kept_proton : ∀ q, q <+: i.proton → i.Kept q := by
  apply kept_of_length
  simp [filesTmp, inProton]

/-- A file is copied whole. -/
theorem result_cp {name : Name} {p : Path} :
    (i.cp name p).result s = some u ↔ ∃ file, i.copy name = some file ∧
      ∃ mode, OpensWith p file.2 s mode ∧
        u.node = Function.update s.node p (some (.file file.1 mode)) := by
  cases hsource : i.source name with
  | none => simp [cp, copy, hsource, result]
  | some file => simp [cp, copy, hsource, result_writeFile]

theorem stops_cp {name : Name} {p : Path} (ht : t ∈ (i.cp name p).stops s) :
    t = s ∨ ∃ file, i.copy name = some file ∧ ∃ mode pre, OpensWith p file.2 s mode ∧
      t.node = Function.update s.node p (some (.file pre mode)) := by
  cases hsource : i.source name with
  | none =>
    rw [cp, hsource] at ht
    exact Or.inl (List.mem_singleton.mp ht)
  | some file =>
    rw [cp, hsource] at ht
    obtain hsame | hwrite := stops_writeFile ht
    · exact Or.inl hsame
    · exact Or.inr ⟨_, by rw [copy, hsource]; rfl, hwrite⟩

theorem cp_again {name : Name} {p : Path} (ht : t ∈ (i.cp name p).stops s)
    (hu : (i.cp name p).result t = some u) : (i.cp name p).result s = some u := by
  cases hsource : i.source name with
  | none =>
    rw [cp, hsource] at hu
    cases hu
  | some file =>
    rw [cp, hsource] at ht hu ⊢
    exact writeFile_again ht hu

theorem stays_cp {R : Files → Files → Prop} [Std.Refl R] {name : Name} {p : Path}
    (h : ∀ mode text, Stays R (writeFile p mode text : SetUp)) : Stays R (i.cp name p) := by
  unfold cp
  split
  · exact h _ _
  · exact stays_raise

theorem resumable_setUpCopy {name : Name} (hname : name ∈ copiedFiles) :
    Resumable (Grows i.Kept) i.Whole (i.setUpCopy name) := by
  apply Resumable.setUpFile (kept_inProton (copiedFiles_ne hname))
  · intro s t u ht _ _ hu
    exact cp_again (mem_stops_note.mp ht) hu
  · intro s t hs ht hwhole hexist
    obtain rfl | ⟨file, hcopy, mode, pre, hopens, hnode⟩ := stops_cp (mem_stops_note.mp ht)
    · rw [hs] at hexist
      cases hexist
    · have hfile : t.node (i.proton ++ [name]) = some (.file pre mode) := by
        rw [hnode, Function.update_self]
      obtain rfl := Option.some.inj ((hwhole.copied name hname pre mode hfile).symm.trans hcopy)
      exact result_cp.mpr ⟨(pre, mode), hcopy, mode, hopens, hnode⟩
  · exact Stays.seq (stays_note _) (stays_cp fun mode text => grows_writeFile)

/-! The script. -/

theorem readText_update {p : Path} {text : Str} {mode : Mode}
    (hnode : u.node = Function.update s.node p (some (.file text mode))) :
    readText u p = some text := by
  rw [readText, hnode, Function.update_self]

theorem result_chmod {p : Path} {text : Str} {mode mode' : Mode}
    (hs : s.node p = some (.file text mode)) :
    (chmod p mode').result s = some u ↔
      u.node = Function.update s.node p (some (.file text mode')) := by
  obtain ⟨r, hr, hnode⟩ := edit_file (f := fun text _ => (text, mode')) hs
  rw [chmod, result, hr, Option.some_inj]
  constructor
  · rintro rfl
    exact hnode
  · intro hu
    exact Tree.ext (hnode.trans hu.symm)

theorem result_writeProton {str : Str} :
    (i.writeProton str).result s = some u ↔
      ∃ mode, OpensWith (i.inProton "proton") (0o666 &&& ~~~i.umask) s mode ∧
        u.node = Function.update s.node (i.inProton "proton") (some (.file str 0o700)) := by
  have hchmod : ∀ {r : Files} {mode : Mode},
      r.node = Function.update s.node (i.inProton "proton") (some (.file str mode)) →
      ((chmod (i.inProton "proton") 0o700).result r = some u ↔
        u.node = Function.update s.node (i.inProton "proton") (some (.file str 0o700))) := by
    intro r mode hr
    have hfile : r.node (i.inProton "proton") = some (.file str mode) := by
      rw [hr, Function.update_self]
    rw [result_chmod hfile, hr, Function.update_idem]
  refine result_seq.trans ⟨?_, ?_⟩
  · intro ⟨r, hwrite, hmode⟩
    obtain ⟨mode, hopens, hr⟩ := result_writeFile.mp hwrite
    exact ⟨mode, hopens, (hchmod hr).mp hmode⟩
  · intro ⟨mode, hopens, hu⟩
    obtain ⟨r, hwrite, hr⟩ := result_writeFile_opens (α := SetupState) str hopens
    exact ⟨r, hwrite, (hchmod hr).mpr hu⟩

theorem stops_writeProton {str : Str} (ht : t ∈ (i.writeProton str).stops s) :
    t = s ∨ ∃ mode pre mode', OpensWith (i.inProton "proton") (0o666 &&& ~~~i.umask) s mode ∧
      t.node = Function.update s.node (i.inProton "proton") (some (.file pre mode')) := by
  obtain hstop | ⟨r, hwrite, hstop⟩ := mem_stops_seq.mp ht
  · obtain hsame | ⟨mode, pre, hopens, hnode⟩ := stops_writeFile hstop
    · exact Or.inl hsame
    · exact Or.inr ⟨mode, pre, mode, hopens, hnode⟩
  · obtain ⟨mode, hopens, hr⟩ := result_writeFile.mp hwrite
    obtain rfl | hchmod := mem_stops_op.mp hstop
    · exact Or.inr ⟨mode, str, mode, hopens, hr⟩
    · have hwhole := result_writeProton.mp (result_seq.mpr ⟨r, hwrite, hchmod⟩)
      obtain ⟨mode, hopens, hnode⟩ := hwhole
      exact Or.inr ⟨mode, str, 0o700, hopens, hnode⟩

/-- The script is written if its copy can be read and has all that is replaced. -/
theorem stops_hijackProton (ht : t ∈ i.hijackProton.stops s) :
    t = s ∨ ∃ str, (readText s (i.inProton "proton.bak")).bind i.hijack = some str ∧
      i.hijackProton.result s = (i.writeProton str).result s ∧ t ∈ (i.writeProton str).stops s := by
  cases hstr : (readText s (i.inProton "proton.bak")).bind i.hijack with
  | none =>
    apply Or.inl
    simpa [hijackProton, stops, hstr] using ht
  | some str =>
    refine Or.inr ⟨str, rfl, ?_, ?_⟩
    · simp [hijackProton, result, hstr]
    · simpa [hijackProton, stops, hstr] using ht

theorem exist_of_file {p : Path} {text : Str} {mode : Mode}
    (hnode : t.node = Function.update s.node p (some (.file text mode))) :
    t.exist i.outside p = true := by
  rw [Tree.exist, hnode, Function.update_self]
  rfl

/-- Until the script exists only its copy has changed. -/
theorem stops_setUpProton_open (ht : t ∈ (seq (i.cp "proton".toList (i.inProton "proton.bak"))
      i.hijackProton).stops s) (hexist : t.exist i.outside (i.inProton "proton") = false) :
    t ∈ (i.cp "proton".toList (i.inProton "proton.bak")).stops s := by
  obtain hstop | ⟨r, hr, hstop⟩ := mem_stops_seq.mp ht
  · exact hstop
  · obtain rfl | ⟨str, -, -, hwrite⟩ := stops_hijackProton hstop
    · exact result_mem_stops hr
    · obtain rfl | ⟨mode, pre, mode', hopens, hnode⟩ := stops_writeProton hwrite
      · exact result_mem_stops hr
      · rw [exist_of_file hnode] at hexist
        cases hexist

theorem changes_cp {name : Name} {p : Path} : Stays (Changes (· = p)) (i.cp name p) :=
  stays_cp fun _ _ => changes_writeFile rfl

theorem grows_hijackProton : Stays (Grows i.Kept) i.hijackProton := by
  intro s t ht
  obtain rfl | ⟨str, -, -, hwrite⟩ := stops_hijackProton ht
  · exact Grows.refl _ t
  · refine Stays.seq grows_writeFile (stays_op fun s t h => ?_) s t hwrite
    exact edit_grows h

/-- A whole script behind the copy is what the run was to write. -/
theorem hijackProton_done {r : Files} {file : Str × Mode} {mode : Mode}
    (hfile : i.source "proton".toList = some file)
    (hcopy : r.node = Function.update s.node (i.inProton "proton.bak") (some (.file file.1 mode)))
    (ht : t ∈ i.hijackProton.stops r) (hne : t ≠ r) (hwhole : i.Whole t) :
    i.hijackProton.result r = some t := by
  obtain hsame | ⟨str, hstr, hresult, hwrite⟩ := stops_hijackProton ht
  · exact absurd hsame hne
  · rw [hresult]
    obtain hsame | ⟨m, pre, m', hopens, hnode⟩ := stops_writeProton hwrite
    · exact absurd hsame hne
    · have hproton : t.node (i.inProton "proton") = some (.file pre m') := by
        rw [hnode, Function.update_self]
      have hscript := hwhole.proton pre m' hproton
      rw [readText_update hcopy] at hstr
      have htext : i.script = some (str, 0o700) := by
        rw [script, hfile]
        exact congrArg (Option.map fun str => (str, 0o700)) hstr
      obtain ⟨rfl, rfl⟩ := Prod.mk.inj (Option.some.inj (hscript.symm.trans htext))
      exact result_writeProton.mpr ⟨m, hopens, hnode⟩

theorem resumable_setUpProton : Resumable (Grows i.Kept) i.Whole i.setUpProton := by
  have hkept : ∀ q, q <+: i.inProton "proton" → i.Kept q := kept_inProton proton_name_ne
  have hbak : i.inProton "proton" ≠ i.inProton "proton.bak" := by
    intro h
    exact absurd (List.singleton_injective (List.append_cancel_left h)) (by decide)
  apply Resumable.setUpFile hkept
  · intro s t u ht _ hexist hu
    rw [result_note] at hu ⊢
    have hcp := stops_setUpProton_open (mem_stops_note.mp ht) hexist
    obtain ⟨r, hr, hrest⟩ := result_seq.mp hu
    exact result_seq.mpr ⟨r, cp_again hcp hr, hrest⟩
  · intro s t hs ht hwhole hexist
    rw [result_note]
    have hcopy : ∀ {r}, r ∈ (i.cp "proton".toList (i.inProton "proton.bak")).stops s → t ≠ r := by
      rintro r hr rfl
      rw [(changes_cp s t hr).exist_eq hbak, hs] at hexist
      cases hexist
    obtain hstop | ⟨r, hr, hstop⟩ := mem_stops_seq.mp (mem_stops_note.mp ht)
    · exact absurd rfl (hcopy hstop)
    · have hne := hcopy (result_mem_stops hr)
      obtain ⟨file, hfile, mode, -, hnode⟩ := result_cp.mp hr
      obtain ⟨source, hsource, rfl⟩ := Option.map_eq_some_iff.mp hfile
      exact result_seq.mpr ⟨r, hr, hijackProton_done hsource hnode hstop hne hwhole⟩
  · refine Stays.seq (stays_note _) ?_
    exact Stays.seq (stays_cp fun _ _ => grows_writeFile) grows_hijackProton

/-! files.tmp -/

/-- Within files.tmp nothing is ever removed. -/
abbrev Everywhere : Path → Prop := fun _ => True

theorem resumable_linkPath (path : Path) :
    Resumable (Grows Everywhere) i.Whole (i.linkPath path) := by
  have hshorter : ¬ (i.filesTmp ++ path).length < (i.filesTmp ++ path).length := Nat.lt_irrefl _
  apply resumable_placeMissing (D := fun q => q.length < (i.filesTmp ++ path).length)
    (fun _ _ => trivial) (resumable_mkdirP fun _ _ => trivial) _ hshorter
  apply changes_mkdirP
  intro q _ hq
  have hlength := hq.length_le
  simp only [List.length_dropLast, List.length_cons, Nat.add_sub_cancel] at hlength
  simp only [filesTmp, inProton, List.length_append, List.length_singleton]
  omega

theorem resumable_linkMissing (dir : Path) (source : Str) (names : List Name) :
    Resumable (Grows Everywhere) i.Whole (i.linkMissing dir source names) := by
  apply Resumable.seq (resumable_require _)
  apply resumable_each
  intro name _
  exact resumable_placeMissing (D := fun _ => False) (fun _ _ => trivial) (resumable_note _)
    (stays_note _) id

theorem resumable_fillBin (name : Name) (source : Str) (names : List Name) :
    Resumable (Grows Everywhere) i.Whole (i.fillBin name source names) := by
  have hmkdir : Resumable (Grows Everywhere) i.Whole
      (mkdirP i.outside i.proton ["files.tmp".toList, name] : SetUp) :=
    resumable_mkdirP fun _ _ => trivial
  have hlinks : Resumable (Grows Everywhere) i.Whole
      (each names (ln (i.filesTmp ++ [name]) source)) :=
    resumable_each names fun _ _ => resumable_place trivial
  exact (resumable_note _).seq (hmkdir.seq ((resumable_require _).seq hlinks))

theorem filesTmp_concat (i : Installed) (name : Name) :
    i.filesTmp ++ [name] = i.proton ++ ["files.tmp".toList, name] := by
  simp [filesTmp, inProton]

/-- The directory that mkdir_p makes is empty. -/
theorem mkdirP_empty {r : Files} {name : Name}
    (hs : s.exist i.outside (i.filesTmp ++ [name]) = false)
    (hr : (mkdirP i.outside i.proton ["files.tmp".toList, name] : SetUp).result s = some r)
    (n : Name) : r.node (i.filesTmp ++ [name] ++ [n]) = none := by
  have hfree : s.node (i.filesTmp ++ [name] ++ [n]) = none := by
    by_contra hsome
    have hdir := s.parent _ n (Option.isSome_iff_ne_none.mpr hsome)
    rw [exist_of_directory_node hdir] at hs
    cases hs
  have hchanges : Stays (Changes fun q => q.length ≤ (i.filesTmp ++ [name]).length)
      (mkdirP i.outside i.proton ["files.tmp".toList, name] : SetUp) := by
    apply changes_mkdirP
    intro q _ hq
    have hlength := hq.length_le
    rw [filesTmp_concat, List.length_append, List.length_append]
    exact Nat.add_le_add_left hlength _
  obtain hsame | ⟨hle, _⟩ := hchanges s r (result_mem_stops hr) (i.filesTmp ++ [name] ++ [n])
  · rw [hsame, hfree]
  · rw [List.length_append, List.length_singleton] at hle
    omega

/-- The directory with all its links is finished. -/
theorem fillBin_done {name : Name} {source : Str} {names : List Name} (hnodup : names.Nodup)
    (hs : s.exist i.outside (i.filesTmp ++ [name]) = false)
    (ht : t ∈ (i.fillBin name source names).stops s)
    (hexist : t.exist i.outside (i.filesTmp ++ [name]) = true)
    (hthere : ∀ n ∈ names, (t.node (i.filesTmp ++ [name] ++ [n])).isSome) :
    (i.fillBin name source names).result s = some t := by
  have hmade : ∀ {r}, (mkdirP i.outside i.proton ["files.tmp".toList, name] : SetUp).result s =
      some r → t ∈ (each names (ln (i.filesTmp ++ [name]) source)).stops r →
      (i.fillBin name source names).result s = some t := by
    intro r hr hstop
    have hdir : r.directory i.outside (i.filesTmp ++ [name]) = true := by
      rw [filesTmp_concat]
      exact directory_of_mkdirP (List.cons_ne_nil _ _) hr
    have hlinks : (each names (ln (i.filesTmp ++ [name]) source)).result r = some t :=
      each_place_done hnodup (fun n _ => mkdirP_empty hs hr n) hstop hthere
    rw [fillBin, result_note]
    exact result_seq.mpr ⟨r, hr, result_seq.mpr ⟨r, result_require.mpr ⟨hdir, rfl⟩, hlinks⟩⟩
  obtain hstop | ⟨r, hr, hstop⟩ := mem_stops_seq.mp (mem_stops_note.mp ht)
  · rw [filesTmp_concat] at hs hexist
    exact hmade (mkdirP_done (List.cons_ne_nil _ _) hs hstop hexist) (self_mem_stops _ t)
  · obtain hsame | ⟨r', hr', hlinks⟩ := mem_stops_seq.mp hstop
    · rw [chdir, stops_require, List.mem_singleton] at hsame
      exact hmade (hsame ▸ hr) (self_mem_stops _ t)
    · obtain ⟨_, rfl⟩ := result_require.mp hr'
      exact hmade hr hlinks

theorem resumable_setUpBin {name : Name} {source : Str} {names : List Name}
    (hnodup : names.Nodup)
    (hwhole : ∀ t, i.Whole t → t.exist i.outside (i.filesTmp ++ [name]) = true →
      ∀ n ∈ names, (t.node (i.filesTmp ++ [name] ++ [n])).isSome) :
    Resumable (Grows Everywhere) i.Whole (i.setUpBin name source names) := by
  apply Resumable.setUpFile fun _ _ => trivial
  · intro s t u ht hT _ hu
    exact (resumable_fillBin name source names).resumes ht hT hu
  · intro s t hs ht hT hexist
    exact fillBin_done hnodup hs ht hexist (hwhole t hT hexist)
  · exact (resumable_fillBin (i := i) name source names).stays

theorem binNames_nodup : i.binNames.Nodup := by
  apply List.Nodup.filter
  decide

theorem binWow64Names_nodup : i.binWow64Names.Nodup := by
  apply List.Nodup.filter
  decide

theorem resumable_fillFiles : Resumable (Grows Everywhere) i.Whole i.fillFiles := by
  have hwow64 : Resumable (Grows Everywhere) i.Whole i.setUpBinWow64 := by
    unfold setUpBinWow64
    split_ifs with hversion
    · exact resumable_setUpBin binWow64Names_nodup fun t hT => hT.binWow64 hversion
    · exact resumable_skip
  have hbin : Resumable (Grows Everywhere) i.Whole
      (i.setUpBin "bin".toList (fileJoin wineProton "bin".toList) i.binNames) :=
    resumable_setUpBin binNames_nodup fun t hT => hT.bin
  have hmkdir : Resumable (Grows Everywhere) i.Whole
      (mkdirP i.outside i.proton ["files.tmp".toList] : SetUp) :=
    resumable_mkdirP fun _ _ => trivial
  exact hmkdir.seq ((resumable_each _ fun path _ => resumable_linkPath path).seq
    ((resumable_linkMissing _ _ _).seq ((resumable_linkMissing _ _ _).seq (hbin.seq hwow64))))

theorem leaves_place {p : Path} (node : Node Char Mode Str) (hp : i.filesTmp <+: p) :
    Stays (Leaves i.Kept) (op (place p node) : SetUp) := by
  apply stays_op
  intro s t h
  obtain ⟨_, _, hnode⟩ := place_eq.mp h
  exact leaves_of_update hnode fun hkept => hkept hp

theorem leaves_mkdirP {rest w : Path} (hrest : rest <+: "files.tmp".toList :: w) :
    Stays (Leaves i.Kept) (mkdirP i.outside i.proton rest : SetUp) := by
  have hchanges : Stays (Changes (i.filesTmp <+: ·))
      (mkdirP i.outside i.proton rest : SetUp) := by
    apply changes_mkdirP
    intro q hq hpre
    obtain ⟨n, q', rfl⟩ := List.exists_cons_of_ne_nil hq
    obtain ⟨rfl, _⟩ := List.cons_prefix_cons.mp (hpre.trans hrest)
    exact ⟨q', by simp [filesTmp, inProton]⟩
  refine hchanges.imp fun s t h p hp => ?_
  obtain hsame | ⟨htmp, _⟩ := h p
  · exact hsame
  · exact absurd htmp hp

theorem leaves_linkMissing {dir : Path} (hdir : i.filesTmp <+: dir) (source : Str)
    (names : List Name) : Stays (Leaves i.Kept) (i.linkMissing dir source names) := by
  refine Stays.seq (stays_require _) (stays_each _ fun name _ => ?_)
  exact Stays.guarded (Stays.seq (stays_note _)
    (leaves_place _ (hdir.trans (List.prefix_append _ _))))

theorem leaves_setUpBin (name : Name) (source : Str) (names : List Name) :
    Stays (Leaves i.Kept) (i.setUpBin name source names) := by
  have hmkdir : Stays (Leaves i.Kept)
      (mkdirP i.outside i.proton ["files.tmp".toList, name] : SetUp) :=
    leaves_mkdirP (List.prefix_refl _)
  have hlinks : Stays (Leaves i.Kept) (each names (ln (i.filesTmp ++ [name]) source)) := by
    apply stays_each
    intro n _
    apply leaves_place
    rw [List.append_assoc]
    exact List.prefix_append _ _
  have hfill : Stays (Leaves i.Kept) (i.fillBin name source names) :=
    Stays.seq (stays_note _) (hmkdir.seq (Stays.seq (stays_require _) hlinks))
  exact Stays.guarded (hfill.seq (stays_require _))

/-- What is not in files.tmp stays as it is while that is filled. -/
theorem leaves_fillFiles : Stays (Leaves i.Kept) i.fillFiles := by
  have hmkdir : Stays (Leaves i.Kept) (mkdirP i.outside i.proton ["files.tmp".toList] : SetUp) :=
    leaves_mkdirP (List.prefix_refl _)
  have hpaths : Stays (Leaves i.Kept) (each i.paths i.linkPath) := by
    apply stays_each
    intro path _
    refine Stays.guarded (Stays.seq (leaves_mkdirP (List.dropLast_prefix _)) ?_)
    exact leaves_place _ (List.prefix_append _ _)
  have hi386 : i.filesTmp <+: i.i386Dir := List.prefix_append _ _
  have hx8664 : i.filesTmp <+: i.x8664Dir := List.prefix_append _ _
  have hwow64 : Stays (Leaves i.Kept) i.setUpBinWow64 := by
    unfold setUpBinWow64
    split_ifs
    · exact leaves_setUpBin _ _ _
    · exact stays_skip
  exact hmkdir.seq (hpaths.seq ((leaves_linkMissing hi386 _ _).seq
    ((leaves_linkMissing hx8664 _ _).seq ((leaves_setUpBin _ _ _).seq hwow64))))

/-! The whole set_up. -/

theorem resumable_setUpFiles : Resumable (Grows i.Kept) i.Whole i.setUpFiles := by
  have hkept : ∀ q, q <+: i.inProton "files" → i.Kept q := kept_inProton files_name_ne
  have hrename : ∀ {r u : Files}, rename i.proton "files.tmp".toList "files".toList r = some u →
      u.exist i.outside (i.inProton "files") = true := by
    intro r u h
    obtain ⟨hdir, _, hnode⟩ := rename_eq.mp h
    apply exist_of_directory_node
    rw [hnode, inProton, moved_below]
    exact hdir
  apply Resumable.setUpFile hkept
  · intro s t u ht hT hexist hu
    rw [result_note] at hu ⊢
    obtain ⟨r, hr, hmv⟩ := result_seq.mp hu
    have hfill : t ∈ i.fillFiles.stops s := by
      obtain hstop | ⟨r', hr', hstop⟩ := mem_stops_seq.mp (mem_stops_note.mp ht)
      · exact hstop
      · obtain rfl | hmv' := mem_stops_op.mp hstop
        · exact result_mem_stops hr'
        · rw [hrename hmv'] at hexist
          cases hexist
    exact result_seq.mpr ⟨r, resumable_fillFiles.resumes hfill hT hr, hmv⟩
  · intro s t hs ht _ hexist
    rw [result_note]
    have hfill : ∀ {r}, r ∈ i.fillFiles.stops s → t ≠ r := by
      rintro r hr rfl
      rw [(leaves_fillFiles s t hr).exist_eq hkept, hs] at hexist
      cases hexist
    obtain hstop | ⟨r, hr, hstop⟩ := mem_stops_seq.mp (mem_stops_note.mp ht)
    · exact absurd rfl (hfill hstop)
    · obtain hsame | hmv := mem_stops_op.mp hstop
      · exact absurd hsame (hfill (result_mem_stops hr))
      · exact result_seq.mpr ⟨r, hr, hmv⟩
  · have hgrows : Stays (Grows i.Kept) i.fillFiles :=
      resumable_fillFiles.stays.imp fun s t h p n _ hn => h p n trivial hn
    refine Stays.seq (stays_note _) (hgrows.seq (stays_op fun s t h => ?_))
    exact rename_grows h fun q hq => hq

theorem resumable_setUpSteamclient : Resumable (Grows i.Kept) i.Whole i.setUpSteamclient := by
  have hkept : ∀ q, q <+: steamclientPatched → i.Kept q := by
    apply kept_of_length
    simp [filesTmp, inProton, proton, freeBSDProton, steamclientPatched]
  have hbody : Resumable (Grows i.Kept) i.Whole i.patchDtInit := by
    unfold patchDtInit
    cases i.patched with
    | none => exact .idle fun _ => rfl
    | some node => exact resumable_place (hkept _ (List.prefix_refl _))
  apply Resumable.setUpFile hkept
  · intro s t u ht hT _ hu
    exact hbody.resumes ht hT hu
  · intro s t hs ht _ hexist
    obtain rfl | hplace := mem_stops_op.mp ht
    · rw [hs] at hexist
      cases hexist
    · exact hplace
  · exact hbody.stays

theorem resumable_setUp : Resumable (Grows i.Kept) i.Whole i.setUp := by
  have hbase : Resumable (Grows i.Kept) i.Whole
      (setUpFile i.outside freeBSDProton (mkdirP i.outside [] freeBSDProton) : SetUp) :=
    resumable_setUpFile_mkdirP rfl kept_freeBSDProton (List.cons_ne_nil _ _)
  have hproton : Resumable (Grows i.Kept) i.Whole
      (setUpFile i.outside i.proton
        (mkdirP i.outside freeBSDProton ["proton_".toList ++ i.version.text]) : SetUp) :=
    resumable_setUpFile_mkdirP rfl kept_proton (List.cons_ne_nil _ _)
  have hcopies : Resumable (Grows i.Kept) i.Whole (each copiedFiles i.setUpCopy) :=
    resumable_each _ fun _ hname => resumable_setUpCopy hname
  exact hbase.seq ((resumable_require _).seq (hproton.seq ((resumable_require _).seq
    (hcopies.seq (resumable_setUpProton.seq (resumable_setUpFiles.seq
      (resumable_setUpSteamclient.seq (resumable_note _))))))))

/-! set_setup_state -/

/-- The order in which the states are meant to come. -/
def SetupState.level : SetupState → Nat
  | .proton => 0
  | .steamrt => 1
  | .symlinks => 2
  | .manifest => 3
  | .done => 4

theorem SetupState.level_injective : Function.Injective level := by
  intro a b h
  cases a <;> cases b <;> first | rfl | cases h

/-- The states so far, of which only the current one has the last level. -/
structure SetupVars.UpTo (v : SetupVars) (k : Nat) : Prop where
  le : ∀ a ∈ v.steps, a.level ≤ k
  last : ∀ a ∈ v.steps, a.level = k → v.state = some a

theorem setSetupState_upTo {v : SetupVars} {k : Nat} (h : v.UpTo k) {state : SetupState}
    (hk : k ≤ state.level) :
    ∃ w, setSetupState v state = some w ∧ w.UpTo state.level := by
  rw [setSetupState]
  by_cases hsame : some state = v.state
  · rw [if_neg (not_not_intro hsame)]
    refine ⟨v, rfl, fun a ha => (h.le a ha).trans hk, fun a ha hlevel => ?_⟩
    rw [← hsame, SetupState.level_injective hlevel]
  · have hnew : state ∉ v.steps := by
      intro hmem
      have hlevel := Nat.le_antisymm (h.le state hmem) hk
      exact hsame (h.last state hmem hlevel).symm
    rw [if_pos hsame, if_pos hnew]
    refine ⟨_, rfl, fun a ha => ?_, fun a ha hlevel => ?_⟩
    · obtain ha | ha := List.mem_append.mp ha
      · exact (h.le a ha).trans hk
      · rw [List.mem_singleton.mp ha]
    · rw [SetupState.level_injective hlevel]

theorem foldlM_setSetupState {states : List SetupState}
    (hrising : states.Pairwise fun a b => a.level ≤ b.level) {v : SetupVars} {k : Nat}
    (h : v.UpTo k) (hk : ∀ a ∈ states, k ≤ a.level) :
    (states.foldlM setSetupState v).isSome := by
  induction states generalizing v k with
  | nil => rfl
  | cons a states ih =>
    obtain ⟨w, hw, hupTo⟩ := setSetupState_upTo h (hk a List.mem_cons_self)
    obtain ⟨ha, hrest⟩ := List.pairwise_cons.mp hrising
    rw [List.foldlM_cons, hw]
    exact ih hrest hupTo ha

section Level
variable {k : Nat}

theorem rising_mkdirP (out : Outside Name Str) (dir rest : Path) :
    Rising SetupState.level k k (mkdirP out dir rest : SetUp) := by
  induction rest generalizing dir with
  | nil => exact .silent fun _ => rfl
  | cons n rest ih => exact .seq (.guarded (rising_op _)) (ih _)

theorem rising_writeFile (p : Path) (mode : Mode) (text : Str) :
    Rising SetupState.level k k (writeFile p mode text : SetUp) :=
  .seq (rising_op _) (rising_each _ fun _ _ => rising_op _)

theorem rising_cp (name : Name) (p : Path) : Rising SetupState.level k k (i.cp name p) := by
  unfold cp
  split
  · exact rising_writeFile _ _ _
  · exact .silent fun _ => rfl

theorem rising_setUpFile {j : Nat} {out : Outside Name Str} {p : Path} {body : SetUp}
    (h : Rising SetupState.level j k body) :
    Rising SetupState.level j k (setUpFile out p body) :=
  .guarded (h.seq (rising_require _))

theorem rising_setUpProton : Rising SetupState.level 0 0 i.setUpProton := by
  apply rising_setUpFile
  apply Rising.seq (rising_note SetupState.proton)
  apply Rising.seq (rising_cp _ _)
  apply Rising.read (Nat.le_refl 0)
  intro s
  split
  · exact .seq (rising_writeFile _ _ _) (rising_op _)
  · exact .silent fun _ => rfl

theorem rising_linkMissing (dir : Path) (source : Str) (names : List Name) :
    Rising SetupState.level 2 2 (i.linkMissing dir source names) :=
  .seq (rising_require _) (rising_each _ fun _ _ =>
    .guarded (.seq (rising_note SetupState.symlinks) (rising_op _)))

theorem rising_setUpBin (name : Name) (source : Str) (names : List Name) :
    Rising SetupState.level 2 2 (i.setUpBin name source names) := by
  apply rising_setUpFile
  apply Rising.seq (rising_note SetupState.symlinks)
  apply Rising.seq (rising_mkdirP _ _ _)
  exact .seq (rising_require _) (rising_each _ fun _ _ => rising_op _)

theorem rising_fillFiles : Rising SetupState.level 0 2 i.fillFiles := by
  have hpaths : Rising SetupState.level 0 0 (each i.paths i.linkPath) :=
    rising_each _ fun _ _ => .guarded (.seq (rising_mkdirP _ _ _) (rising_op _))
  have hwow64 : Rising SetupState.level 2 2 i.setUpBinWow64 := by
    unfold setUpBinWow64
    split_ifs
    · exact rising_setUpBin _ _ _
    · exact .silent fun _ => rfl
  refine (rising_mkdirP _ _ _).seq (hpaths.seq (.mono ?_ (Nat.zero_le 2) (Nat.le_refl 2)))
  exact (rising_linkMissing _ _ _).seq ((rising_linkMissing _ _ _).seq
    ((rising_setUpBin _ _ _).seq hwow64))

theorem rising_setUp : Rising SetupState.level 0 4 i.setUp := by
  have hfiles : Rising SetupState.level 0 2 i.setUpFiles :=
    rising_setUpFile ((rising_note SetupState.proton).seq
      (rising_fillFiles.seq (rising_op _)))
  have hdone : Rising SetupState.level 2 4 (note .done : SetUp) :=
    (rising_note SetupState.done).mono (by decide) (by decide)
  have hcopies : Rising SetupState.level 0 0 (each copiedFiles i.setUpCopy) :=
    rising_each _ fun _ _ => rising_setUpFile ((rising_note SetupState.proton).seq (rising_cp _ _))
  exact (rising_setUpFile (rising_mkdirP _ _ _)).seq <| (rising_require _).seq <|
    (rising_setUpFile (rising_mkdirP _ _ _)).seq <| (rising_require _).seq <|
    hcopies.seq <| rising_setUpProton.seq <| hfiles.seq <|
    (rising_setUpFile (rising_op _)).seq hdone

end Level

/-- Whatever set_up finds, set_setup_state gets its states in an order it accepts. -/
theorem setSetupState_never_raises (i : Installed) (s : Files) :
    ((i.setUp.said s).foldlM setSetupState ⟨[], none⟩).isSome := by
  apply foldlM_setSetupState (k := 0) (rising_setUp.rising s)
  · refine ⟨fun a ha => ?_, fun a ha => ?_⟩ <;> cases ha
  · intro a _
    exact Nat.zero_le _

/-! Runs of the tool. -/

/-- However often it was stopped, with nothing half made each time, set_up builds the directory
that it builds in an empty one without a stop. -/
theorem setUp_resumes {i : Installed} {t u : Files} (h : Restarted i.Whole i.setUp .empty t)
    (hu : i.setUp.result t = some u) : i.setUp.result .empty = some u :=
  h.result resumable_setUp hu

/-- A Proton with short files and a wine-proton with one binary. -/
def small : Installed where
  version := .v9
  protonDir := "/Proton 9.0".toList
  source name := some (if name = "proton".toList then
    (", stderr=self.log_file, stdout=self.log_file" ++ "ld_path_var = \"LD_LIBRARY_PATH\"" ++
      "= find_nvidia_wine_dll_dir()").toList else [], 0o755)
  globbed := [["lib".toList, "wine".toList, "i386-windows".toList, "steam.exe".toList],
    ["lib64".toList, "wine".toList, "x86_64-windows".toList, "steam.exe".toList]]
  i386PkgRoot := "/pkg".toList
  i386Windows := []
  x8664Windows := []
  bin name := name = "wine".toList
  binWow64 _ := false
  outside := ⟨fun _ _ => true, fun _ _ => true⟩
  umask := 0o022
  patched := some (.file [] 0o755)

/-- A run in an empty directory, stopped after some of its operations. -/
def stopped (n : Nat) : Files := ((small.setUp.stops .empty)[n]?).getD .empty

theorem mem_stopped {n : Nat} (h : ((small.setUp.stops .empty)[n]?).isSome) :
    stopped n ∈ small.setUp.stops .empty := by
  obtain ⟨t, ht⟩ := Option.isSome_iff_exists.mp h
  rw [stopped, ht]
  exact List.mem_of_getElem? ht

theorem whole_of_nodes {t : Files}
    (hcopied : ∀ name ∈ copiedFiles, t.node (small.proton ++ [name]) =
      (small.copy name).map fun file => .file file.1 file.2)
    (hproton : t.node (small.inProton "proton") =
      small.script.map fun file => .file file.1 file.2)
    (hbin : t.exist small.outside (small.filesTmp ++ ["bin".toList]) = false) :
    small.Whole t where
  copied name hname text mode h := by
    rw [hcopied name hname] at h
    obtain ⟨file, hfile, hnode⟩ := Option.map_eq_some_iff.mp h
    rw [hfile]
    cases hnode
    rfl
  proton text mode h := by
    rw [hproton] at h
    obtain ⟨file, hfile, hnode⟩ := Option.map_eq_some_iff.mp h
    rw [hfile]
    cases hnode
    rfl
  bin hexist := by
    rw [hbin] at hexist
    cases hexist
  binWow64 hversion := by
    cases hversion

/-- Stopped while files.tmp is filled. -/
theorem setUp_resumes_filling : ∃ t u, (t.node small.filesTmp).isSome ∧
    Restarted small.Whole small.setUp .empty t ∧ small.setUp.result t = some u ∧
    small.setUp.result .empty = some u := by
  obtain ⟨hstop, htmp, hcopied, hproton, hbin, hend⟩ :
      ((small.setUp.stops .empty)[350]?).isSome ∧
      ((stopped 350).node small.filesTmp).isSome ∧
      (∀ name ∈ copiedFiles, (stopped 350).node (small.proton ++ [name]) =
        (small.copy name).map fun file => .file file.1 file.2) ∧
      (stopped 350).node (small.inProton "proton") =
        small.script.map (fun file => .file file.1 file.2) ∧
      (stopped 350).exist small.outside (small.filesTmp ++ ["bin".toList]) = false ∧
      (small.setUp.result (stopped 350)).isSome := by
    decide +kernel
  have hrestarted : Restarted small.Whole small.setUp .empty (stopped 350) :=
    .again .fresh (mem_stopped hstop) (whole_of_nodes hcopied hproton hbin)
  obtain ⟨u, hu⟩ := Option.isSome_iff_exists.mp hend
  exact ⟨stopped 350, u, htmp, hrestarted, hu, setUp_resumes hrestarted hu⟩

/-- Stopped before the links in files.tmp/bin are made: they are never made. -/
theorem half_filled_bin : ∃ t u v, t ∈ small.setUp.stops .empty ∧
    small.setUp.result t = some u ∧ small.setUp.result .empty = some v ∧
    u.node (small.inProton "files" ++ ["bin".toList, "wine".toList]) = none ∧
    v.node (small.inProton "files" ++ ["bin".toList, "wine".toList]) =
      some (.link "/usr/local/wine-proton/bin/wine".toList) := by
  obtain ⟨hstop, hlater, hfirst⟩ :
      ((small.setUp.stops .empty)[367]?).isSome ∧
      ((small.setUp.result (stopped 367)).map fun u =>
        u.node (small.inProton "files" ++ ["bin".toList, "wine".toList])) = some none ∧
      ((small.setUp.result .empty).map fun v =>
        v.node (small.inProton "files" ++ ["bin".toList, "wine".toList])) =
        some (some (.link "/usr/local/wine-proton/bin/wine".toList)) := by
    decide +kernel
  obtain ⟨u, hu, hmissing⟩ := Option.map_eq_some_iff.mp hlater
  obtain ⟨v, hv, hthere⟩ := Option.map_eq_some_iff.mp hfirst
  exact ⟨stopped 367, u, v, mem_stopped hstop, hu, hv, hmissing, hthere⟩

end LSU.WineSetUp
