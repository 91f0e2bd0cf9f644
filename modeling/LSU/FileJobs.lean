import LSU.FileTree

/-! Jobs on a tree: directories with their parents, files that are written character by
character, and what is only set up where it does not exist yet. -/
namespace LSU.FileJobs
open LSU.Resume LSU.Resume.Job LSU.FileTree
variable {N C M L α β : Type} [DecidableEq N]

def mkdirOne (out : Outside N L) (p : List N) : Job (Tree N C M L) α :=
  guarded (fun t => t.directory out p) (op (place p .dir))

/-- FileUtils.mkdir_p, from a directory on. -/
def mkdirP (out : Outside N L) : List N → List N → Job (Tree N C M L) α
  | _, [] => skip
  | dir, n :: rest => seq (mkdirOne out (dir ++ [n])) (mkdirP out (dir ++ [n]) rest)

/-- One character more. -/
def appended (c : C) (content : List C) (mode : M) : List C × M := (content ++ [c], mode)

def writes (p : List N) (text : List C) : Job (Tree N C M L) α :=
  each text fun c => op (edit p (appended c))

/-- File.write, for a new file with a mode. -/
def writeFile (p : List N) (mode : M) (text : List C) : Job (Tree N C M L) α :=
  seq (op (openFile p mode)) (writes p text)

/-- set_up_file -/
def setUpFile (out : Outside N L) (p : List N) (body : Job (Tree N C M L) α) :
    Job (Tree N C M L) α :=
  guarded (fun t => t.exist out p) (seq body (require fun t => t.exist out p))

section Rules
variable {K D : List N → Prop} {T : Tree N C M L → Prop} {out : Outside N L}
  {s t u : Tree N C M L} {p dir rest : List N}

/-- A second time the place is taken. -/
theorem resumable_place {n : Node C M L} (hp : K p) :
    Resumable (Grows K) T (op (place p n) : Job (Tree N C M L) α) where
  resumes := by
    intro s t u ht _ hu
    obtain rfl | hplace := mem_stops_op.mp ht
    · exact hu
    · obtain ⟨_, _, hnode⟩ := place_eq.mp hplace
      obtain ⟨_, hnone, _⟩ := place_eq.mp hu
      rw [hnode, Function.update_self] at hnone
      cases hnone
  lasting := by
    intro s s' t u hs hR _ hu
    obtain ⟨_, _, hnode⟩ := place_eq.mp hs
    obtain ⟨_, hnone, _⟩ := place_eq.mp hu
    obtain ⟨n', hn', _⟩ := hR p n hp (by rw [hnode, Function.update_self])
    rw [hnone] at hn'
    cases hn'
  stays := stays_op fun _ _ h => place_grows h

theorem directory_of_place (h : place p .dir s = some t) : t.directory out p = true := by
  obtain ⟨_, _, hnode⟩ := place_eq.mp h
  rw [Tree.directory, hnode, Function.update_self]
  rfl

omit [DecidableEq N] in
theorem exist_of_directory_node (h : isDir (t.node p) = true) : t.exist out p = true := by
  rw [Tree.exist, isDir_iff.mp h]
  rfl

theorem changes_place_dir (hD : D p) (h : place p .dir s = some t) : Changes D s t := by
  obtain ⟨_, hnone, hnode⟩ := place_eq.mp h
  apply changes_of_update hnode hD
  · rw [hnone]
    intro target htarget
    cases htarget
  · intro target htarget
    cases htarget

theorem resumable_mkdirOne (hK : ∀ q, q <+: p → K q) :
    Resumable (Grows K) T (mkdirOne out p : Job (Tree N C M L) α) := by
  apply Resumable.once
  · intro s t hs hR
    exact directory_mono hK hR hs
  · intro s t h
    exact directory_of_place h
  · intro s t h
    exact place_grows h

theorem changes_mkdirOne (hD : D p) :
    Stays (Changes D) (mkdirOne out p : Job (Tree N C M L) α) :=
  Stays.guarded (stays_op fun _ _ h => changes_place_dir hD h)

/-- Where something has changed the directory is made. -/
theorem mkdirOne_done (ht : t ∈ (mkdirOne out p : Job (Tree N C M L) α).stops s) (hne : t ≠ s) :
    (mkdirOne out p : Job (Tree N C M L) α).result s = some t := by
  apply result_guarded.mpr
  obtain ⟨_, heq⟩ | ⟨htest, ht⟩ := mem_stops_guarded.mp ht
  · exact absurd heq hne
  · obtain heq | hplace := mem_stops_op.mp ht
    · exact absurd heq hne
    · exact Or.inr ⟨htest, hplace⟩

theorem resumable_mkdirP (hK : ∀ q, q <+: dir ++ rest → K q) :
    Resumable (Grows K) T (mkdirP out dir rest : Job (Tree N C M L) α) := by
  induction rest generalizing dir with
  | nil => exact resumable_skip
  | cons n rest ih =>
    rw [List.append_cons] at hK
    apply Resumable.seq _ (ih hK)
    apply resumable_mkdirOne
    intro q hq
    exact hK q (hq.trans (List.prefix_append _ _))

theorem changes_mkdirP (hD : ∀ q, q ≠ [] → q <+: rest → D (dir ++ q)) :
    Stays (Changes D) (mkdirP out dir rest : Job (Tree N C M L) α) := by
  induction rest generalizing dir with
  | nil => exact stays_skip
  | cons n rest ih =>
    apply Stays.seq (changes_mkdirOne (hD [n] (by simp) ⟨rest, rfl⟩))
    apply ih
    intro q hq hpre
    have hlonger := hD (n :: q) (by simp) (List.cons_prefix_cons.mpr ⟨rfl, hpre⟩)
    rwa [List.append_cons] at hlonger

/-- Once the directory exists that did not, mkdir_p has ended. -/
theorem mkdirP_done (hrest : rest ≠ []) (hs : s.exist out (dir ++ rest) = false)
    (ht : t ∈ (mkdirP out dir rest : Job (Tree N C M L) α).stops s)
    (hexist : t.exist out (dir ++ rest) = true) :
    (mkdirP out dir rest : Job (Tree N C M L) α).result s = some t := by
  induction rest generalizing dir s with
  | nil => exact absurd rfl hrest
  | cons n rest ih =>
    have hmade : Stays (Changes fun q => q = dir ++ [n])
        (mkdirOne out (dir ++ [n]) : Job (Tree N C M L) α) := changes_mkdirOne rfl
    apply result_seq.mpr
    cases rest with
    | nil =>
      have hstop : t ∈ (mkdirOne out (dir ++ [n]) : Job (Tree N C M L) α).stops s := by
        obtain hstop | ⟨r, hr, hskip⟩ := mem_stops_seq.mp ht
        · exact hstop
        · rw [List.mem_singleton.mp hskip]
          exact result_mem_stops hr
      refine ⟨t, mkdirOne_done hstop ?_, rfl⟩
      rintro rfl
      rw [hs] at hexist
      cases hexist
    | cons m rest =>
      have hsame : ∀ {r}, r ∈ (mkdirOne out (dir ++ [n]) : Job (Tree N C M L) α).stops s →
          r.exist out (dir ++ n :: m :: rest) = s.exist out (dir ++ n :: m :: rest) :=
        fun hr => (hmade s _ hr).exist_eq (by simp)
      obtain hstop | ⟨r, hr, hstop⟩ := mem_stops_seq.mp ht
      · rw [hsame hstop, hs] at hexist
        cases hexist
      · rw [← hsame (result_mem_stops hr), List.append_cons] at hs
        rw [List.append_cons] at hexist
        exact ⟨r, hr, ih (List.cons_ne_nil m rest) hs hstop hexist⟩

theorem directory_of_mkdirP (hrest : rest ≠ [])
    (ht : (mkdirP out dir rest : Job (Tree N C M L) α).result s = some t) :
    t.directory out (dir ++ rest) = true := by
  induction rest generalizing dir s with
  | nil => exact absurd rfl hrest
  | cons n rest ih =>
    obtain ⟨r, hone, hrest⟩ := result_seq.mp ht
    cases rest with
    | nil =>
      obtain rfl := Option.some.inj hrest
      obtain ⟨htest, rfl⟩ | ⟨_, hplace⟩ := result_guarded.mp hone
      · exact htest
      · exact directory_of_place hplace
    | cons m rest =>
      rw [List.append_cons]
      exact ih (List.cons_ne_nil m rest) hrest

/-- Something is put in its place unless it exists, behind a job that does not touch it. -/
theorem resumable_placeMissing {before : Job (Tree N C M L) α} {n : Node C M L}
    (hK : ∀ q, q <+: p → K q) (hbefore : Resumable (Grows K) T before)
    (hchanges : Stays (Changes D) before) (hp : ¬ D p) :
    Resumable (Grows K) T (guarded (fun t => t.exist out p) (seq before (op (place p n)))) := by
  have hbody := hbefore.seq (resumable_place (α := α) (T := T) (n := n) (hK p (List.prefix_refl p)))
  apply Resumable.guarded
  · intro s t hs hR
    exact exist_mono hK hR hs
  · intro s s' t u hs hR hT _ hu
    exact hbody.lasting hs hR hT hu
  · intro s t u ht hT _ hu
    exact hbody.resumes ht hT hu
  · intro s t hs ht _ hexist
    have hbefore : ∀ {r}, r ∈ before.stops s → t ≠ r := by
      rintro r hr rfl
      rw [(hchanges s t hr).exist_eq hp, hs] at hexist
      cases hexist
    obtain hstop | ⟨r, hr, hstop⟩ := mem_stops_seq.mp ht
    · exact absurd rfl (hbefore hstop)
    · obtain hsame | hplace := mem_stops_op.mp hstop
      · exact absurd hsame (hbefore (result_mem_stops hr))
      · exact result_seq.mpr ⟨r, hr, hplace⟩
  · exact hbody.stays

/-- Several things put in places of one directory are all there once the last of them is. -/
theorem each_place_done {names : List N} {node : N → Node C M L} {r : Tree N C M L}
    (hnodup : names.Nodup) (hfree : ∀ name ∈ names, r.node (dir ++ [name]) = none)
    (ht : t ∈ (each names fun name => op (place (dir ++ [name]) (node name)) :
      Job (Tree N C M L) α).stops r)
    (hthere : ∀ name ∈ names, (t.node (dir ++ [name])).isSome) :
    (each names fun name => op (place (dir ++ [name]) (node name)) :
      Job (Tree N C M L) α).result r = some t := by
  induction names generalizing r with
  | nil =>
    rw [List.mem_singleton.mp ht]
    rfl
  | cons a names ih =>
    have hr : t ≠ r := by
      rintro rfl
      have hsome := hthere a List.mem_cons_self
      rw [hfree a List.mem_cons_self] at hsome
      cases hsome
    obtain ⟨r', hplace, hstop⟩ : ∃ r', place (dir ++ [a]) (node a) r = some r' ∧
        t ∈ (each names fun name => op (place (dir ++ [name]) (node name)) :
          Job (Tree N C M L) α).stops r' := by
      obtain hstop | hrest := mem_stops_seq.mp ht
      · obtain hsame | hplace := mem_stops_op.mp hstop
        · exact absurd hsame hr
        · exact ⟨t, hplace, self_mem_stops _ t⟩
      · exact hrest
    refine result_seq.mpr ⟨r', hplace, ih (List.nodup_cons.mp hnodup).2 ?_ hstop ?_⟩
    · intro name hname
      obtain ⟨_, _, hnode⟩ := place_eq.mp hplace
      have hne : dir ++ [name] ≠ dir ++ [a] := by
        intro h
        obtain rfl := List.singleton_injective (List.append_cancel_left h)
        exact (List.nodup_cons.mp hnodup).1 hname
      rw [hnode, Function.update_of_ne hne]
      exact hfree name (List.mem_cons_of_mem a hname)
    · intro name hname
      exact hthere name (List.mem_cons_of_mem a hname)

/-! Files. -/

/-- open(2) for writing works, and the file has then this mode. -/
def OpensWith (p : List N) (mode : M) (s : Tree N C M L) (mode' : M) : Prop :=
  (s.node p = none ∧ isDir (s.node p.dropLast) = true ∧ mode' = mode) ∨
    ∃ content, s.node p = some (.file content mode')

theorem openFile_opens {mode mode' : M} (h : OpensWith p mode s mode') :
    ∃ t, openFile p mode s = some t ∧
      t.node = Function.update s.node p (some (.file [] mode')) := by
  obtain ⟨hnone, hdir, rfl⟩ | ⟨content, hfile⟩ := h
  · rw [openFile, hnone]
    exact place_free _ hdir hnone
  · rw [openFile, hfile]
    exact edit_file hfile

theorem openFile_eq {mode : M} (h : openFile p mode s = some t) :
    ∃ mode', OpensWith p mode s mode' ∧
      t.node = Function.update s.node p (some (.file [] mode')) := by
  rw [openFile] at h
  split at h
  · obtain ⟨hdir, hnone, hnode⟩ := place_eq.mp h
    exact ⟨mode, Or.inl ⟨hnone, hdir, rfl⟩, hnode⟩
  · obtain ⟨content, mode', hfile, hnode⟩ := edit_eq.mp h
    exact ⟨mode', Or.inr ⟨content, hfile⟩, hnode⟩

omit [DecidableEq N] in
/-- The mode of a file that is there stays. -/
theorem opensWith_file {mode mode' m : M} {content : List C}
    (hfile : s.node p = some (.file content m)) (h : OpensWith p mode s mode') : mode' = m := by
  obtain ⟨hnone, _⟩ | ⟨content', hfile'⟩ := h
  · rw [hfile] at hnone
    cases hnone
  · obtain ⟨-, hmode⟩ := Node.file.inj (Option.some.inj (hfile.symm.trans hfile'))
    exact hmode.symm

theorem result_writes (text : List C) {content : List C} {mode : M}
    (hs : s.node p = some (.file content mode)) :
    ∃ u, (writes p text : Job (Tree N C M L) α).result s = some u ∧
      u.node = Function.update s.node p (some (.file (content ++ text) mode)) := by
  induction text generalizing s content with
  | nil =>
    refine ⟨s, rfl, ?_⟩
    rw [List.append_nil, ← hs, Function.update_eq_self]
  | cons c text ih =>
    obtain ⟨t, hop, ht⟩ := edit_file (f := appended c) hs
    have hfile : t.node p = some (.file (content ++ [c]) mode) := by
      rw [ht, Function.update_self]
      rfl
    obtain ⟨u, hrest, hu⟩ := ih hfile
    refine ⟨u, result_seq.mpr ⟨t, hop, hrest⟩, ?_⟩
    rw [hu, ht, Function.update_idem]
    simp

theorem stops_writes {text content : List C} {mode : M}
    (hs : s.node p = some (.file content mode))
    (ht : t ∈ (writes p text : Job (Tree N C M L) α).stops s) :
    ∃ pre, t.node = Function.update s.node p (some (.file (content ++ pre) mode)) := by
  induction text generalizing s content with
  | nil =>
    obtain rfl := List.mem_singleton.mp ht
    exact ⟨[], by rw [List.append_nil, ← hs, Function.update_eq_self]⟩
  | cons c text ih =>
    obtain ⟨r, hop, hr⟩ := edit_file (f := appended c) hs
    have hfile : r.node p = some (.file (content ++ [c]) mode) := by
      rw [hr, Function.update_self]
      rfl
    have hrest : t ∈ (writes p text : Job (Tree N C M L) α).stops r →
        ∃ pre, t.node = Function.update s.node p (some (.file (content ++ pre) mode)) := by
      intro hstop
      obtain ⟨pre, hpre⟩ := ih hfile hstop
      refine ⟨c :: pre, ?_⟩
      rw [hpre, hr, Function.update_idem]
      simp
    obtain hstop | ⟨r', hr', hstop⟩ := mem_stops_seq.mp ht
    · obtain rfl | hend := mem_stops_op.mp hstop
      · exact ⟨[], by rw [List.append_nil, ← hs, Function.update_eq_self]⟩
      · rw [hop] at hend
        obtain rfl := Option.some.inj hend
        exact ⟨[c], hr⟩
    · have heq : r' = r := Option.some.inj (hr'.symm.trans hop)
      exact hrest (heq ▸ hstop)

theorem result_writeFile_opens (text : List C) {mode mode' : M}
    (h : OpensWith p mode s mode') :
    ∃ u, (writeFile p mode text : Job (Tree N C M L) α).result s = some u ∧
      u.node = Function.update s.node p (some (.file text mode')) := by
  obtain ⟨t, hopen, ht⟩ := openFile_opens h
  have hfile : t.node p = some (.file [] mode') := by
    rw [ht, Function.update_self]
  obtain ⟨u, hwrites, hu⟩ := result_writes text hfile
  refine ⟨u, result_seq.mpr ⟨t, hopen, hwrites⟩, ?_⟩
  rw [hu, ht, Function.update_idem, List.nil_append]

/-- It leaves the whole text in the file. -/
theorem result_writeFile {mode : M} {text : List C} :
    (writeFile p mode text : Job (Tree N C M L) α).result s = some u ↔
      ∃ mode', OpensWith p mode s mode' ∧
        u.node = Function.update s.node p (some (.file text mode')) := by
  constructor
  · intro h
    obtain ⟨t, hopen, _⟩ := result_seq.mp h
    obtain ⟨mode', hopens, _⟩ := openFile_eq hopen
    obtain ⟨u', hu', hnode⟩ := result_writeFile_opens text hopens
    obtain rfl := Option.some.inj (h.symm.trans hu')
    exact ⟨mode', hopens, hnode⟩
  · intro ⟨mode', hopens, hu⟩
    obtain ⟨u', hu', hnode⟩ := result_writeFile_opens text hopens
    rw [hu', Tree.ext (hu.trans hnode.symm)]

/-- Stopped, it leaves a part of it. -/
theorem stops_writeFile {mode : M} {text : List C}
    (ht : t ∈ (writeFile p mode text : Job (Tree N C M L) α).stops s) :
    t = s ∨ ∃ mode' pre, OpensWith p mode s mode' ∧
      t.node = Function.update s.node p (some (.file pre mode')) := by
  obtain hstop | ⟨r, hr, hstop⟩ := mem_stops_seq.mp ht
  · obtain rfl | hopen := mem_stops_op.mp hstop
    · exact Or.inl rfl
    · obtain ⟨mode', hopens, hnode⟩ := openFile_eq hopen
      exact Or.inr ⟨mode', [], hopens, hnode⟩
  · obtain ⟨mode', hopens, hnode⟩ := openFile_eq hr
    have hfile : r.node p = some (.file [] mode') := by
      rw [hnode, Function.update_self]
    obtain ⟨pre, hpre⟩ := stops_writes hfile hstop
    rw [hnode, Function.update_idem, List.nil_append] at hpre
    exact Or.inr ⟨mode', pre, hopens, hpre⟩

/-- Written once more the file is the same, whatever has been left of it. -/
theorem writeFile_again {mode : M} {text : List C}
    (ht : t ∈ (writeFile p mode text : Job (Tree N C M L) α).stops s)
    (hu : (writeFile p mode text : Job (Tree N C M L) α).result t = some u) :
    (writeFile p mode text : Job (Tree N C M L) α).result s = some u := by
  obtain rfl | ⟨mode', pre, hopens, hnode⟩ := stops_writeFile ht
  · exact hu
  · obtain ⟨m, hopens', hu⟩ := result_writeFile.mp hu
    have hfile : t.node p = some (.file pre mode') := by
      rw [hnode, Function.update_self]
    obtain rfl := opensWith_file hfile hopens'
    rw [hnode, Function.update_idem] at hu
    exact result_writeFile.mpr ⟨m, hopens, hu⟩

omit [DecidableEq N] in
theorem OpensWith.noLink {mode mode' : M} (h : OpensWith p mode s mode') :
    NoLink (s.node p) := by
  intro target htarget
  obtain ⟨hnone, _⟩ | ⟨content, hfile⟩ := h
  · rw [hnone] at htarget
    cases htarget
  · rw [hfile] at htarget
    cases htarget

theorem changes_writeFile {mode : M} {text : List C} (hD : D p) :
    Stays (Changes D) (writeFile p mode text : Job (Tree N C M L) α) := by
  intro s t ht
  obtain rfl | ⟨mode', pre, hopens, hnode⟩ := stops_writeFile ht
  · exact refl_of (Changes D) t
  · apply changes_of_update hnode hD hopens.noLink
    intro target htarget
    cases htarget

theorem grows_writeFile {mode : M} {text : List C} :
    Stays (Grows K) (writeFile p mode text : Job (Tree N C M L) α) := by
  apply Stays.seq
  · apply stays_op
    intro s t h
    rw [openFile] at h
    split at h
    · exact place_grows h
    · exact edit_grows h
  · apply stays_each
    intro c _
    apply stays_op
    intro s t h
    exact edit_grows h

/-! set_up_file -/

omit [DecidableEq N] in
theorem Resumable.setUpFile {body : Job (Tree N C M L) α} (hK : ∀ q, q <+: p → K q)
    (hopen : ∀ s t u, t ∈ body.stops s → T t → t.exist out p = false → body.result t = some u →
      body.result s = some u)
    (hdone : ∀ s t, s.exist out p = false → t ∈ body.stops s → T t → t.exist out p = true →
      body.result s = some t)
    (hstays : Stays (Grows K) body) : Resumable (Grows K) T (setUpFile out p body) := by
  have hstop : ∀ {s t}, t ∈ (seq body (require fun t => t.exist out p)).stops s →
      t ∈ body.stops s := by
    intro s t ht
    obtain ht | ⟨r, hr, ht⟩ := mem_stops_seq.mp ht
    · exact ht
    · rw [stops_require, List.mem_singleton] at ht
      rw [ht]
      exact result_mem_stops hr
  have hkeep : ∀ s t : Tree N C M L, s.exist out p = true → Grows K s t →
      t.exist out p = true := fun s t hs hR => exist_mono hK hR hs
  refine Resumable.guarded hkeep (last_of_shut hkeep ?_) ?_ ?_ (hstays.seq (stays_require _))
  · intro s u hu
    obtain ⟨r, _, hr⟩ := result_seq.mp hu
    obtain ⟨hexist, rfl⟩ := result_require.mp hr
    exact hexist
  · intro s t u ht hT htest hu
    obtain ⟨r, hr, hrequire⟩ := result_seq.mp hu
    exact result_seq.mpr ⟨r, hopen s t r (hstop ht) hT htest hr, hrequire⟩
  · intro s t hs ht hT htest
    exact result_seq.mpr ⟨t, hdone s t hs (hstop ht) hT htest, result_require.mpr ⟨htest, rfl⟩⟩

/-- A directory that is set up. -/
theorem resumable_setUpFile_mkdirP (hp : dir ++ rest = p) (hK : ∀ q, q <+: p → K q)
    (hrest : rest ≠ []) :
    Resumable (Grows K) T (setUpFile out p (mkdirP out dir rest) : Job (Tree N C M L) α) := by
  subst hp
  have hmkdir : Resumable (Grows K) T (mkdirP out dir rest : Job (Tree N C M L) α) :=
    resumable_mkdirP hK
  apply Resumable.setUpFile hK
  · intro s t u ht hT _ hu
    exact hmkdir.resumes ht hT hu
  · intro s t hs ht _ hexist
    exact mkdirP_done hrest hs ht hexist
  · exact hmkdir.stays

end Rules
end LSU.FileJobs
