import LSU.Mounts
import LSU.Paths

/-! Which resolved paths try_mount_user_dir mounts, and where. The patterns it tests with look
at every line of the path, and a component may hold a line break. -/
namespace LSU.UserDirs
open LSU.Program LSU.Program.Script LSU.Mounts LSU.Paths

abbrev Component := Paths.Component '/'

/-- An absolute path without `.`, `..` and trailing separators. -/
def pathText (path : List Component) : Str := if path = [] then ['/'] else slashed path

def home : Component := ⟨"home".toList, by decide, by decide⟩
def usr : Component := ⟨"usr".toList, by decide, by decide⟩

/-- At or below the home directory of a user. -/
def BelowHome (path : List Component) : Prop :=
  ∃ user rest, path = home :: user :: rest ∨ path = usr :: home :: user :: rest

/-- What try_mount_user_dir is to mount. -/
def Allowed (path : List Component) : Prop :=
  BelowHome path ∨ ∃ c rest, path = c :: rest ∧ c.text ∉ reservedNames

/-- The first component of the text of an absolute path. -/
def firstName (text : Str) : Str := (text.drop 1).takeWhile (· ≠ '/')

/-- With `path` resolving to itself, try_mount_user_dir goes on to mount it on `target`. -/
def Attempts (mroot path target : Str) : Prop :=
  ∀ v, Feeds (tryMountUserDir mroot path v) [⟨.realpath path, some path⟩]
    (tryMount "nullfs" path target (some "nocover") v)

theorem feeds_nil {α : Type} {p q : Prog Op.Answer α} (h : Feeds p [] q) : q = p := by
  cases h
  rfl

theorem feeds_one {α : Type} {op : Op} {next : Op.Answer op → Prog Op.Answer α}
    {answer : Op.Answer op} {q : Prog Op.Answer α} :
    Feeds (.call op next) [⟨op, answer⟩] q ↔ q = next answer := by
  constructor
  · intro h
    cases h with
    | cons _ h => exact feeds_nil h
  · intro h
    rw [h]
    exact .cons answer (.nil _)

/-- try_mount asks first whether its target exists. -/
theorem tryMount_eq (fs : String) (src dst : Str) (options : Option String) (v : Vars) :
    ∃ next, tryMount fs src dst options v = .call (.exist dst) next := ⟨_, rfl⟩

theorem tryMount_target {fs : String} {src dst dst' : Str} {options : Option String} {v : Vars}
    (h : tryMount fs src dst options v = tryMount fs src dst' options v) : dst = dst' := by
  obtain ⟨next, heq⟩ := tryMount_eq fs src dst options v
  obtain ⟨next', heq'⟩ := tryMount_eq fs src dst' options v
  rw [heq, heq'] at h
  injection h with hop
  injection hop

theorem attempts_iff {mroot path target : Str} (h : path.head? = some '/') :
    Attempts mroot path target ↔
      (hierHomePath path || !reservedPaths path) = true ∧
        target = fileJoin mroot (rehome path) := by
  rw [Attempts, tryMountUserDir, if_pos h]
  have hgoes : ∀ v, Feeds ((fileRealpath path >>= fun path =>
        if (hierHomePath path || !reservedPaths path) = true then
          tryMount "nullfs" path (fileJoin mroot (rehome path)) (some "nocover")
        else pure none : Ruby (Option Str)) v) [⟨.realpath path, some path⟩]
        (tryMount "nullfs" path target (some "nocover") v) ↔
      tryMount "nullfs" path target (some "nocover") v =
        (if (hierHomePath path || !reservedPaths path) = true then
          tryMount "nullfs" path (fileJoin mroot (rehome path)) (some "nocover")
        else pure none : Ruby (Option Str)) v := fun v => feeds_one
  refine (forall_congr' hgoes).trans ⟨fun hall => ?_, fun ⟨hok, htarget⟩ v => ?_⟩
  · have hv := hall ⟨[], [], none⟩
    by_cases hok : (hierHomePath path || !reservedPaths path) = true
    · rw [if_pos hok] at hv
      exact ⟨hok, tryMount_target hv⟩
    · rw [if_neg hok] at hv
      obtain ⟨next, heq⟩ := tryMount_eq "nullfs" path target (some "nocover") ⟨[], [], none⟩
      rw [heq] at hv
      cases hv
  · rw [if_pos hok, htarget]

/-- `tail =~ HIER_HOME_PATH` at the start of a line. -/
def homeTail (tail : Str) : Bool :=
  homePrefixes.any fun home => home.isPrefixOf tail && (tail.drop home.length).head?.any (· ≠ '/')

/-- `tail =~ RESERVED_PATHS` at the start of a line. -/
def reservedTail : Str → Bool
  | '/' :: rest => lineEnd rest || reservedNames.any fun name =>
      name.isPrefixOf rest &&
        (lineEnd (rest.drop name.length) || (rest.drop name.length).head? = some '/')
  | _ => false

theorem lineTails_eq (s : Str) : lineTails s = s :: tailsAfter '\n' s := by
  rw [lineTails]
  congr 1
  induction s with
  | nil => rfl
  | cons c s ih =>
    rw [List.tails, List.filterMap_cons, tailsAfter, ih]
    by_cases hc : c = '\n'
    · simp [hc]
    · simp [hc]

theorem hierHomePath_eq (path : Str) : hierHomePath path = (lineTails path).any homeTail := rfl

theorem reservedPaths_eq (path : Str) :
    reservedPaths path = (lineTails path).any reservedTail := rfl

theorem homePrefixes_eq :
    homePrefixes = [slashed [home] ++ ['/'], slashed [usr, home] ++ ['/']] := by decide

theorem homeTail_slash {tail : Str} (h : homeTail tail = true) : tail.head? = some '/' := by
  obtain ⟨pre, hpre, hmatch⟩ := List.any_eq_true.mp h
  obtain ⟨hstart, -⟩ := (Bool.and_eq_true _ _).mp hmatch
  obtain ⟨w, rfl⟩ := List.isPrefixOf_iff_prefix.mp hstart
  rw [homePrefixes_eq] at hpre
  obtain rfl | rfl : pre = slashed [home] ++ ['/'] ∨ pre = slashed [usr, home] ++ ['/'] := by
    simpa using hpre
  · rfl
  · rfl

theorem reservedTail_slash {tail : Str} (h : reservedTail tail = true) :
    tail.head? = some '/' := by
  unfold reservedTail at h
  split at h
  · rfl
  · cases h

/-- `^` and a path, then a separator and something else. -/
theorem below_match {a path : List Component} :
    (((slashed a ++ ['/']).isPrefixOf (slashed path) &&
      ((slashed path).drop (slashed a ++ ['/']).length).head?.any (· ≠ '/')) = true) ↔
      ∃ c rest, path = a ++ c :: rest := by
  rw [Bool.and_eq_true, List.isPrefixOf_iff_prefix, slashed_below]
  constructor
  · exact fun h => h.1
  · intro ⟨c, rest, hpath⟩
    refine ⟨⟨c, rest, hpath⟩, ?_⟩
    have htext : slashed path = (slashed a ++ ['/']) ++ (c.text ++ slashed rest) := by
      simp [hpath, slashed_append]
    obtain ⟨x, hx, hne⟩ := c.head?_ne (slashed rest)
    rw [htext, List.drop_left, hx]
    simpa using hne

theorem homeTail_slashed (path : List Component) :
    homeTail (slashed path) = true ↔ BelowHome path := by
  rw [homeTail, homePrefixes_eq, List.any_cons, List.any_cons, List.any_nil, Bool.or_false,
    Bool.or_eq_true, below_match, below_match]
  constructor
  · intro h
    obtain ⟨c, rest, hpath⟩ | ⟨c, rest, hpath⟩ := h
    · exact ⟨c, rest, Or.inl hpath⟩
    · exact ⟨c, rest, Or.inr hpath⟩
  · intro ⟨user, rest, h⟩
    obtain hpath | hpath := h
    · exact Or.inl ⟨user, rest, hpath⟩
    · exact Or.inr ⟨user, rest, hpath⟩

/-- The text up to the end of its line. -/
def firstLine (text : Str) : Str := text.takeWhile (· ≠ '\n')

/-- The text up to the end of its line or to a separator. -/
def firstWord (text : Str) : Str := text.takeWhile fun c => c ≠ '\n' && c ≠ '/'

theorem firstWord_append {u w : Str} (hu : '/' ∉ u) (hw : Boundary '/' w) :
    firstWord (u ++ w) = firstLine u := by
  induction u with
  | nil =>
    obtain hnil | hhead := hw
    · simp [hnil, firstWord, firstLine]
    · obtain ⟨w', rfl⟩ := List.head?_eq_some_iff.mp hhead
      simp [firstWord, firstLine]
  | cons c u ih =>
    have hc : c ≠ '/' := fun h => hu (h ▸ List.mem_cons_self)
    have hrest := ih fun hm => hu (List.mem_cons_of_mem c hm)
    rw [firstWord, firstLine] at hrest ⊢
    rw [List.cons_append, List.takeWhile_cons, List.takeWhile_cons, hrest]
    simp [hc]

/-- A name and then the end of the line or a separator. -/
theorem word_match {name w : Str} (hname : ∀ c ∈ name, c ≠ '\n' ∧ c ≠ '/') :
    (name.isPrefixOf w && (lineEnd (w.drop name.length) ||
      (w.drop name.length).head? = some '/')) = true ↔ firstWord w = name := by
  have hpass : ∀ c ∈ name, (c ≠ '\n' && c ≠ '/') = true := by simpa using hname
  rw [Bool.and_eq_true, List.isPrefixOf_iff_prefix]
  constructor
  · intro ⟨⟨r, hr⟩, hend⟩
    rw [← hr, List.drop_left] at hend
    rw [firstWord, ← hr, List.takeWhile_append_of_pos hpass]
    cases r with
    | nil => simp
    | cons c r =>
      obtain rfl | rfl : c = '\n' ∨ c = '/' := by simpa [lineEnd] using hend
      · simp
      · simp
  · intro h
    have hw : name ++ w.dropWhile (fun c => c ≠ '\n' && c ≠ '/') = w := by
      rw [← h, firstWord, List.takeWhile_append_dropWhile]
    have hnext := List.head?_dropWhile_not (fun c => c ≠ '\n' && c ≠ '/') w
    generalize w.dropWhile (fun c => c ≠ '\n' && c ≠ '/') = r at hw hnext
    rw [← hw, List.drop_left]
    refine ⟨List.prefix_append name r, ?_⟩
    cases r with
    | nil => rfl
    | cons c r => 
      have hc : c = '\n' ∨ c = '/' := by
        by_contra hno
        simp [not_or.mp hno] at hnext
      simpa [lineEnd] using hc

/-- A pattern that wants a separator first is found in a path at its start or behind a component
that ends in a line break. -/
theorem any_lineTails {p : Str → Bool} (hp : ∀ tail, p tail = true → tail.head? = some '/')
    (path : List Component) :
    (lineTails (slashed path)).any p = true ↔
      p (slashed path) = true ∨ ∃ v ∈ later '\n' path, p (slashed v) = true := by
  rw [lineTails_eq, List.any_cons, Bool.or_eq_true, List.any_eq_true]
  apply or_congr_right
  constructor
  · intro ⟨tail, hmem, htail⟩
    obtain ⟨v, hv, rfl⟩ := (mem_tailsAfter_slashed (by decide) (hp tail htail)).mp hmem
    exact ⟨v, hv, htail⟩
  · intro ⟨v, hv, htail⟩
    exact ⟨slashed v, (mem_tailsAfter_slashed (by decide) (hp _ htail)).mpr ⟨v, hv, rfl⟩, htail⟩

/-- A component that a line of RESERVED_PATHS takes for a reserved name. -/
def ReservedLine (c : Component) : Prop :=
  firstLine c.text = [] ∨ firstLine c.text ∈ reservedNames

theorem reservedNames_plain : ∀ name ∈ reservedNames, ∀ c ∈ name, c ≠ '\n' ∧ c ≠ '/' := by
  simp [reservedNames]

theorem reservedTail_slashed (c : Component) (rest : List Component) :
    reservedTail (slashed (c :: rest)) = true ↔ ReservedLine c := by
  have hword := firstWord_append c.plain (slashed_boundary rest)
  obtain ⟨x, hx, hne⟩ := c.head?_ne (slashed rest)
  have hend : lineEnd (c.text ++ slashed rest) = true ↔ firstLine c.text = [] := by
    rw [← hword]
    generalize c.text ++ slashed rest = w at hx
    obtain ⟨w', rfl⟩ := List.head?_eq_some_iff.mp hx
    simp [lineEnd, firstWord, List.takeWhile_cons, hne]
  rw [slashed_cons, reservedTail, Bool.or_eq_true, hend, List.any_eq_true, ReservedLine]
  apply or_congr_right
  constructor
  · intro ⟨name, hname, hmatch⟩
    rw [← hword, (word_match (reservedNames_plain name hname)).mp hmatch]
    exact hname
  · intro h
    exact ⟨_, h, (word_match (reservedNames_plain _ h)).mpr hword⟩

/-- A later line of the path looks like a path below a home directory. -/
def HomeLater (path : List Component) : Prop := ∃ v ∈ later '\n' path, BelowHome v

/-- A later line of the path looks like a path with a reserved name. -/
def ReservedLater (path : List Component) : Prop :=
  ∃ c rest, c :: rest ∈ later '\n' path ∧ ReservedLine c

theorem hierHomePath_slashed (path : List Component) :
    hierHomePath (slashed path) = true ↔ BelowHome path ∨ HomeLater path := by
  simp only [hierHomePath_eq, any_lineTails (fun _ => homeTail_slash), homeTail_slashed, HomeLater]

theorem reservedPaths_slashed (c : Component) (rest : List Component) :
    reservedPaths (slashed (c :: rest)) = true ↔
      ReservedLine c ∨ ReservedLater (c :: rest) := by
  rw [reservedPaths_eq, any_lineTails (fun _ => reservedTail_slash), reservedTail_slashed]
  apply or_congr_right
  constructor
  · intro ⟨v, hv, hres⟩
    cases v with
    | nil => cases hres
    | cons d v => exact ⟨d, v, hv, (reservedTail_slashed d v).mp hres⟩
  · intro ⟨d, v, hv, hres⟩
    exact ⟨d :: v, hv, (reservedTail_slashed d v).mpr hres⟩

/-! The substitution of the target. -/

def rehomeLine (line : Str) : Str :=
  if usrHome.isPrefixOf line then "/home/".toList ++ line.drop usrHome.length else line

/-- The substitution from within a line on. -/
def rehomeRest : Str → Str
  | [] => []
  | c :: s => if c = '\n' then c :: rehome s else c :: rehomeRest s

theorem rehome_lines (s : Str) :
    rehome s = ['\n'].intercalate ((s.splitOn '\n').map rehomeLine) := rfl

theorem splitOn_cons (c : Char) {s k : Str} {ks : List Str} (hs : s.splitOn '\n' = k :: ks) :
    (c :: s).splitOn '\n' = if c = '\n' then [] :: k :: ks else (c :: k) :: ks := by
  rw [List.splitOn_cons_eq_if_modifyHead, hs]
  simp

theorem rehomeRest_lines {s l : Str} {ls : List Str} (h : s.splitOn '\n' = l :: ls) :
    rehomeRest s = ['\n'].intercalate (l :: ls.map rehomeLine) := by
  induction s generalizing l ls with
  | nil =>
    obtain ⟨rfl, rfl⟩ := List.cons.inj (h.symm.trans (List.splitOn_nil '\n'))
    rfl
  | cons c s ih =>
    obtain ⟨k, ks, hs⟩ := List.exists_cons_of_ne_nil (List.splitOn_ne_nil '\n' s)
    rw [splitOn_cons c hs] at h
    rw [rehomeRest]
    by_cases hc : c = '\n'
    · rw [if_pos hc] at h ⊢
      obtain ⟨rfl, rfl⟩ := List.cons.inj h
      rw [rehome_lines, hs, List.map_cons, List.intercalate_cons_cons, hc]
      rfl
    · rw [if_neg hc] at h ⊢
      obtain ⟨rfl, rfl⟩ := List.cons.inj h
      rw [ih hs, List.intercalate_cons_cons_left]

/-- The first line of a text is a prefix of it. -/
theorem splitOn_head {s k : Str} {ks : List Str} (hs : s.splitOn '\n' = k :: ks) : k <+: s := by
  have htext : ['\n'].intercalate (s.splitOn '\n') = s := List.intercalate_splitOn '\n'
  rw [hs] at htext
  rw [← htext]
  cases ks with
  | nil => simp
  | cons k' ks =>
    rw [List.intercalate_cons_cons, List.append_assoc]
    exact List.prefix_append k _

theorem not_home_of_ne {c : Char} (h : c ≠ '/') (s : Str) :
    usrHome.isPrefixOf (c :: s) = false := by
  have hhead : usrHome = '/' :: "usr/home/".toList := by decide
  rw [hhead, List.isPrefixOf_cons_cons]
  simp [Ne.symm h]

theorem rehome_of_home {s : Str} (h : usrHome.isPrefixOf s = true) :
    rehome s = "/home/".toList ++ rehomeRest (s.drop usrHome.length) := by
  obtain ⟨w, rfl⟩ := List.isPrefixOf_iff_prefix.mp h
  obtain ⟨k, ks, hs⟩ := List.exists_cons_of_ne_nil (List.splitOn_ne_nil '\n' w)
  have hsplit : (usrHome ++ w).splitOn '\n' = (usrHome ++ k) :: ks := by
    have hskip : ∀ u : Str, '\n' ∉ u → (u ++ w).splitOn '\n' = (u ++ k) :: ks := by
      intro u hu
      induction u with
      | nil => exact hs
      | cons c u ih =>
        have hc : c ≠ '\n' := fun h => hu (h ▸ List.mem_cons_self)
        have hrest := ih fun hm => hu (List.mem_cons_of_mem c hm)
        rw [List.cons_append, splitOn_cons c hrest, if_neg hc, List.cons_append]
    exact hskip usrHome (by decide)
  have hline : rehomeLine (usrHome ++ k) = "/home/".toList ++ k := by
    rw [rehomeLine, if_pos (List.isPrefixOf_iff_prefix.mpr (List.prefix_append usrHome k)),
      List.drop_left]
  rw [List.drop_left, rehomeRest_lines hs, rehome_lines, hsplit, List.map_cons, hline]
  cases ks with
  | nil => simp only [List.map_nil, List.intercalate_singleton]
  | cons k' ks => simp only [List.map_cons, List.intercalate_cons_cons, List.append_assoc]

theorem rehome_of_not_home {s : Str} (h : usrHome.isPrefixOf s = false) :
    rehome s = rehomeRest s := by
  obtain ⟨k, ks, hs⟩ := List.exists_cons_of_ne_nil (List.splitOn_ne_nil '\n' s)
  have hline : rehomeLine k = k := by
    rw [rehomeLine, if_neg]
    intro hpre
    have hs' := (List.isPrefixOf_iff_prefix.mp hpre).trans (splitOn_head hs)
    simp [List.isPrefixOf_iff_prefix.mpr hs'] at h
  rw [rehomeRest_lines hs, rehome_lines, hs, List.map_cons, hline]

/-- Past the start of a line a text up to the next separator stays. -/
theorem rehomeRest_append {u w : Str} (hu : '/' ∉ u) (hw : Boundary '/' w) :
    ∃ y, rehomeRest (u ++ w) = u ++ y ∧ Boundary '/' y := by
  have hboundary : ∀ {x : Str}, Boundary '/' x → Boundary '/' (rehomeRest x) := by
    intro x hx
    obtain rfl | hhead := hx
    · exact Or.inl rfl
    · obtain ⟨x', rfl⟩ := List.head?_eq_some_iff.mp hhead
      exact Or.inr rfl
  have hstart : ∀ {x : Str}, Boundary '/' x → Boundary '/' (rehome x) := by
    intro x hx
    cases hhome : usrHome.isPrefixOf x with
    | true => exact Or.inr (by rw [rehome_of_home hhome]; rfl)
    | false => exact rehome_of_not_home hhome ▸ hboundary hx
  induction u with
  | nil => exact ⟨rehomeRest w, rfl, hboundary hw⟩
  | cons c u ih =>
    obtain ⟨y, hy, hbound⟩ := ih fun hm => hu (List.mem_cons_of_mem c hm)
    rw [List.cons_append, rehomeRest]
    by_cases hc : c = '\n'
    · rw [if_pos hc]
      cases u with
      | nil => exact ⟨rehome w, rfl, hstart hw⟩
      | cons d u =>
        have hd : d ≠ '/' := by
          intro h
          simp [h] at hu
        have hnext : rehome (d :: u ++ w) = d :: u ++ y :=
          (rehome_of_not_home (not_home_of_ne hd (u ++ w))).trans hy
        exact ⟨y, by rw [hnext]; rfl, hbound⟩
    · rw [if_neg hc, hy]
      exact ⟨y, rfl, hbound⟩

theorem firstName_append {u w : Str} (hu : '/' ∉ u) (hw : Boundary '/' w) :
    firstName ('/' :: (u ++ w)) = u := by
  have hpass : ∀ c ∈ u, decide (c ≠ '/') = true := by
    intro c hc
    rw [decide_eq_true_eq]
    intro h
    exact hu (h ▸ hc)
  rw [firstName, List.drop_one, List.tail_cons, List.takeWhile_append_of_pos hpass]
  obtain rfl | hhead := hw
  · simp
  · obtain ⟨w', rfl⟩ := List.head?_eq_some_iff.mp hhead
    simp

theorem usrHome_eq : usrHome = slashed [usr, home] ++ ['/'] := by decide

/-- The substitution takes `usr` off the path of a home directory below it. -/
theorem rehome_usr_home (user : Component) (rest : List Component) :
    ∃ w, rehome (slashed (usr :: home :: user :: rest)) = '/' :: (home.text ++ '/' :: w) := by
  have htext : slashed (usr :: home :: user :: rest) =
      usrHome ++ (user.text ++ slashed rest) := by
    simp [usrHome_eq]
  have hhome : "/home/".toList = '/' :: (home.text ++ ['/']) := by decide
  have hpre : usrHome.isPrefixOf (usrHome ++ (user.text ++ slashed rest)) = true :=
    List.isPrefixOf_iff_prefix.mpr (List.prefix_append _ _)
  rw [htext, rehome_of_home hpre, hhome]
  exact ⟨_, by rw [List.cons_append, List.append_assoc, List.singleton_append]⟩

/-- It leaves the first component of every other path. -/
theorem rehome_other {c : Component} {rest : List Component}
    (h : ∀ user rest', c :: rest ≠ usr :: home :: user :: rest') :
    ∃ w, rehome (slashed (c :: rest)) = '/' :: (c.text ++ w) ∧ Boundary '/' w := by
  have hpre : usrHome.isPrefixOf (slashed (c :: rest)) = false := by
    by_contra hpre
    rw [Bool.not_eq_false, List.isPrefixOf_iff_prefix, usrHome_eq, slashed_below] at hpre
    obtain ⟨user, rest', hpath⟩ := hpre
    exact h user rest' hpath
  obtain ⟨w, hw, hbound⟩ := rehomeRest_append c.plain (slashed_boundary rest)
  refine ⟨w, ?_, hbound⟩
  rw [rehome_of_not_home hpre, slashed_cons, rehomeRest, if_neg (by decide), hw]

/-- Where the path is mounted: at mroot and a path whose first component is its own, or home
for a home directory. -/
theorem target_below (mroot : Str) (c : Component) (rest : List Component) :
    ∃ below, fileJoin mroot (rehome (slashed (c :: rest))) =
        mroot.rdropWhile (· = '/') ++ below ∧ below.head? = some '/' ∧
      (firstName below = home.text ∨
        firstName below = c.text ∧ ¬ ∃ user rest', c :: rest = usr :: home :: user :: rest') := by
  have hjoin : ∀ below : Str, below.head? = some '/' →
      fileJoin mroot below = mroot.rdropWhile (· = '/') ++ below := by
    intro below hbelow
    rw [fileJoin, if_pos hbelow]
  by_cases husr : ∃ user rest', c :: rest = usr :: home :: user :: rest'
  · obtain ⟨user, rest', hpath⟩ := husr
    obtain ⟨w, hw⟩ := rehome_usr_home user rest'
    rw [hpath, hw]
    exact ⟨_, hjoin _ rfl, rfl, Or.inl (firstName_append home.plain (Or.inr rfl))⟩
  · have hother : ∀ user rest', c :: rest ≠ usr :: home :: user :: rest' :=
      fun user rest' hpath => husr ⟨user, rest', hpath⟩
    obtain ⟨w, hw, hbound⟩ := rehome_other hother
    rw [hw]
    exact ⟨_, hjoin _ rfl, rfl, Or.inr ⟨firstName_append c.plain hbound, husr⟩⟩

/-- What is wanted of a path. -/
def MountsAsAllowed (mroot : Str) (path : List Component) : Prop :=
  ((∃ target, Attempts mroot (pathText path) target) ↔ Allowed path) ∧
    ∀ target, Attempts mroot (pathText path) target →
      ∃ below, target = mroot.rdropWhile (· = '/') ++ below ∧ below.head? = some '/' ∧
        firstName below ∉ reservedNames

/-- No line of the path is taken for another path, or it makes no difference. -/
def NoStrayLine (path : List Component) : Prop :=
  BelowHome path ∨ ∀ c rest, path = c :: rest →
    (c.text ∈ reservedNames → ¬ HomeLater path) ∧
    (c.text ∉ reservedNames → HomeLater path ∨ ¬ ReservedLine c ∧ ¬ ReservedLater path)

theorem reservedLine_of_reserved {c : Component} (h : c.text ∈ reservedNames) :
    ReservedLine c := by
  have hpass : ∀ x ∈ c.text, decide (x ≠ '\n') = true := by
    intro x hx
    simpa using (reservedNames_plain _ h x hx).1
  have hline : firstLine c.text = c.text := List.takeWhile_eq_self_iff.mpr hpass
  rw [ReservedLine, hline]
  exact Or.inr h

theorem attempts_slashed {mroot target : Str} {c : Component} {rest : List Component} :
    Attempts mroot (pathText (c :: rest)) target ↔
      ((BelowHome (c :: rest) ∨ HomeLater (c :: rest)) ∨
        ¬ (ReservedLine c ∨ ReservedLater (c :: rest))) ∧
        target = fileJoin mroot (rehome (slashed (c :: rest))) := by
  rw [pathText, if_neg (List.cons_ne_nil c rest), attempts_iff (slashed_head? (by simp)),
    Bool.or_eq_true, hierHomePath_slashed, Bool.not_eq_true', ← Bool.not_eq_true,
    reservedPaths_slashed]

theorem not_attempts_root (mroot target : Str) : ¬ Attempts mroot (pathText []) target := by
  intro h
  have hok := ((attempts_iff rfl).mp h).1
  exact absurd hok (by decide)

/-- A path that is to be mounted has its target outside of the system directories. -/
theorem target_of_allowed (mroot : Str) {c : Component} {rest : List Component}
    (h : Allowed (c :: rest)) :
    ∃ below, fileJoin mroot (rehome (slashed (c :: rest))) =
        mroot.rdropWhile (· = '/') ++ below ∧ below.head? = some '/' ∧
      firstName below ∉ reservedNames := by
  have hhome : home.text ∉ reservedNames := by decide
  obtain ⟨below, htarget, hhead, hname⟩ := target_below mroot c rest
  refine ⟨below, htarget, hhead, ?_⟩
  obtain hname | ⟨hname, hno⟩ := hname
  · exact hname ▸ hhome
  · rw [hname]
    obtain ⟨user, rest', hpath | hpath⟩ | ⟨d, rest', hpath, hd⟩ := h
    · exact (List.cons.inj hpath).1 ▸ hhome
    · exact absurd ⟨user, rest', hpath⟩ hno
    · exact (List.cons.inj hpath).1 ▸ hd

/-- try_mount_user_dir keeps to its policy on exactly the paths without a stray line. -/
theorem mountsAsAllowed_iff (mroot : Str) (path : List Component) :
    MountsAsAllowed mroot path ↔ NoStrayLine path := by
  cases path with
  | nil =>
    have hroot : ¬ Allowed [] := by
      intro h
      obtain ⟨user, rest, hpath | hpath⟩ | ⟨d, rest, hpath, -⟩ := h <;> cases hpath
    have hno := not_attempts_root mroot
    refine ⟨fun _ => Or.inr fun c rest hpath => ?_, fun _ => ⟨?_, fun target ht => ?_⟩⟩
    · cases hpath
    · exact ⟨fun ⟨target, ht⟩ => absurd ht (hno target), fun h => absurd h hroot⟩
    · exact absurd ht (hno target)
  | cons c rest =>
    have hallowed : Allowed (c :: rest) ↔ BelowHome (c :: rest) ∨ c.text ∉ reservedNames := by
      simp [Allowed]
    have hnostray : NoStrayLine (c :: rest) ↔ BelowHome (c :: rest) ∨
        (c.text ∈ reservedNames → ¬ HomeLater (c :: rest)) ∧
        (c.text ∉ reservedNames → HomeLater (c :: rest) ∨
          ¬ ReservedLine c ∧ ¬ ReservedLater (c :: rest)) := by
      rw [NoStrayLine]
      apply or_congr_right
      constructor
      · exact fun h => h c rest rfl
      · intro h d rest' hpath
        obtain ⟨rfl, rfl⟩ := List.cons.inj hpath
        exact h
    have hline := reservedLine_of_reserved (c := c)
    have hattempts : (∃ target, Attempts mroot (pathText (c :: rest)) target) ↔
        (BelowHome (c :: rest) ∨ HomeLater (c :: rest)) ∨
          ¬ (ReservedLine c ∨ ReservedLater (c :: rest)) := by
      simp only [attempts_slashed, exists_and_left, exists_eq, and_true]
    have hagree : ((∃ target, Attempts mroot (pathText (c :: rest)) target) ↔
        Allowed (c :: rest)) ↔ NoStrayLine (c :: rest) := by
      rw [hattempts, hallowed, hnostray]
      by_cases hb : BelowHome (c :: rest)
      · simp only [hb, true_or]
      · by_cases hr : c.text ∈ reservedNames
        · simp only [hb, hr, hline hr, false_or, true_or, not_true_eq_false, or_false, iff_false,
            true_imp_iff, false_imp_iff, and_true]
        · simp only [hb, hr, false_or, not_or, not_false_eq_true, iff_true, true_imp_iff,
            false_imp_iff, true_and]
    rw [MountsAsAllowed, hagree]
    refine ⟨fun h => h.1, fun h => ⟨h, fun target ht => ?_⟩⟩
    obtain ⟨below, htarget, hbelow⟩ := target_of_allowed mroot
      ((hagree.mpr h).mp ⟨target, ht⟩)
    exact ⟨below, (attempts_slashed.mp ht).2.trans htarget, hbelow⟩

/-- A directory in /etc is mounted over /etc in the chroot: the component before `home` ends in
a line break. -/
theorem etc_line_break_mounted :
    ¬ MountsAsAllowed "/m".toList [⟨"etc".toList, by decide, by decide⟩,
      ⟨"a\n".toList, by decide, by decide⟩, home, ⟨"x".toList, by decide, by decide⟩] := by
  intro h
  have hlater : HomeLater [⟨"etc".toList, by decide, by decide⟩,
      ⟨"a\n".toList, by decide, by decide⟩, home, ⟨"x".toList, by decide, by decide⟩] :=
    ⟨[home, ⟨"x".toList, by decide, by decide⟩], by simp [later], _, [], Or.inl rfl⟩
  obtain ⟨user, rest, hpath | hpath⟩ | ⟨c, rest, hpath, hc⟩ :=
    h.1.mp ⟨_, attempts_slashed.mpr ⟨Or.inl (Or.inr hlater), rfl⟩⟩
  · have hname := congrArg Component.text (List.cons.inj hpath).1
    exact absurd hname (by decide)
  · have hname := congrArg Component.text (List.cons.inj hpath).1
    exact absurd hname (by decide)
  · rw [← (List.cons.inj hpath).1] at hc
    exact hc (by decide)

end LSU.UserDirs
