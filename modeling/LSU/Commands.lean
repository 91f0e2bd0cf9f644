import LSU.Text

/-! The commands steamfix.c rewrites on their way to libc. A C string is the list of its
characters up to the NUL; `none` stands for undefined behaviour or a failed assertion. -/
namespace LSU.Commands
open LSU.Text

abbrev Str := List Char

def strstr (hay needle : Str) : Option Nat := firstOccurrence needle hay

/-! The texts the commands are searched for. -/
def reaperSteamLaunch : Str := "/reaper SteamLaunch".toList
def dashes : Str := "--".toList
def xdgOpenCmd : Str := "'/usr/bin/xdg-open'".toList
def webhelperSh : Str := "steamwebhelper.sh".toList
def webhelperShQuoted : Str := "steamwebhelper.sh' ".toList
def webhelperShPatched : Str := "steamwebhelper.sh.patched".toList

def memset (s : Str) (i : Nat) (c : Char) (n : Nat) : Str := overwrite s i (List.replicate n c)

def memcpy (s : Str) (i : Nat) (src : Str) : Str := overwrite s i src

/-- The backward loop: from `p` down to the start or to the last space before. -/
def blankWord (s : Str) : Nat → Str
  | 0 => if s[0]? = some ' ' then s else s.set 0 ' '
  | p + 1 => if s[p + 1]? = some ' ' then s else blankWord (s.set (p + 1) ' ') p

/-- The forward loop, `n` turns of it from `p` on. -/
def blankFrom (s : Str) (p : Nat) : Nat → Str
  | 0 => s
  | n + 1 => blankFrom (s.set p ' ') (p + 1) n

def purgeReaper (command : Str) : Option Str :=
  match strstr command reaperSteamLaunch with
  | some reaperStr =>
    match strstr (command.drop reaperStr) dashes with
    | some e => some (blankFrom (blankWord command reaperStr) reaperStr (e + 2))
    | none => none
  | none => some command

/-- The conversions of printf, of which only %s is used. -/
def printf : Str → List Str → Str
  | '%' :: 's' :: format, arg :: args => arg ++ printf format args
  | c :: format, args => c :: printf format args
  | [], _ => []

/-- At most `size - 1` characters reach the buffer. -/
def snprintf (size : Nat) (format : Str) (args : List Str) : Str :=
  (printf format args).take (size - 1)

def formatStr : Str := "LD_PRELOAD=webfix.so %s.patched' %s --no-sandbox".toList

/-- `webhelperArgs` is an offset into the copy of the command. The copy is cut two
characters before it, where the closing quote of the path stands. -/
def modifyWebhelperCommand (command : Str) : Option Str :=
  let bufLen := formatStr.length + command.length + 1
  match strstr command webhelperShQuoted with
  | some i =>
    let webhelperArgs := i + webhelperShQuoted.length
    if command[webhelperArgs - 2]? = some '\'' then
      some (snprintf bufLen formatStr
        [command.take (webhelperArgs - 2), command.drop webhelperArgs])
    else
      none
  | none => none

/-- What becomes of a command given to one of the entry points. -/
inductive Decision where
  | refuse
  | rewrite (command : Str)
  | passOn (command : Str)
  | crash

def rewriteWebhelper (command : Str) : Decision :=
  match modifyWebhelperCommand command with
  | some buf => .rewrite buf
  | none => .crash

/-- `browserEnv` is `getenv("LSU_BROWSER")`. -/
def system (browserEnv : Option Str) (command : Str) : Decision :=
  match strstr command xdgOpenCmd with
  | some i => .passOn (memcpy (memset command i ' ' xdgOpenCmd.length) i "xdg-open".toList)
  | none =>
    if (strstr command webhelperSh).isSome then
      if browserEnv = none ∨ browserEnv = some ['1'] then
        rewriteWebhelper command
      else
        .refuse
    else
      match purgeReaper command with
      | some command => .passOn command
      | none => .crash

def selectsWebhelper (arg : Str) : Bool :=
  (strstr arg webhelperSh).isSome &&
    !(strstr arg webhelperShPatched).isSome

/-- The loop over argv, `i` being the index of its first argument. Each selected argument
replaces the one before. -/
def webhelperStrIndex (i : Nat) : List Str → Option Nat → Option Nat
  | [], found => found
  | arg :: argv, found =>
    webhelperStrIndex (i + 1) argv (if selectsWebhelper arg then some i else found)

/-- What execv makes of each of its arguments, in order; the file name is passed on. -/
def execv (argv : List Str) : List Decision :=
  match webhelperStrIndex 0 argv none with
  | some i => argv.mapIdx fun j arg => if j = i then rewriteWebhelper arg else .passOn arg
  | none => argv.map .passOn

theorem strstr_isSome {hay needle : Str} : (strstr hay needle).isSome ↔ needle <:+: hay :=
  firstOccurrence_isSome

theorem strstr_eq_none {hay needle : Str} : strstr hay needle = none ↔ ¬ needle <:+: hay :=
  firstOccurrence_eq_none

theorem strstr_length {hay needle : Str} {i : Nat} (h : strstr hay needle = some i)
    (hn : needle ≠ []) : i + needle.length ≤ hay.length := by
  have hpre := firstOccurrence_prefix h
  have hle := hpre.length_le
  have hpos := List.length_pos_iff.mpr hn
  rw [List.length_drop] at hle
  omega

/-- The assertion on the closing quote never fails once the pattern is found. -/
theorem modifyWebhelperCommand_isSome {c : Str} :
    (modifyWebhelperCommand c).isSome ↔ webhelperShQuoted <:+: c := by
  cases h : strstr c webhelperShQuoted with
  | none => simpa [modifyWebhelperCommand, h] using strstr_eq_none.mp h
  | some i =>
    have hquote : (c)[i + 17]? = some '\'' := firstOccurrence_getElem h (by decide)
    have hocc : webhelperShQuoted <:+: c := strstr_isSome.mp (by simp [h])
    have hlen : i + webhelperShQuoted.length - 2 = i + 17 := rfl
    simp [modifyWebhelperCommand, h, hlen, hquote, hocc]

theorem purgeReaper_isSome {c : Str} :
    (purgeReaper c).isSome ↔ ∀ i, strstr c reaperSteamLaunch = some i →
      dashes <:+: c.drop i := by
  cases h : strstr c reaperSteamLaunch with
  | none => simp [purgeReaper, h]
  | some i =>
    cases he : strstr (c.drop i) dashes with
    | none => simpa [purgeReaper, h, he] using strstr_eq_none.mp he
    | some e =>
      have hocc := strstr_isSome.mp (Option.isSome_iff_exists.mpr ⟨e, he⟩)
      simpa [purgeReaper, h, he] using hocc

theorem webhelperStrIndex_append (i : Nat) (u v : List Str) (found : Option Nat) :
    webhelperStrIndex i (u ++ v) found =
      webhelperStrIndex (i + u.length) v (webhelperStrIndex i u found) := by
  induction u generalizing i found with
  | nil => rfl
  | cons a u ih =>
    simp only [List.cons_append, webhelperStrIndex, ih, List.length_cons]
    congr 1
    omega

theorem webhelperStrIndex_none {argv : List Str} (h : ∀ a ∈ argv, selectsWebhelper a = false)
    (i : Nat) (found : Option Nat) : webhelperStrIndex i argv found = found := by
  induction argv generalizing i with
  | nil => rfl
  | cons a argv ih =>
    have ha := h a List.mem_cons_self
    have hrest := ih fun b hb => h b (List.mem_cons_of_mem a hb)
    simp [webhelperStrIndex, ha, hrest]

/-- With no other argument to select, execv decides on `c` alone. -/
theorem execv_single {u v : List Str} (h : ∀ a ∈ u ++ v, selectsWebhelper a = false) (c : Str) :
    (execv (u ++ c :: v))[u.length]? =
      some (if selectsWebhelper c then rewriteWebhelper c else .passOn c) := by
  have hu : ∀ a ∈ u, selectsWebhelper a = false := fun a ha => h a (List.mem_append_left v ha)
  have hv : ∀ a ∈ v, selectsWebhelper a = false := fun a ha => h a (List.mem_append_right u ha)
  have hidx : webhelperStrIndex 0 (u ++ c :: v) none =
      if selectsWebhelper c then some u.length else none := by
    rw [webhelperStrIndex_append, webhelperStrIndex_none hu, webhelperStrIndex,
      webhelperStrIndex_none hv, Nat.zero_add]
  rw [execv, hidx]
  cases hc : selectsWebhelper c <;> simp

/-- Both refuse, both launch one and the same rewritten command, or both pass `c` on. -/
def SameDecision : Decision → Decision → Prop
  | .refuse, .refuse => True
  | .rewrite a, .rewrite b => a = b
  | .passOn _, .passOn _ => True
  | _, _ => False

/-- Where the two policies meet: no web helper in the command and nothing for purge_reaper
to stumble over; or a patched command that system takes for an xdg-open one; or an
unpatched, quoted web helper command with the browser enabled. -/
def PoliciesMeet (browserEnv : Option Str) (c : Str) : Prop :=
  ¬ webhelperSh <:+: c ∧
      (xdgOpenCmd <:+: c ∨ ∀ i, strstr c reaperSteamLaunch = some i →
        dashes <:+: c.drop i) ∨
    xdgOpenCmd <:+: c ∧ webhelperShPatched <:+: c ∨
    ¬ xdgOpenCmd <:+: c ∧ ¬ webhelperShPatched <:+: c ∧
      (browserEnv = none ∨ browserEnv = some ['1']) ∧ webhelperShQuoted <:+: c

theorem selectsWebhelper_iff {c : Str} :
    selectsWebhelper c = true ↔
      webhelperSh <:+: c ∧ ¬ webhelperShPatched <:+: c := by
  rw [← strstr_isSome, ← strstr_isSome, selectsWebhelper]
  simp

theorem mention_of_patched {c : Str} (h : webhelperShPatched <:+: c) :
    webhelperSh <:+: c :=
  List.IsInfix.trans (by decide) h

theorem mention_of_quoted {c : Str} (h : webhelperShQuoted <:+: c) :
    webhelperSh <:+: c :=
  List.IsInfix.trans (by decide) h

theorem not_selects_of_no_mention {c : Str} (h : ¬ webhelperSh <:+: c) :
    selectsWebhelper c = false := by
  by_contra hs
  exact h (selectsWebhelper_iff.mp (by simpa using hs)).1

theorem system_xdgOpen (browserEnv : Option Str) {c : Str} (h : xdgOpenCmd <:+: c) :
    ∃ command, system browserEnv c = .passOn command := by
  obtain ⟨i, hi⟩ := Option.isSome_iff_exists.mp (strstr_isSome.mpr h)
  simp [system, hi]

theorem system_webhelper {browserEnv : Option Str} {c : Str} (hx : ¬ xdgOpenCmd <:+: c)
    (hm : webhelperSh <:+: c) : system browserEnv c =
      if browserEnv = none ∨ browserEnv = some ['1'] then rewriteWebhelper c else .refuse := by
  simp only [system, strstr_eq_none.mpr hx, strstr_isSome.mpr hm, if_true]

theorem system_other {browserEnv : Option Str} {c : Str} (hx : ¬ xdgOpenCmd <:+: c)
    (hm : ¬ webhelperSh <:+: c) :
    system browserEnv c = (purgeReaper c).elim .crash .passOn := by
  simp only [system, strstr_eq_none.mpr hx, strstr_eq_none.mpr hm]
  cases purgeReaper c <;> simp

/-- Two rewritings of one command agree unless both of them crash. -/
theorem same_rewrite_iff {c : Str} :
    SameDecision (rewriteWebhelper c) (rewriteWebhelper c) ↔ webhelperShQuoted <:+: c := by
  rw [← modifyWebhelperCommand_isSome, rewriteWebhelper]
  cases modifyWebhelperCommand c <;> simp [SameDecision]

theorem not_same_pass_rewrite (a c : Str) :
    ¬ SameDecision (.passOn a) (rewriteWebhelper c) ∧
      ¬ SameDecision (rewriteWebhelper c) (.passOn a) := by
  rw [rewriteWebhelper]
  cases modifyWebhelperCommand c <;> simp [SameDecision]

theorem not_same_refuse_rewrite (c : Str) : ¬ SameDecision .refuse (rewriteWebhelper c) := by
  rw [rewriteWebhelper]
  cases modifyWebhelperCommand c <;> simp [SameDecision]

theorem same_of_no_mention {browserEnv : Option Str} {c : Str} (hm : ¬ webhelperSh <:+: c) :
    SameDecision (system browserEnv c) (.passOn c) ↔ PoliciesMeet browserEnv c := by
  have hp : ¬ webhelperShPatched <:+: c := fun h => hm (mention_of_patched h)
  have hq : ¬ webhelperShQuoted <:+: c := fun h => hm (mention_of_quoted h)
  by_cases hx : xdgOpenCmd <:+: c
  · obtain ⟨command, hsys⟩ := system_xdgOpen browserEnv hx
    simp [hsys, SameDecision, PoliciesMeet, hm, hx]
  · have hpurge := purgeReaper_isSome (c := c)
    rw [system_other hx hm, PoliciesMeet, ← hpurge]
    cases purgeReaper c <;> simp [SameDecision, hm, hp, hq, hx]

/-- execv passes a patched command on; system does so only when it takes it for an
xdg-open one. -/
theorem same_of_patched {browserEnv : Option Str} {c : Str} (hp : webhelperShPatched <:+: c) :
    SameDecision (system browserEnv c) (.passOn c) ↔ PoliciesMeet browserEnv c := by
  have hm := mention_of_patched hp
  by_cases hx : xdgOpenCmd <:+: c
  · obtain ⟨command, hsys⟩ := system_xdgOpen browserEnv hx
    simp [hsys, SameDecision, PoliciesMeet, hp, hx]
  · have hno : ¬ PoliciesMeet browserEnv c := by simp [PoliciesMeet, hm, hp, hx]
    rw [system_webhelper hx hm]
    split
    · simpa [hno] using (not_same_pass_rewrite c c).2
    · simp [hno, SameDecision]

/-- execv rewrites an unpatched command; system does so only with the browser enabled. -/
theorem same_of_unpatched {browserEnv : Option Str} {c : Str} (hm : webhelperSh <:+: c)
    (hp : ¬ webhelperShPatched <:+: c) :
    SameDecision (system browserEnv c) (rewriteWebhelper c) ↔ PoliciesMeet browserEnv c := by
  by_cases hx : xdgOpenCmd <:+: c
  · obtain ⟨command, hsys⟩ := system_xdgOpen browserEnv hx
    have hno : ¬ PoliciesMeet browserEnv c := by simp [PoliciesMeet, hm, hp, hx]
    rw [hsys]
    simpa [hno] using (not_same_pass_rewrite command c).1
  · rw [system_webhelper hx hm]
    split
    · rename_i hb
      simp [same_rewrite_iff, PoliciesMeet, hm, hp, hx, hb]
    · rename_i hb
      have hno : ¬ PoliciesMeet browserEnv c := by simp [PoliciesMeet, hm, hp, hb]
      simpa [hno] using not_same_refuse_rewrite c

/-- `system` and `execv` take the same decision on a command exactly where their
separately written policies meet. -/
theorem policies_agree_iff (browserEnv : Option Str) (c : Str) (u v : List Str)
    (hother : ∀ a ∈ u ++ v, ¬ webhelperSh <:+: a) :
    (∃ d, (execv (u ++ c :: v))[u.length]? = some d ∧ SameDecision (system browserEnv c) d) ↔
      PoliciesMeet browserEnv c := by
  have hexec := execv_single (fun a ha => not_selects_of_no_mention (hother a ha)) c
  simp only [hexec, Option.some.injEq, exists_eq_left']
  by_cases hm : webhelperSh <:+: c
  · by_cases hp : webhelperShPatched <:+: c
    · have hs : selectsWebhelper c = false := by
        by_contra hs
        exact (selectsWebhelper_iff.mp (by simpa using hs)).2 hp
      simpa [hs] using same_of_patched hp
    · simpa [selectsWebhelper_iff.mpr ⟨hm, hp⟩] using same_of_unpatched hm hp
  · simpa [not_selects_of_no_mention hm] using same_of_no_mention hm

theorem policies_agree_quoted :
    ∃ d, (execv ["sh".toList, "-c".toList, "'/steamwebhelper.sh' -x".toList])[2]? = some d ∧
      SameDecision (system none "'/steamwebhelper.sh' -x".toList) d := by
  refine (policies_agree_iff none "'/steamwebhelper.sh' -x".toList ["sh".toList, "-c".toList] []
    fun a ha => ?_).mpr (Or.inr (Or.inr ⟨?_, ?_, Or.inl rfl, ?_⟩))
  · have hno : ∀ a ∈ ["sh".toList, "-c".toList], strstr a webhelperSh = none := by decide
    exact strstr_eq_none.mp (hno a (by simpa using ha))
  · exact strstr_eq_none.mp (by decide)
  · exact strstr_eq_none.mp (by decide)
  · exact strstr_isSome.mp (by decide)

/-- With LSU_BROWSER=0 system refuses the web helper and execv launches it. -/
theorem browser_switch_ignored :
    ¬ ∃ d, (execv ["'/steamwebhelper.sh' -x".toList])[0]? = some d ∧
      SameDecision (system (some "0".toList) "'/steamwebhelper.sh' -x".toList) d := by
  rintro ⟨d, hd, hsame⟩
  have hexec := execv_single (u := []) (v := []) (by simp) "'/steamwebhelper.sh' -x".toList
  have hs : selectsWebhelper "'/steamwebhelper.sh' -x".toList = true := by decide
  have hx : ¬ xdgOpenCmd <:+: "'/steamwebhelper.sh' -x".toList :=
    strstr_eq_none.mp (by decide)
  have hm : webhelperSh <:+: "'/steamwebhelper.sh' -x".toList := strstr_isSome.mp (by decide)
  rw [hs, if_pos rfl] at hexec
  obtain rfl : _ = d := Option.some.inj (hexec.symm.trans hd)
  rw [system_webhelper hx hm, if_neg (by decide)] at hsame
  exact not_same_refuse_rewrite _ hsame

end LSU.Commands
