import LSU.Commands

/-! What purge_reaper leaves of a command. Its loops are written a second time with every
access checked against the bounds of the string. -/
namespace LSU.Commands
open LSU.Text

/-- `w` is where the word stands that ends before `p`: just after the last blank before `p`,
or at the start of the string. -/
structure WordStart (s : Str) (p w : Nat) : Prop where
  le : w ≤ p
  start : w = 0 ∨ s[w - 1]? = some ' '
  word : ∀ i, w ≤ i → i < p → s[i]? ≠ some ' '

/-- A word has only one start. -/
theorem WordStart.unique {s : Str} {p v w : Nat} (hv : WordStart s p v) (hw : WordStart s p w) :
    v = w := by
  have hle : ∀ {v w}, WordStart s p v → WordStart s p w → w ≤ v := by
    intro v w hv hw
    by_contra hlt
    obtain hzero | hblank := hw.start
    · omega
    · exact hv.word (w - 1) (by omega) (by have := hw.le; omega) hblank
  exact Nat.le_antisymm (hle hw hv) (hle hv hw)

/-- Characters from `p` on play no part. -/
theorem WordStart.congr {s t : Str} {p w : Nat} (h : WordStart s p w)
    (heq : ∀ i, i < p → t[i]? = s[i]?) : WordStart t p w := by
  refine ⟨h.le, ?_, fun i hwi hip => ?_⟩
  · obtain hzero | hblank := h.start
    · exact Or.inl hzero
    · by_cases hw : w = 0
      · exact Or.inl hw
      · have := h.le
        exact Or.inr ((heq (w - 1) (by omega)).trans hblank)
  · rw [heq i hip]
    exact h.word i hwi hip

/-- The word goes on over a character that is no blank. -/
theorem WordStart.succ {s : Str} {p w : Nat} (h : WordStart s p w) (hp : s[p]? ≠ some ' ') :
    WordStart s (p + 1) w := by
  refine ⟨by have := h.le; omega, h.start, fun i hwi hip => ?_⟩
  by_cases hi : i = p
  · exact hi ▸ hp
  · exact h.word i hwi (by omega)

theorem wordStart_blank {s : Str} {p : Nat} (h : s[p]? = some ' ') :
    WordStart s (p + 1) (p + 1) :=
  ⟨Nat.le_refl _, Or.inr h, fun i hle hlt => by omega⟩

theorem getElem?_set_blank {s : Str} {p : Nat} (hp : p < s.length) (i : Nat) :
    (s.set p ' ')[i]? = if i = p then some ' ' else s[i]? := by
  by_cases hi : i = p
  · simp [hi, hp]
  · simp [hi, List.getElem?_set_ne (Ne.symm hi)]

/-- The backward loop blanks the word that reaches to `p` and nothing else. -/
theorem blankWord_getElem? {s : Str} {p : Nat} (hp : p < s.length) :
    ∃ w, WordStart s (p + 1) w ∧
      ∀ i : Nat, (blankWord s p)[i]? = if w ≤ i ∧ i ≤ p then some ' ' else s[i]? := by
  induction p generalizing s with
  | zero =>
    by_cases hblank : s[0]? = some ' '
    · refine ⟨1, wordStart_blank hblank, fun i => ?_⟩
      rw [blankWord, if_pos hblank, if_neg (by omega)]
    · have hzero : WordStart s 0 0 := ⟨Nat.le_refl _, Or.inl rfl, fun i _ hlt => by omega⟩
      refine ⟨0, hzero.succ hblank, fun i => ?_⟩
      rw [blankWord, if_neg hblank, getElem?_set_blank hp]
      simp
  | succ p ih =>
    by_cases hblank : s[p + 1]? = some ' '
    · refine ⟨p + 2, wordStart_blank hblank, fun i => ?_⟩
      rw [blankWord, if_pos hblank, if_neg (by omega)]
    · obtain ⟨w, hw, hget⟩ := ih (s := s.set (p + 1) ' ') (by simp; omega)
      have hbefore : ∀ i, i < p + 1 → s[i]? = (s.set (p + 1) ' ')[i]? := by
        intro i hi
        rw [getElem?_set_blank hp, if_neg (by omega)]
      refine ⟨w, (hw.congr hbefore).succ hblank, fun i => ?_⟩
      have hle := hw.le
      rw [blankWord, if_neg hblank, hget, getElem?_set_blank hp]
      split_ifs <;> first | rfl | omega

theorem blankFrom_getElem? {s : Str} {p n : Nat} (h : p + n ≤ s.length) (i : Nat) :
    (blankFrom s p n)[i]? = if p ≤ i ∧ i < p + n then some ' ' else s[i]? := by
  induction n generalizing s p with
  | zero => rw [blankFrom, if_neg (by omega)]
  | succ n ih =>
    rw [blankFrom, ih (by simp; omega), getElem?_set_blank (by omega)]
    split_ifs <;> first | rfl | omega

/-- A text that is blank in one stretch and the old one elsewhere. -/
theorem eq_blanked {s t : Str} {w n : Nat} (hn : w + n ≤ s.length)
    (h : ∀ i : Nat, t[i]? = if w ≤ i ∧ i < w + n then some ' ' else s[i]?) :
    t = s.take w ++ List.replicate n ' ' ++ s.drop (w + n) := by
  apply List.ext_getElem?
  intro i
  rw [h i, List.getElem?_append, List.getElem?_append, List.getElem?_take, List.getElem?_drop,
    List.getElem?_replicate]
  simp only [List.length_append, List.length_take, List.length_replicate]
  have hmin : min w s.length = w := by omega
  rw [hmin]
  by_cases hbefore : i < w
  · simp [hbefore, show i < w + n by omega, show ¬ w ≤ i by omega]
  · by_cases hin : i < w + n
    · simp [hbefore, hin, show w ≤ i by omega, show i - w < n by omega]
    · simp [hin, show w + n + (i - (w + n)) = i by omega]

theorem blankWord_length (s : Str) (p : Nat) : (blankWord s p).length = s.length := by
  induction p generalizing s with
  | zero =>
    rw [blankWord]
    split <;> simp
  | succ p ih =>
    rw [blankWord]
    split
    · rfl
    · simp [ih]

/-- The two loops together blank one stretch, from the start of the word to the second dash.
The forward loop starts over a text whose word the backward loop has blanked already. -/
theorem blankLoops_getElem? {s : Str} {p n : Nat} (hblank : s[p]? ≠ some ' ')
    (hn : p + (n + 1) ≤ s.length) :
    ∃ w, WordStart s p w ∧ ∀ i : Nat,
      (blankFrom (blankWord s p) p (n + 1))[i]? =
        if w ≤ i ∧ i < p + (n + 1) then some ' ' else s[i]? := by
  obtain ⟨w, hw, hget⟩ := blankWord_getElem? (show p < s.length by omega)
  have hwp : w ≠ p + 1 := by
    intro he
    obtain hzero | hsp := hw.start
    · omega
    · exact hblank (by simpa [he] using hsp)
  have hle := hw.le
  refine ⟨w, ⟨by omega, hw.start, fun i hwi hip => hw.word i hwi (by omega)⟩, fun i => ?_⟩
  have hlen := blankWord_length s p
  rw [blankFrom_getElem? (by omega), hget]
  split_ifs <;> first | rfl | omega

/-! The loops with their accesses checked: `none` is a read or write outside of the string. -/

def store (s : Str) (p : Nat) (c : Char) : Option Str :=
  if p < s.length then some (s.set p c) else none

/-- The pointer is kept as `p - command + 1`: at 0 it stands before the string and is not
followed. -/
def blankWordChecked (s : Str) : Nat → Option Str
  | 0 => some s
  | p + 1 => do
    let c ← s[p]?
    if c = ' ' then some s else blankWordChecked (← store s p ' ') p

def blankFromChecked (s : Str) (p : Nat) : Nat → Option Str
  | 0 => some s
  | n + 1 => do blankFromChecked (← store s p ' ') (p + 1) n

def purgeReaperChecked (command : Str) : Option Str :=
  match strstr command reaperSteamLaunch with
  | some reaperStr =>
    match strstr (command.drop reaperStr) dashes with
    | some e => do
      blankFromChecked (← blankWordChecked command (reaperStr + 1)) reaperStr (e + 2)
    | none => none
  | none => some command

theorem blankWordChecked_eq {s : Str} {p : Nat} (hp : p < s.length) :
    blankWordChecked s (p + 1) = some (blankWord s p) := by
  induction p generalizing s with
  | zero =>
    obtain ⟨c, hread⟩ : ∃ c, s[0]? = some c := ⟨_, List.getElem?_eq_getElem hp⟩
    rw [blankWordChecked, blankWord, hread]
    by_cases hblank : c = ' '
    · simp [hblank]
    · simp [hblank, store, hp, blankWordChecked]
  | succ p ih =>
    obtain ⟨c, hread⟩ : ∃ c, s[p + 1]? = some c := ⟨_, List.getElem?_eq_getElem hp⟩
    have hrest := ih (s := s.set (p + 1) ' ') (by simp; omega)
    rw [blankWordChecked, blankWord, hread]
    by_cases hblank : c = ' '
    · simp [hblank]
    · simp [hblank, store, hp, hrest]

theorem blankFromChecked_eq {s : Str} {p n : Nat} (h : p + n ≤ s.length) :
    blankFromChecked s p n = some (blankFrom s p n) := by
  induction n generalizing s p with
  | zero => rfl
  | succ n ih =>
    have hp : p < s.length := by omega
    have hrest := ih (s := s.set p ' ') (p := p + 1) (by simp; omega)
    simp [blankFromChecked, blankFrom, store, hp, hrest]

/-- Where the reaper and the dashes behind it stand in the command. -/
theorem reaper_bounds {command : Str} {r e : Nat}
    (hr : strstr command reaperSteamLaunch = some r)
    (he : strstr (command.drop r) dashes = some e) :
    command[r]? = some '/' ∧ r + (e + 1 + 1) ≤ command.length := by
  have hslash : command[r + 0]? = some '/' := firstOccurrence_getElem hr (by decide)
  have hdash := strstr_length he (by decide)
  have hrlen := strstr_length hr (by decide)
  simp only [List.length_drop, show dashes.length = 2 from rfl] at hdash
  exact ⟨hslash, by omega⟩

/-- No loop leaves the string. -/
theorem purgeReaperChecked_eq (command : Str) :
    purgeReaperChecked command = purgeReaper command := by
  cases hr : strstr command reaperSteamLaunch with
  | none => simp [purgeReaperChecked, purgeReaper, hr]
  | some r =>
    cases he : strstr (command.drop r) dashes with
    | none => simp [purgeReaperChecked, purgeReaper, hr, he]
    | some e =>
      obtain ⟨-, hlen⟩ := reaper_bounds hr he
      have hback := blankWordChecked_eq (show r < command.length by omega)
      have hforth := blankFromChecked_eq (s := blankWord command r) (p := r) (n := e + 2)
        (by rw [blankWord_length]; omega)
      simp [purgeReaperChecked, purgeReaper, hr, he, hback, hforth]

/-- What purge_reaper makes of a command with the reaper in it: blank from the start of its
word to the second dash, and the words are those before and those behind. -/
structure Purged (command : Str) (r e : Nat) (out : Str) (w : Nat) : Prop where
  start : WordStart command r w
  length : out.length = command.length
  blank : ∀ i : Nat, w ≤ i → i ≤ e + 1 → out[i]? = some ' '
  other : ∀ i : Nat, ¬ (w ≤ i ∧ i ≤ e + 1) → out[i]? = command[i]?
  words : words ' ' out = words ' ' (command.take w) ++ words ' ' (command.drop (e + 2))

theorem purged_of_found {command : Str} {r e : Nat}
    (hr : strstr command reaperSteamLaunch = some r)
    (he : strstr (command.drop r) dashes = some e) :
    ∃ out w, purgeReaper command = some out ∧ Purged command r (r + e) out w := by
  obtain ⟨hslash, hlen⟩ := reaper_bounds hr he
  obtain ⟨w, hw, hget⟩ := blankLoops_getElem? (p := r) (n := e + 1) (by simp [hslash]) hlen
  have hle := hw.le
  have hn : w + (r + e + 1 - w + 1) = r + (e + 1 + 1) := by omega
  have hout : blankFrom (blankWord command r) r (e + 1 + 1) =
      command.take w ++ List.replicate (r + e + 1 - w + 1) ' ' ++
        command.drop (w + (r + e + 1 - w + 1)) :=
    eq_blanked (by omega) (by simpa only [hn] using hget)
  have hpurge : purgeReaper command = some (blankFrom (blankWord command r) r (e + 1 + 1)) := by
    simp only [purgeReaper, hr, he]
  refine ⟨_, w, hpurge, hw, ?_, ?_, ?_, ?_⟩
  · rw [hout]
    simp
    omega
  · intro i hwi hie
    rw [hget, if_pos ⟨hwi, by omega⟩]
  · intro i hi
    rw [hget, if_neg (by omega)]
  · rw [hout, words_append_blanks, hn, show r + (e + 1 + 1) = r + e + 2 by omega]

/-- With the reaper absent purge_reaper changes nothing; with the reaper at `r` it needs
dashes behind it and then blanks from the start of the reaper's word to the second dash.
Neither loop leaves the string. -/
theorem purgeReaper_cuts_one_region (command : Str) :
    purgeReaperChecked command = purgeReaper command ∧
    (¬ reaperSteamLaunch <:+: command → purgeReaper command = some command) ∧
    ∀ r, FirstAt reaperSteamLaunch command r →
      (¬ dashes <:+: command.drop r → purgeReaper command = none) ∧
      ∀ e, FirstAt dashes (command.drop r) e →
        ∃ out w, purgeReaper command = some out ∧ Purged command r (r + e) out w := by
  refine ⟨purgeReaperChecked_eq command, fun h => ?_, fun r hr => ⟨fun h => ?_, fun e he => ?_⟩⟩
  · simp [purgeReaper, strstr_eq_none.mpr h]
  · have hfound : strstr command reaperSteamLaunch = some r := firstOccurrence_eq_some.mpr hr
    simp [purgeReaper, hfound, strstr_eq_none.mpr h]
  · exact purged_of_found (firstOccurrence_eq_some.mpr hr) (firstOccurrence_eq_some.mpr he)

theorem purgeReaper_cuts_one_region_launch :
    ∃ out w, purgeReaper "A=1 /s/reaper SteamLaunch -- ./game".toList = some out ∧
      Purged "A=1 /s/reaper SteamLaunch -- ./game".toList 6 26 out w := by
  have hr : FirstAt reaperSteamLaunch "A=1 /s/reaper SteamLaunch -- ./game".toList 6 :=
    firstOccurrence_eq_some.mp (by decide)
  have he : FirstAt dashes ("A=1 /s/reaper SteamLaunch -- ./game".toList.drop 6) 20 :=
    firstOccurrence_eq_some.mp (by decide)
  exact ((purgeReaper_cuts_one_region _).2.2 6 hr).2 20 he

example : purgeReaper "A=1 /s/reaper SteamLaunch -- ./game".toList =
    some "A=1                          ./game".toList := by decide

end LSU.Commands
