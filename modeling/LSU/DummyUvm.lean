import Mathlib.Data.List.TakeWhile
import LSU.Commands

/-! fopen of dummy-uvm.c. A C string is the list of its characters up to the NUL. -/
namespace LSU.DummyUvm
open LSU.Commands LSU.Text

def taskPath : Str := "/proc/self/task/".toList

def comm : Str := "/comm".toList

def writeBinary : Str := "wb".toList

/-- `strncmp(s, t, n) == 0` -/
def strncmp (s t : Str) (n : Nat) : Bool := s.take n = t.take n

/-- What follows a pointer into a string. Past the NUL it is undefined. -/
def pointer (s : Str) (i : Nat) : Option Str := if i ≤ s.length then some (s.drop i) else none

/-- The string from the first `c` on, or NULL. -/
def strchr (s : Str) (c : Char) : Option Str :=
  match s.dropWhile (· ≠ c) with
  | [] => none
  | tail => some tail

/-- What fopen comes to: a call of libc, the assertion, or a search from beyond the NUL. -/
inductive Opened where
  | devNull (mode : Str)
  | passOn (path mode : Str)
  | assertionFails
  | beyondNul
deriving DecidableEq

/-- `sizeof` of the literal counts its NUL. -/
def fopen (path mode : Str) : Opened :=
  if strncmp path taskPath (taskPath.length + 1 - 1) = true then
    match pointer path (taskPath.length + 1) with
    | none => .beyondNul
    | some s =>
      match strchr s '/' with
      | some tail =>
        if tail = comm then
          if mode = writeBinary then .devNull mode else .assertionFails
        else
          .passOn path mode
      | none => .passOn path mode
  else
    .passOn path mode

/-- /proc/self/task/, a component, and /comm. -/
def TaskComm (path : Str) : Prop := ∃ w, w ≠ [] ∧ '/' ∉ w ∧ path = taskPath ++ (w ++ comm)

theorem strchr_split {w rest : Str} (h : '/' ∉ w) :
    strchr (w ++ '/' :: rest) '/' = some ('/' :: rest) := by
  have hw : ∀ x ∈ w, decide (x ≠ '/') = true := by
    intro x hx
    rw [decide_eq_true_eq]
    exact fun heq => h (heq ▸ hx)
  rw [strchr, List.dropWhile_append_of_pos hw]
  rfl

theorem strchr_none {w : Str} (h : '/' ∉ w) : strchr w '/' = none := by
  have hw : ∀ x ∈ w, decide (x ≠ '/') = true := by
    intro x hx
    rw [decide_eq_true_eq]
    exact fun heq => h (heq ▸ hx)
  rw [strchr, List.dropWhile_eq_nil_iff.mpr hw]

/-- A text has no separator, or it can be cut at the first one. -/
theorem cut_at_slash (s : Str) : '/' ∉ s ∨ ∃ w rest, '/' ∉ w ∧ s = w ++ '/' :: rest := by
  by_cases h : '/' ∈ s
  · obtain ⟨w, rest, hs, hw⟩ := List.eq_append_cons_of_mem h
    exact Or.inr ⟨w, rest, hw, hs⟩
  · exact Or.inl h

theorem fopen_other {path : Str} (mode : Str) (h : ¬ taskPath <+: path) :
    fopen path mode = .passOn path mode := by
  have hne : ¬ strncmp path taskPath (taskPath.length + 1 - 1) = true := by
    rw [strncmp, decide_eq_true_eq, Nat.add_sub_cancel, List.take_length]
    intro htake
    exact h (htake ▸ List.take_prefix _ _)
  rw [fopen, if_neg hne]

/-- Behind the prefix, the search starts one character late. -/
theorem fopen_task (x : Char) (s : Str) :
    fopen (taskPath ++ x :: s) writeBinary =
      if strchr s '/' = some comm then .devNull writeBinary
      else .passOn (taskPath ++ x :: s) writeBinary := by
  have hpre : strncmp (taskPath ++ x :: s) taskPath (taskPath.length + 1 - 1) = true := by
    simp [strncmp]
  have hptr : pointer (taskPath ++ x :: s) (taskPath.length + 1) = some s := by
    simp [pointer]
  rw [fopen, if_pos hpre, hptr]
  cases hchr : strchr s '/' with
  | none => simp [hchr]
  | some tail =>
    by_cases htail : tail = comm
    · simp [hchr, htail]
    · simp [hchr, htail]

theorem fopen_taskPath (mode : Str) : fopen taskPath mode = .beyondNul := by
  have hpre : strncmp taskPath taskPath (taskPath.length + 1 - 1) = true := by
    simp [strncmp]
  have hptr : pointer taskPath (taskPath.length + 1) = none := by
    simp [pointer]
  rw [fopen, if_pos hpre, hptr]

/-- The search ends at /comm when a component stands before it. -/
theorem strchr_comm {s : Str} :
    strchr s '/' = some comm ↔ ∃ w, '/' ∉ w ∧ s = w ++ comm := by
  constructor
  · intro h
    rcases cut_at_slash s with hno | ⟨w, rest, hw, rfl⟩
    · rw [strchr_none hno] at h
      cases h
    · rw [strchr_split hw, Option.some.injEq] at h
      exact ⟨w, hw, by rw [h]⟩
  · rintro ⟨w, hw, rfl⟩
    apply strchr_split hw

/-- A component of at least one character is that character and what follows it. -/
theorem taskComm_cons {x : Char} {s : Str} :
    TaskComm (taskPath ++ x :: s) ↔ x ≠ '/' ∧ ∃ w, '/' ∉ w ∧ s = w ++ comm := by
  constructor
  · rintro ⟨w, hne, hw, heq⟩
    cases w with
    | nil => exact absurd rfl hne
    | cons y w =>
      rw [List.append_cancel_left_eq, List.cons_append, List.cons.injEq] at heq
      rw [List.mem_cons, not_or] at hw
      exact ⟨fun hx => hw.1 (heq.1 ▸ hx.symm), w, hw.2, heq.2⟩
  · rintro ⟨hx, w, hw, rfl⟩
    refine ⟨x :: w, List.cons_ne_nil x w, ?_, rfl⟩
    rw [List.mem_cons, not_or]
    exact ⟨Ne.symm hx, hw⟩

theorem TaskComm.prefix {path : Str} (h : TaskComm path) : taskPath <+: path := by
  obtain ⟨w, _, _, rfl⟩ := h
  apply List.prefix_append

/-- The misread paths are those whose first character behind the directory is a second slash. -/
theorem second_slash {x : Char} {s : Str} :
    (∃ w, '/' ∉ w ∧ taskPath ++ x :: s = taskPath ++ '/' :: (w ++ comm)) ↔
      x = '/' ∧ ∃ w, '/' ∉ w ∧ s = w ++ comm := by
  constructor
  · rintro ⟨w, hw, heq⟩
    rw [List.append_cancel_left_eq, List.cons.injEq] at heq
    exact ⟨heq.1, w, hw, heq.2⟩
  · rintro ⟨rfl, w, hw, rfl⟩
    exact ⟨w, hw, rfl⟩

/-- The redirection is of the comm files of threads alone, save where the search misses
    the character it starts behind. -/
theorem redirects_comm_iff (path : Str) :
    (fopen path writeBinary = .devNull writeBinary ↔ TaskComm path) ∧
        (¬ TaskComm path → fopen path writeBinary = .passOn path writeBinary) ∧
        fopen path writeBinary ≠ .beyondNul ↔
      path ≠ taskPath ∧ ¬ ∃ w, '/' ∉ w ∧ path = taskPath ++ '/' :: (w ++ comm) := by
  by_cases hpre : taskPath <+: path
  · obtain ⟨rest, rfl⟩ := hpre
    cases rest with
    | nil =>
      rw [List.append_nil, fopen_taskPath]
      constructor
      · rintro ⟨_, _, hne⟩
        exact absurd rfl hne
      · rintro ⟨hne, _⟩
        exact absurd rfl hne
    | cons x s =>
      have hlong : taskPath ++ x :: s ≠ taskPath := by
        intro heq
        have hlen := congrArg List.length heq
        rw [List.length_append, List.length_cons] at hlen
        omega
      rw [fopen_task, taskComm_cons, second_slash, ← strchr_comm]
      by_cases hcomm : strchr s '/' = some comm
      · rw [if_pos hcomm]
        by_cases hx : x = '/'
        · -- an empty component, or two slashes in a row
          simp [hcomm, hx]
        · simp [hcomm, hx, hlong]
      · rw [if_neg hcomm]
        simp [hcomm, hlong]
  · have hother := fopen_other writeBinary hpre
    have hnot : ¬ TaskComm path := fun h => hpre h.prefix
    have hne : path ≠ taskPath := fun h => hpre (h ▸ List.prefix_rfl)
    have hno : ¬ ∃ w, '/' ∉ w ∧ path = taskPath ++ '/' :: (w ++ comm) := by
      rintro ⟨w, _, rfl⟩
      apply hpre (List.prefix_append _ _)
    rw [hother]
    simp [hnot, hno, hne]

/-- The directory itself is searched from beyond its end, and a second slash is taken for
    a thread. -/
theorem task_directory_misread :
    fopen "/proc/self/task/".toList writeBinary = .beyondNul ∧
      ¬ TaskComm "/proc/self/task//7/comm".toList ∧
      fopen "/proc/self/task//7/comm".toList writeBinary = .devNull writeBinary := by
  refine ⟨by decide, ?_, by decide⟩
  have hpath : "/proc/self/task//7/comm".toList = taskPath ++ '/' :: "7/comm".toList := by
    decide
  rw [hpath, taskComm_cons]
  exact fun h => h.1 rfl

end LSU.DummyUvm
