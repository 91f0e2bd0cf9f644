import LSU.Run

/-! lsu-patch-steam over the life of an installation: its runs, which may be stopped at any
point, updates of Steam and of steam-utils, and what others do to the script it has written. -/
namespace LSU.PatchSteam
open LSU.Run

/-- steamwebhelper.sh.patched -/
structure Script where
  text : List Char
  mode : Nat
  mtime : Nat
deriving DecidableEq

/-- `helper` is whether steamwebhelper.sh is there. `text` is what the present lsu-patch-steam
writes and `fileTime` the time of that file, `newMode` the mode of a new file. -/
structure State where
  helper : Bool
  text : List Char
  fileTime : Nat
  newMode : Nat
  patched : Option Script
  now : Nat

/-- A run is stopped before it opens the patched script, with 0, or when it has written `k`
characters and not yet changed the mode, with `k + 1`. Steam's update brings steamwebhelper.sh
or takes it away. An edit of the patched script, be it of its text, its mode or its time, leaves
whatever it leaves. -/
inductive Event where
  | run (stop : Option Nat)
  | update (helper : Bool)
  | upgrade (text : List Char) (fileTime : Nat)
  | edit (script : Script)
  | remove
  | tick

/-- `File.exist?(out_path) && is_older(__FILE__, out_path)` -/
def upToDate (s : State) : Bool :=
  s.patched.any fun script => decide (s.fileTime < script.mtime)

/-- File.write, as far as it gets. A file that is there keeps its mode. -/
def write (s : State) (k : Nat) : Script :=
  ⟨s.text.take k, (s.patched.map Script.mode).getD s.newMode, s.now⟩

/-- File.write and File.chmod -/
def rewrite (s : State) : Script := { write s s.text.length with mode := 0o700 }

def lsuPatchSteam (s : State) (stop : Option Nat) : State :=
  if s.helper && !upToDate s then
    match stop with
    | none => { s with patched := some (rewrite s) }
    | some 0 => s
    | some (k + 1) => { s with patched := some (write s k) }
  else
    s

def step (s : State) : Event → Option State
  | .run stop => some (lsuPatchSteam s stop)
  | .update helper => some { s with helper := helper }
  | .upgrade text fileTime => some { s with text := text, fileTime := fileTime }
  | .edit script => some { s with patched := some script }
  | .remove => some { s with patched := none }
  | .tick => some { s with now := s.now + 1 }

/-- The patched script is there, is the present one and can be executed. -/
def Patched (s : State) : Prop :=
  ∃ script, s.patched = some script ∧ script.text = s.text ∧ script.mode = 0o700

instance (s : State) : Decidable (Patched s) :=
  decidable_of_iff (s.patched.any fun script =>
      decide (script.text = s.text ∧ script.mode = 0o700))
    (by cases h : s.patched <;> simp [Patched, h])

/-- A run that finds steamwebhelper.sh and is not stopped leaves the script patched. -/
def RunPatches (s : State) : Prop := Patched (lsuPatchSteam { s with helper := true } none)

instance (s : State) : Decidable (RunPatches s) :=
  inferInstanceAs (Decidable (Patched (lsuPatchSteam { s with helper := true } none)))

theorem patched_rewrite (s : State) : Patched { s with patched := some (rewrite s) } :=
  ⟨rewrite s, rfl, List.take_length, rfl⟩

/-- A run that is not stopped trusts what is newer than the program. -/
theorem runPatches_iff {s : State} : RunPatches s ↔ (upToDate s = true → Patched s) := by
  have hsame : upToDate { s with helper := true } = upToDate s := rfl
  cases h : upToDate s with
  | true => simp [RunPatches, lsuPatchSteam, hsame, h, Patched]
  | false =>
    have hpatched := patched_rewrite { s with helper := true }
    simp [RunPatches, lsuPatchSteam, hsame, h, hpatched]

/-- Only what is there of the script and of the program counts. -/
theorem RunPatches.congr {s t : State} (hs : RunPatches s) (htext : t.text = s.text)
    (htime : t.fileTime = s.fileTime) (hpatched : t.patched = s.patched) : RunPatches t := by
  rw [runPatches_iff] at hs ⊢
  simpa [upToDate, Patched, htext, htime, hpatched] using hs

/-- A fresh installation of steam-utils. -/
def installed (helper : Bool) (text : List Char) (fileTime newMode now : Nat) : State :=
  ⟨helper, text, fileTime, newMode, none, now⟩

end LSU.PatchSteam
