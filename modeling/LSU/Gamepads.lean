import Mathlib.Data.List.Sort
import LSU.Mounts
import LSU.OsRelease
import LSU.Sysctl

/-! fix-gamepad-permissions: the devices it gives to the group operator. -/
namespace LSU.Gamepads
open LSU.Commands LSU.Numerals LSU.RubyString LSU.Sysctl
open LSU.Mounts (MountInfo fileJoin)

def isStripped (c : Char) : Bool := isSpace c || c == '\x00'

def strip (s : Str) : Str := (s.dropWhile isStripped).rdropWhile isStripped

def deletePrefix (pre s : Str) : Str := if pre.isPrefixOf s then s.drop pre.length else s

def deleteSuffix (suf s : Str) : Str :=
  if suf.isSuffixOf s then s.take (s.length - suf.length) else s

/-- The parts between separators, when some characters of one are still to come. -/
def partsAt (sep : Str) : Nat → Str → List Str
  | _, [] => [[]]
  | skip + 1, _ :: s => partsAt sep skip s
  | 0, c :: s =>
    if sep.isPrefixOf (c :: s) then [] :: partsAt sep (sep.length - 1) s
    else (partsAt sep 0 s).modifyHead (c :: ·)

/-- split with a text. -/
def splitBy (sep s : Str) : List Str := (partsAt sep 0 s).rdropWhile (· = [])

def descKey : Str := "%desc".toList
def physKey : Str := "phys".toList

/-- `sysctl dev.hidraw` -/
def hidraw : Subtree where
  pattern := "dev.hidraw.".toList
  keys := ["%desc", "%driver", "%location", "%parent", "%pnpinfo"].map String.toList
  special := "%pnpinfo".toList
  apart value := (OsRelease.splitSpaces (strip value)).map fun kv => split kv '='

/-- `sysctl kern.evdev.input` -/
def evdev : Subtree where
  pattern := "kern.evdev.input.".toList
  keys := ["id", "name", "phys", "uniq"].map String.toList
  special := "id".toList
  apart value := (splitBy ", ".toList (deleteSuffix " \x7d".toList
    (deletePrefix "\x7b ".toList value))).map (splitBy " = ".toList)

def textOf (props : Props) (key : Str) : Option Str :=
  match props.lookup key with
  | some (.text s) => some s
  | _ => none

/-- `=~ /keyboard|mouse|led controller/i`, on ASCII -/
def keyboardLike (desc : Str) : Bool :=
  ["keyboard", "mouse", "led controller"].any fun word =>
    (strstr (desc.map Char.toLower) word.toList).isSome

/-- What goes to weird_hid_devs. -/
def weird (props : Props) : Bool := !(textOf props descKey).any keyboardLike

/-- `=~ /^(hgame|ps4dshock|xb360gp)\d+$/` -/
def gamepadPhys (phys : Str) : Bool :=
  ["hgame", "ps4dshock", "xb360gp"].any fun driver =>
    driver.toList.isPrefixOf phys && (let unit := phys.drop driver.toList.length
      !unit.isEmpty && unit.all Char.isDigit)

/-- What goes to evdev_gamepads. -/
def gamepad (props : Props) : Bool := (textOf props physKey).any gamepadPhys

/-- The indices of some devices; sort! takes away the order they were found in. -/
def chosen (p : Props → Bool) (devices : Devices) : List Str :=
  (devices.keys.filter fun idx => (devices.lookup idx).any p).insertionSort (· ≤ ·)

inductive Cmd where
  | chgrp (path : Str)
  | chmod (path : Str)
deriving DecidableEq

def grant (path : Str) : List Cmd := [.chgrp path, .chmod path]

def hidrawPath (node idx : Str) : Str := fileJoin node ("hidraw".toList ++ idx)
def eventPath (node idx : Str) : Str := fileJoin node ("input/event".toList ++ idx)

def commands (mounts : List MountInfo) (hids evs : List Str) : List Cmd :=
  mounts.flatMap fun m =>
    if m.fstype = "devfs".toList then
      hids.flatMap (fun idx => grant (hidrawPath m.node idx)) ++
        evs.flatMap fun idx => grant (eventPath m.node idx)
    else []

/-- The commands behind those for the kernel modules, which are run up to one that fails. -/
def fixPermissions (hidText evText : Str) (mounts : List MountInfo) : Option (List Cmd) := do
  let hids ← hidraw.read hidText
  let evs ← evdev.read evText
  return commands mounts (chosen weird hids) (chosen gamepad evs)

/-! Which devices are given away. -/

theorem mem_chosen {p : Props → Bool} {devices : Devices} {idx : Str} :
    idx ∈ chosen p devices ↔ ∃ props, devices.lookup idx = some props ∧ p props = true := by
  rw [chosen, List.mem_insertionSort, List.mem_filter, Option.any_eq_true]
  refine ⟨fun h => h.2, fun h => ⟨?_, h⟩⟩
  obtain ⟨props, hprops, -⟩ := h
  exact AList.mem_keys.mp (AList.lookup_isSome.mp (by rw [hprops]; rfl))

theorem mem_grants {ids : List Str} {toPath : Str → Str} {path : Str} :
    (Cmd.chgrp path ∈ ids.flatMap (fun idx => grant (toPath idx)) ↔
        ∃ idx ∈ ids, path = toPath idx) ∧
      (Cmd.chmod path ∈ ids.flatMap (fun idx => grant (toPath idx)) ↔
        ∃ idx ∈ ids, path = toPath idx) := by
  constructor <;> simp [grant]

theorem mem_commands {mounts : List MountInfo} {hids evs : List Str} {path : Str} :
    (Cmd.chgrp path ∈ commands mounts hids evs ↔ Cmd.chmod path ∈ commands mounts hids evs) ∧
      (Cmd.chmod path ∈ commands mounts hids evs ↔
        ∃ m ∈ mounts, m.fstype = "devfs".toList ∧
          ((∃ idx ∈ hids, path = hidrawPath m.node idx) ∨
            ∃ idx ∈ evs, path = eventPath m.node idx)) := by
  have hmem : ∀ cmd : Cmd, cmd ∈ commands mounts hids evs ↔
      ∃ m ∈ mounts, m.fstype = "devfs".toList ∧
        (cmd ∈ hids.flatMap (fun idx => grant (hidrawPath m.node idx)) ∨
          cmd ∈ evs.flatMap fun idx => grant (eventPath m.node idx)) := by
    intro cmd
    rw [commands, List.mem_flatMap]
    refine exists_congr fun m => and_congr_right fun _ => ?_
    split
    · rename_i hdevfs
      rw [List.mem_append]
      exact (and_iff_right hdevfs).symm
    · rename_i hother
      exact iff_of_false List.not_mem_nil fun h => hother h.1
  rw [hmem, hmem]
  simp only [mem_grants, and_self]

/-- The text of a property of a device is that of its line. -/
theorem textOf_read {t : Subtree} {entries : List Entry} {devices : Devices}
    (hadded : Added t entries ∅ devices) {idx key : Str} {props : Props}
    (hprops : devices.lookup idx = some props) (hkey : key ∈ t.keys) (hne : key ≠ t.special)
    {s : Str} :
    textOf props key = some s ↔ ∃ e ∈ entries, decimal e.idx = idx ∧ e.key = key ∧ e.text = s := by
  have hvalue : ∀ e ∈ entries, decimal e.idx = idx → e.key = key →
      textOf props key = some e.text := by
    rintro e he rfl rfl
    have hread := hadded.value e he hkey
    rw [valueOf, hprops, Option.bind_some, Subtree.value, if_neg hne] at hread
    rw [textOf, hread]
  constructor
  · intro htext
    by_cases hline : ∃ e ∈ entries, decimal e.idx = idx ∧ e.key = key
    · obtain ⟨e, he, hidx, hk⟩ := hline
      exact ⟨e, he, hidx, hk, Option.some.inj ((hvalue e he hidx hk).symm.trans htext)⟩
    · have hother := hadded.other idx key fun e he h => hline ⟨e, he, h⟩
      rw [valueOf, hprops, Option.bind_some] at hother
      have hnone : props.lookup key = none := hother
      rw [textOf, hnone] at htext
      cases htext
  · rintro ⟨e, he, hidx, hk, rfl⟩
    exact hvalue e he hidx hk

theorem mem_weird {hids : List Entry} {devices : Devices} (hadded : Added hidraw hids ∅ devices)
    {idx : Str} :
    idx ∈ chosen weird devices ↔ ∃ e ∈ hids, e.key ∈ hidraw.keys ∧
      (∀ d ∈ hids, d.idx = e.idx → d.key = descKey → keyboardLike d.text = false) ∧
      idx = decimal e.idx := by
  have hkey : descKey ∈ hidraw.keys := by decide
  have hne : descKey ≠ hidraw.special := by decide
  rw [mem_chosen]
  constructor
  · rintro ⟨props, hprops, hweird⟩
    have hmem : idx ∈ devices := AList.lookup_isSome.mp (by rw [hprops]; rfl)
    obtain ⟨e, he, hekey, rfl⟩ := ((hadded.mem idx).mp hmem).resolve_left
      (AList.notMem_empty idx)
    refine ⟨e, he, hekey, fun d hd hidx hdkey => ?_, rfl⟩
    have htext : textOf props descKey = some d.text :=
      (textOf_read hadded hprops hkey hne).mpr ⟨d, hd, by rw [hidx], hdkey, rfl⟩
    simpa [weird, htext] using hweird
  · rintro ⟨e, he, hekey, hno, rfl⟩
    have hmem : decimal e.idx ∈ devices := (hadded.mem _).mpr (Or.inr ⟨e, he, hekey, rfl⟩)
    obtain ⟨props, hprops⟩ := Option.isSome_iff_exists.mp (AList.lookup_isSome.mpr hmem)
    refine ⟨props, hprops, ?_⟩
    cases htext : textOf props descKey with
    | none => simp [weird, htext]
    | some desc =>
      obtain ⟨d, hd, hidx, hdkey, rfl⟩ := (textOf_read hadded hprops hkey hne).mp htext
      simp [weird, htext, hno d hd (decimal_inj hidx) hdkey]

theorem mem_gamepad {evs : List Entry} {devices : Devices} (hadded : Added evdev evs ∅ devices)
    {idx : Str} :
    idx ∈ chosen gamepad devices ↔
      ∃ e ∈ evs, e.key = physKey ∧ gamepadPhys e.text = true ∧ idx = decimal e.idx := by
  have hkey : physKey ∈ evdev.keys := by decide
  have hne : physKey ≠ evdev.special := by decide
  rw [mem_chosen]
  constructor
  · rintro ⟨props, hprops, hpad⟩
    obtain ⟨phys, htext, hphys⟩ := (Option.any_eq_true _ _).mp hpad
    obtain ⟨e, he, hidx, hekey, rfl⟩ := (textOf_read hadded hprops hkey hne).mp htext
    exact ⟨e, he, hekey, hphys, hidx.symm⟩
  · rintro ⟨e, he, hekey, hphys, rfl⟩
    have hmem : decimal e.idx ∈ devices :=
      (hadded.mem _).mpr (Or.inr ⟨e, he, hekey ▸ hkey, rfl⟩)
    obtain ⟨props, hprops⟩ := Option.isSome_iff_exists.mp (AList.lookup_isSome.mpr hmem)
    refine ⟨props, hprops, (Option.any_eq_true _ _).mpr ⟨e.text, ?_, hphys⟩⟩
    exact (textOf_read hadded hprops hkey hne).mpr ⟨e, he, rfl, hekey, rfl⟩

/-- No raise on listings that are readable. -/
theorem fixPermissions_read {hids evs : List Line} (hhids : Readable hidraw hids)
    (hevs : Readable evdev evs) (mounts : List MountInfo) :
    ∃ hidDevices evDevices, Added hidraw (entries hids) ∅ hidDevices ∧
      Added evdev (entries evs) ∅ evDevices ∧
      fixPermissions (listing hidraw hids) (listing evdev evs) mounts =
        some (commands mounts (chosen weird hidDevices) (chosen gamepad evDevices)) := by
  obtain ⟨hidDevices, hhid, hhidAdded⟩ := read_listing hhids
  obtain ⟨evDevices, hev, hevAdded⟩ := read_listing hevs
  refine ⟨hidDevices, evDevices, hhidAdded, hevAdded, ?_⟩
  simp only [fixPermissions, hhid, hev, Option.bind_eq_bind, Option.bind_some, Option.pure_def]

/-- The nodes in every devfs of the hidraw devices that do not say they are a keyboard, a mouse or
an LED controller, and of the event devices with a gamepad driver, are given to the group
operator with both commands, and no other path; whatever the order of the lines. -/
theorem permissions_exact (hids evs : List Line) (hhids : Readable hidraw hids)
    (hevs : Readable evdev evs) (mounts : List MountInfo) :
    ∃ cmds, fixPermissions (listing hidraw hids) (listing evdev evs) mounts = some cmds ∧
      ∀ path, (Cmd.chgrp path ∈ cmds ↔ Cmd.chmod path ∈ cmds) ∧
        (Cmd.chmod path ∈ cmds ↔ ∃ m ∈ mounts, m.fstype = "devfs".toList ∧
          ((∃ e ∈ entries hids, e.key ∈ hidraw.keys ∧
              (∀ d ∈ entries hids, d.idx = e.idx → d.key = descKey →
                keyboardLike d.text = false) ∧
              path = hidrawPath m.node (decimal e.idx)) ∨
            ∃ e ∈ entries evs, e.key = physKey ∧ gamepadPhys e.text = true ∧
              path = eventPath m.node (decimal e.idx))) := by
  obtain ⟨hidDevices, evDevices, hhidAdded, hevAdded, hcmds⟩ :=
    fixPermissions_read hhids hevs mounts
  refine ⟨_, hcmds, fun path => ⟨mem_commands.1, mem_commands.2.trans ?_⟩⟩
  refine exists_congr fun m => and_congr_right fun _ => and_congr_right fun _ => or_congr ?_ ?_
  · constructor
    · rintro ⟨idx, hidx, rfl⟩
      obtain ⟨e, he, hkey, hno, rfl⟩ := (mem_weird hhidAdded).mp hidx
      exact ⟨e, he, hkey, hno, rfl⟩
    · rintro ⟨e, he, hkey, hno, rfl⟩
      exact ⟨_, (mem_weird hhidAdded).mpr ⟨e, he, hkey, hno, rfl⟩, rfl⟩
  · constructor
    · rintro ⟨idx, hidx, rfl⟩
      obtain ⟨e, he, hkey, hpad, rfl⟩ := (mem_gamepad hevAdded).mp hidx
      exact ⟨e, he, hkey, hpad, rfl⟩
    · rintro ⟨e, he, hkey, hpad, rfl⟩
      exact ⟨_, (mem_gamepad hevAdded).mpr ⟨e, he, hkey, hpad, rfl⟩, rfl⟩

/-! The devices bin/steam names to SDL. -/

/-- `/^kern.evdev.input.(\d+).phys: (hgame|ps4dshock|xb360gp)\d+$/` on a line. -/
def joystick (line : Str) : Option Nat :=
  (sysctlLine evdev.pattern [physKey] line).bind fun (idx, _, phys) =>
    if gamepadPhys phys then some (value idx) else none

def joysticks (listing : Str) : List Nat := (lines listing).filterMap joystick

def joystickPath (idx : Nat) : Str := "/dev/input/event".toList ++ decimal idx

theorem joystick_line {e : Entry} (h : e.Plain) {idx : Nat} :
    joystick (e.line evdev.pattern) = some idx ↔
      e.key = physKey ∧ gamepadPhys e.text = true ∧ e.idx = idx := by
  have hkeys : PlainKeys [physKey] := by decide
  obtain ⟨hread, hskip⟩ := sysctlLine_line hkeys evdev.pattern h
  by_cases hkey : e.key = physKey
  · rw [joystick, hread (by simp [hkey])]
    simp [hkey]
  · rw [joystick, hskip (by simpa using hkey)]
    simp [hkey]

theorem mem_joysticks {evs : List Line} (h : Readable evdev evs) {idx : Nat} :
    idx ∈ joysticks (listing evdev evs) ↔
      ∃ e ∈ entries evs, e.key = physKey ∧ gamepadPhys e.text = true ∧ e.idx = idx := by
  have hempty : joystick [] = none := by rw [joystick, sysctlLine_nil, Option.bind_none]
  have hphys : [physKey] ⊆ evdev.keys := by
    have hkey : physKey ∈ evdev.keys := by decide
    simpa using hkey
  rw [joysticks, lines_listing h, List.mem_filterMap]
  constructor
  · rintro ⟨line, hline, hidx⟩
    obtain hline | hline := List.mem_append.mp hline
    · obtain ⟨l, hl, rfl⟩ := List.mem_map.mp hline
      cases l with
      | entry e =>
        have he := mem_entries.mpr hl
        exact ⟨e, he, (joystick_line (h.plain e he)).mp hidx⟩
      | other text =>
        have hno := sysctlLine_fewer hphys (h.other text (mem_others.mpr hl)).2
        rw [Line.print, joystick, hno] at hidx
        cases hidx
    · rw [List.mem_singleton.mp hline, hempty] at hidx
      cases hidx
  · rintro ⟨e, he, hpad⟩
    exact ⟨_, List.mem_append_left _ (List.mem_map_of_mem (mem_entries.mp he)),
      (joystick_line (h.plain e he)).mpr hpad⟩

theorem fileJoin_suffix (a b : Str) : b <:+ fileJoin a b := by
  rw [fileJoin]
  split
  · exact List.suffix_append _ b
  · split
    · exact List.suffix_append a b
    · exact (List.suffix_cons '/' b).trans (List.suffix_append a _)

/-- The number at the end of a text, and what is in front of it. -/
theorem number_unique {c d : Char} (hc : c.isDigit = false) (hd : d.isDigit = false)
    {x y : Str} {i j : Nat} (h : x ++ c :: decimal i = y ++ d :: decimal j) : c = d ∧ i = j := by
  have hnumber : ∀ (z : Str) (e : Char) (n : Nat), e.isDigit = false →
      (z ++ e :: decimal n).rtakeWhile Char.isDigit = decimal n := by
    intro z e n he
    have hdigits : ∀ f ∈ (decimal n).reverse, f.isDigit = true := fun f hf =>
      (decimal_numeral n).2 f (List.mem_reverse.mp hf)
    rw [List.rtakeWhile, List.reverse_append, List.reverse_cons, List.append_assoc,
      List.takeWhile_append_of_pos hdigits]
    simp [he]
  have hij : decimal i = decimal j := by rw [← hnumber x c i hc, h, hnumber y d j hd]
  rw [hij] at h
  have hfront := (List.append_inj' h (by simp)).2
  exact ⟨(List.cons.inj hfront).1, decimal_inj hij⟩

/-- The last character of a name before the number. -/
theorem last_before (name : Str) (c : Char) (number : Str) :
    (name ++ [c]) ++ number = name ++ c :: number := by simp

theorem joystickPath_eq (idx : Nat) :
    joystickPath idx = "/dev/input/even".toList ++ 't' :: decimal idx :=
  last_before "/dev/input/even".toList 't' (decimal idx)

theorem hidrawPath_eq (node : Str) (idx : Nat) :
    ∃ pre, hidrawPath node (decimal idx) = pre ++ 'w' :: decimal idx := by
  obtain ⟨pre, hpre⟩ := fileJoin_suffix node ("hidraw".toList ++ decimal idx)
  refine ⟨pre ++ "hidra".toList, ?_⟩
  rw [hidrawPath, ← hpre, List.append_assoc]
  exact congrArg (pre ++ ·) (last_before "hidra".toList 'w' (decimal idx))

theorem eventPath_eq (node : Str) (idx : Nat) :
    ∃ pre, eventPath node (decimal idx) = pre ++ 't' :: decimal idx := by
  obtain ⟨pre, hpre⟩ := fileJoin_suffix node ("input/event".toList ++ decimal idx)
  refine ⟨pre ++ "input/even".toList, ?_⟩
  rw [eventPath, ← hpre, List.append_assoc]
  exact congrArg (pre ++ ·) (last_before "input/even".toList 't' (decimal idx))

theorem hidrawPath_ne (node : Str) (i j : Nat) : hidrawPath node (decimal i) ≠ joystickPath j := by
  intro heq
  obtain ⟨pre, hpre⟩ := hidrawPath_eq node i
  rw [hpre, joystickPath_eq] at heq
  have hw : Char.isDigit 'w' = false := by decide
  have ht : Char.isDigit 't' = false := by decide
  have hlast := number_unique hw ht heq
  exact absurd hlast.1 (by decide)

theorem eventPath_inj {node : Str} {i j : Nat} (h : eventPath node (decimal i) = joystickPath j) :
    i = j := by
  obtain ⟨pre, hpre⟩ := eventPath_eq node i
  rw [hpre, joystickPath_eq] at h
  have ht : Char.isDigit 't' = false := by decide
  exact (number_unique ht ht h).2

/-- Steam and fix-gamepad-permissions agree on what a gamepad is: with devfs on /dev the paths SDL
gets are those of the event devices there that are given away. -/
theorem joysticks_granted (hids evs : List Line) (hhids : Readable hidraw hids)
    (hevs : Readable evdev evs) (mounts : List MountInfo)
    (hdev : ⟨"/dev".toList, "devfs".toList⟩ ∈ mounts) :
    ∃ cmds, fixPermissions (listing hidraw hids) (listing evdev evs) mounts = some cmds ∧
      ∀ idx, idx ∈ joysticks (listing evdev evs) ↔ Cmd.chmod (joystickPath idx) ∈ cmds := by
  obtain ⟨hidDevices, evDevices, hhidAdded, hevAdded, hcmds⟩ :=
    fixPermissions_read hhids hevs mounts
  refine ⟨_, hcmds, fun idx => ?_⟩
  rw [mem_joysticks hevs, mem_commands.2]
  constructor
  · rintro ⟨e, he, hkey, hpad, rfl⟩
    have hchosen := (mem_gamepad hevAdded).mpr ⟨e, he, hkey, hpad, rfl⟩
    exact ⟨_, hdev, rfl, Or.inr ⟨_, hchosen, rfl⟩⟩
  · rintro ⟨m, -, -, ⟨i, hi, hpath⟩ | ⟨i, hi, hpath⟩⟩
    · obtain ⟨e, -, -, -, rfl⟩ := (mem_weird hhidAdded).mp hi
      exact absurd hpath.symm (hidrawPath_ne m.node e.idx idx)
    · obtain ⟨e, he, hkey, hpad, rfl⟩ := (mem_gamepad hevAdded).mp hi
      exact ⟨e, he, hkey, hpad, eventPath_inj hpath.symm⟩

/-! A mouse and a gamepad, and what sysctl prints of their class. -/

def desktopHids : List Line :=
  [.other "dev.hidraw.%parent: ".toList,
    .entry ⟨0, "%desc".toList, "Logitech USB Optical Mouse".toList⟩,
    .entry ⟨1, "%desc".toList, "Sony DualSense".toList⟩,
    .entry ⟨1, "%pnpinfo".toList, "page=0x0001 usage=0x0005".toList⟩]

def desktopEvs : List Line :=
  [.entry ⟨3, "id".toList, "\x7b bustype = 0x0003, vendor = 0x054c \x7d".toList⟩,
    .entry ⟨3, "phys".toList, "ps4dshock0".toList⟩, .entry ⟨4, "phys".toList, "ums0".toList⟩]

theorem desktopHids_readable : Readable hidraw desktopHids where
  keys := by decide
  pattern := by decide
  plain := by decide
  value := by decide
  once := by decide
  other := by decide

theorem desktopEvs_readable : Readable evdev desktopEvs where
  keys := by decide
  pattern := by decide
  plain := by decide
  value := by decide
  once := by decide
  other := by decide

/-- The gamepad is given away, the mouse is not. -/
theorem permissions_exact_desktop :
    ∃ cmds, fixPermissions (listing hidraw desktopHids) (listing evdev desktopEvs)
        [⟨"/dev".toList, "devfs".toList⟩] = some cmds ∧
      Cmd.chmod "/dev/hidraw1".toList ∈ cmds ∧ Cmd.chgrp "/dev/input/event3".toList ∈ cmds ∧
      Cmd.chmod "/dev/hidraw0".toList ∉ cmds := by
  obtain ⟨cmds, hcmds, hexact⟩ := permissions_exact desktopHids desktopEvs desktopHids_readable
    desktopEvs_readable [⟨"/dev".toList, "devfs".toList⟩]
  refine ⟨cmds, hcmds, (hexact _).2.mpr ?_, (hexact _).1.mpr ((hexact _).2.mpr ?_), fun h => ?_⟩
  · refine ⟨_, List.mem_cons_self, rfl, Or.inl ⟨(entries desktopHids)[1], ?_, ?_, ?_, ?_⟩⟩
    · decide
    · decide
    · decide
    · decide
  · refine ⟨_, List.mem_cons_self, rfl, Or.inr ⟨(entries desktopEvs)[1], ?_, ?_, ?_, ?_⟩⟩
    · decide
    · decide
    · decide
    · decide
  · have hmouse : ∀ e ∈ entries desktopHids,
        "/dev/hidraw0".toList = hidrawPath "/dev".toList (decimal e.idx) →
          ∃ d ∈ entries desktopHids, d.idx = e.idx ∧ d.key = descKey ∧ keyboardLike d.text = true := by
      decide
    have hevent : ∀ e ∈ entries desktopEvs,
        "/dev/hidraw0".toList ≠ eventPath "/dev".toList (decimal e.idx) := by decide
    obtain ⟨m, hm, -, hnode⟩ := (hexact _).2.mp h
    obtain rfl := List.mem_singleton.mp hm
    obtain ⟨e, he, -, hno, hpath⟩ | ⟨e, he, -, -, hpath⟩ := hnode
    · obtain ⟨d, hd, hidx, hkey, hlike⟩ := hmouse e he hpath
      rw [hno d hd hidx hkey] at hlike
      cases hlike
    · exact hevent e he hpath

/-- SDL is told of the gamepad only. -/
theorem joysticks_granted_desktop :
    ∃ cmds, fixPermissions (listing hidraw desktopHids) (listing evdev desktopEvs)
        [⟨"/dev".toList, "devfs".toList⟩] = some cmds ∧
      Cmd.chmod (joystickPath 3) ∈ cmds ∧ Cmd.chmod (joystickPath 4) ∉ cmds := by
  obtain ⟨cmds, hcmds, hagree⟩ := joysticks_granted desktopHids desktopEvs desktopHids_readable
    desktopEvs_readable [⟨"/dev".toList, "devfs".toList⟩] List.mem_cons_self
  have hsdl : joysticks (listing evdev desktopEvs) = [3] := by decide +kernel
  rw [hsdl] at hagree
  exact ⟨cmds, hcmds, (hagree 3).mp (by simp), fun h => absurd ((hagree 4).mpr h) (by simp)⟩

end LSU.Gamepads
