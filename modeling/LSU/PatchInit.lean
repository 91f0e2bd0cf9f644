import LSU.Text
import LSU.Words

/-! patch-dt_init.rb, from the bytes of the object on: what readelf says (the class and the
offset of the dynamic section) is given. `none` is a raised exception. -/
namespace LSU.PatchInit
open LSU.Words

abbrev Bytes := List UInt8

inductive ElfClass where
  | elf32 | elf64
deriving DecidableEq

def ElfClass.wordsize : ElfClass → Nat
  | .elf32 => 4
  | .elf64 => 8

def dtInit : Nat := 12
def dtInitArray : Nat := 25

/-- `obj[a...b]`, nil past the end. -/
def slice (obj : Bytes) (a b : Nat) : Option Bytes :=
  if a ≤ obj.length then some ((obj.drop a).take (b - a)) else none

def toNumber (slice : Bytes) : Option Nat :=
  match slice.length with
  | 8 => some (unpack slice)
  | 4 => some (unpack slice)
  | _ => none

def toSlice (number wordsize : Nat) : Option Bytes :=
  match wordsize with
  | 8 => some (pack number 8)
  | 4 => some (pack number 4)
  | _ => none

structure Entry where
  offset : Nat
  tag : Nat
  val : Nat

/-- The entry that starts at `pos`. -/
def readEntry (obj : Bytes) (pos wordsize : Nat) : Option Entry := do
  let tag ← toNumber (← slice obj pos (pos + wordsize))
  let val ← toNumber (← slice obj (pos + wordsize) (pos + wordsize * 2))
  return ⟨pos, tag, val⟩

/-- The loop from turn `i` on. Every turn reads at least one byte more of the object, so
more turns than bytes never happen. -/
def readEntries (obj : Bytes) (sectionOffset wordsize : Nat) : Nat → Nat → Option (List Entry)
  | 0, _ => none
  | fuel + 1, i => do
    let entry ← readEntry obj (sectionOffset + wordsize * 2 * i) wordsize
    if entry.tag = 0 then
      return [entry]
    else
      return entry :: (← readEntries obj sectionOffset wordsize fuel (i + 1))

def readDynamicSection (obj : Bytes) (sectionOffset wordsize : Nat) : Option (List Entry) :=
  readEntries obj sectionOffset wordsize (obj.length + 1) 0

/-- `obj[pos] = char`, which appends right past the end and raises further on. -/
def setByte (obj : Bytes) (pos : Nat) (char : UInt8) : Option Bytes :=
  if pos < obj.length then some (obj.set pos char)
  else if pos = obj.length then some (obj ++ [char])
  else none

def writeChars (obj : Bytes) (pos : Nat) : Bytes → Option Bytes
  | [] => some obj
  | char :: chars => do writeChars (← setByte obj pos char) (pos + 1) chars

def wwrite (obj : Bytes) (offset number wordsize : Nat) : Option Bytes := do
  writeChars obj offset (← toSlice number wordsize)

def patchEntry (wordsize : Nat) (obj : Bytes) (entry : Entry) : Option Bytes :=
  if entry.tag = dtInit ∨ entry.tag = dtInitArray then
    wwrite obj entry.offset (0x42420000 + entry.tag) wordsize
  else
    some obj

/-- The bytes written to the output file. -/
def patchInit (obj : Bytes) (dynamicSectionOffset wordsize : Nat) : Option Bytes := do
  let entries ← readDynamicSection obj dynamicSectionOffset wordsize
  entries.foldlM (patchEntry wordsize) obj

/-- A dynamic section entry as the file holds it. -/
structure Dyn where
  tag : Nat
  val : Nat
deriving DecidableEq

/-- Tag and value fit the words of the class. -/
def Dyn.Fits (c : ElfClass) (d : Dyn) : Prop :=
  d.tag < 256 ^ c.wordsize ∧ d.val < 256 ^ c.wordsize

def Dyn.bytes (c : ElfClass) (d : Dyn) : Bytes := pack d.tag c.wordsize ++ pack d.val c.wordsize

def sectionBytes (c : ElfClass) (dyns : List Dyn) : Bytes := dyns.flatMap (Dyn.bytes c)

def Dyn.patch (d : Dyn) : Dyn :=
  if d.tag = dtInit ∨ d.tag = dtInitArray then ⟨0x42420000 + d.tag, d.val⟩ else d

theorem Dyn.bytes_length (c : ElfClass) (d : Dyn) : (d.bytes c).length = c.wordsize * 2 := by
  simp [Dyn.bytes, Nat.mul_two]

theorem sectionBytes_cons (c : ElfClass) (d : Dyn) (dyns : List Dyn) :
    sectionBytes c (d :: dyns) = d.bytes c ++ sectionBytes c dyns := rfl

theorem sectionBytes_append (c : ElfClass) (u v : List Dyn) :
    sectionBytes c (u ++ v) = sectionBytes c u ++ sectionBytes c v := by
  simp [sectionBytes]

theorem sectionBytes_length (c : ElfClass) (dyns : List Dyn) :
    (sectionBytes c dyns).length = c.wordsize * 2 * dyns.length := by
  induction dyns with
  | nil => rfl
  | cons d dyns ih =>
    rw [sectionBytes_cons, List.length_append, ih, Dyn.bytes_length, List.length_cons]
    ring

theorem ElfClass.wordsize_pos (c : ElfClass) : 0 < c.wordsize := by
  cases c <;> decide

/-- Slicing out a middle part of the object. -/
theorem slice_middle (u v w : Bytes) {n : Nat} (hn : v.length = n) :
    slice (u ++ v ++ w) u.length (u.length + n) = some v := by
  subst hn
  simp [slice]

theorem toNumber_pack {c : ElfClass} {n : Nat} (h : n < 256 ^ c.wordsize) :
    toNumber (pack n c.wordsize) = some n := by
  have hu := unpack_pack_of_lt h
  cases c <;> simpa [toNumber, ElfClass.wordsize] using hu

theorem readEntry_bytes {c : ElfClass} {d : Dyn} (hd : d.Fits c) (u v : Bytes) :
    readEntry (u ++ d.bytes c ++ v) u.length c.wordsize = some ⟨u.length, d.tag, d.val⟩ := by
  have htag : slice (u ++ d.bytes c ++ v) u.length (u.length + c.wordsize) =
      some (pack d.tag c.wordsize) := by
    have h := slice_middle u (pack d.tag c.wordsize) (pack d.val c.wordsize ++ v) (pack_length _ _)
    simpa [Dyn.bytes] using h
  have hval : slice (u ++ d.bytes c ++ v) (u.length + c.wordsize) (u.length + c.wordsize * 2) =
      some (pack d.val c.wordsize) := by
    have h := slice_middle (u ++ pack d.tag c.wordsize) (pack d.val c.wordsize) v (pack_length _ _)
    simpa [Dyn.bytes, Nat.mul_two, Nat.add_assoc] using h
  simp only [readEntry, htag, hval, Option.bind_eq_bind, Option.bind_some, toNumber_pack hd.1,
    toNumber_pack hd.2, Option.pure_def]

/-- The entries of a section that starts at `pos`. -/
def entriesAt (c : ElfClass) (pos : Nat) : List Dyn → List Entry
  | [] => []
  | d :: dyns => ⟨pos, d.tag, d.val⟩ :: entriesAt c (pos + c.wordsize * 2) dyns

/-- A section as it should be: entries with non-zero tags up to a first DT_NULL. -/
structure WellFormed (c : ElfClass) (dyns : List Dyn) (null : Dyn) : Prop where
  fits : ∀ d ∈ dyns, d.Fits c
  nonzero : ∀ d ∈ dyns, d.tag ≠ 0
  nullFits : null.Fits c
  nullTag : null.tag = 0

theorem WellFormed.tail {c : ElfClass} {d : Dyn} {dyns : List Dyn} {null : Dyn}
    (h : WellFormed c (d :: dyns) null) : WellFormed c dyns null :=
  ⟨fun x hx => h.fits x (List.mem_cons_of_mem d hx),
    fun x hx => h.nonzero x (List.mem_cons_of_mem d hx), h.nullFits, h.nullTag⟩

theorem readEntries_section {c : ElfClass} {null : Dyn} (off i fuel : Nat) (dyns : List Dyn)
    (u v : Bytes) (hwf : WellFormed c dyns null) (hu : u.length = off + c.wordsize * 2 * i)
    (hfuel : dyns.length < fuel) :
    readEntries (u ++ sectionBytes c (dyns ++ [null]) ++ v) off c.wordsize fuel i =
      some (entriesAt c u.length (dyns ++ [null])) := by
  induction dyns generalizing u i fuel with
  | nil =>
    obtain ⟨fuel, rfl⟩ : ∃ n, fuel = n + 1 := ⟨fuel - 1, by simp at hfuel; omega⟩
    have hread := readEntry_bytes hwf.nullFits u v
    rw [List.append_assoc] at hread
    simp [readEntries, ← hu, sectionBytes, entriesAt, hread, hwf.nullTag]
  | cons d dyns ih =>
    obtain ⟨fuel, rfl⟩ : ∃ n, fuel = n + 1 := ⟨fuel - 1, by simp at hfuel; omega⟩
    have hd := hwf.fits d List.mem_cons_self
    have hne := hwf.nonzero d List.mem_cons_self
    have hread := readEntry_bytes hd u (sectionBytes c (dyns ++ [null]) ++ v)
    have hnext := ih (i + 1) fuel (u ++ d.bytes c) hwf.tail
      (by simp only [List.length_append, Dyn.bytes_length, hu]; ring)
      (by simp at hfuel; omega)
    simp only [List.append_assoc, List.length_append, Dyn.bytes_length] at hread hnext
    simp [readEntries, ← hu, sectionBytes_cons, entriesAt, hread, hnext, hne]

theorem readDynamicSection_section {c : ElfClass} {null : Dyn} {dyns : List Dyn}
    (hwf : WellFormed c dyns null) (u v : Bytes) :
    readDynamicSection (u ++ sectionBytes c (dyns ++ [null]) ++ v) u.length c.wordsize =
      some (entriesAt c u.length (dyns ++ [null])) := by
  apply readEntries_section u.length 0 _ dyns u v hwf (by simp)
  have hlen := sectionBytes_length c dyns
  have hpos := c.wordsize_pos
  simp only [List.length_append, sectionBytes_append, hlen]
  have hle : dyns.length ≤ c.wordsize * 2 * dyns.length := Nat.le_mul_of_pos_left _ (by omega)
  omega

theorem writeChars_middle (u old new v : Bytes) (h : old.length = new.length) :
    writeChars (u ++ old ++ v) u.length new = some (u ++ new ++ v) := by
  induction new generalizing u old with
  | nil =>
    obtain rfl : old = [] := by simpa using h
    rfl
  | cons b new ih =>
    cases old with
    | nil => simp at h
    | cons a old =>
      have hset : setByte (u ++ a :: old ++ v) u.length b = some (u ++ [b] ++ old ++ v) := by
        simp [setByte]
      have hnext := ih (u ++ [b]) old (by simpa using h)
      simp only [List.length_append, List.length_singleton] at hnext
      rw [writeChars, hset]
      simpa using hnext

theorem wwrite_tag {c : ElfClass} (u v : Bytes) (d : Dyn) (number : Nat) :
    wwrite (u ++ d.bytes c ++ v) u.length number c.wordsize =
      some (u ++ Dyn.bytes c ⟨number, d.val⟩ ++ v) := by
  have hs : toSlice number c.wordsize = some (pack number c.wordsize) := by cases c <;> rfl
  have hw := writeChars_middle u (pack d.tag c.wordsize) (pack number c.wordsize)
    (pack d.val c.wordsize ++ v) (by simp)
  simpa [wwrite, hs, Dyn.bytes] using hw

theorem patchEntry_bytes {c : ElfClass} (u v : Bytes) (d : Dyn) :
    patchEntry c.wordsize (u ++ d.bytes c ++ v) ⟨u.length, d.tag, d.val⟩ =
      some (u ++ d.patch.bytes c ++ v) := by
  unfold patchEntry Dyn.patch
  split
  · exact wwrite_tag u v d _
  · rfl

theorem foldlM_patchEntry {c : ElfClass} (u v : Bytes) (dyns : List Dyn) :
    (entriesAt c u.length dyns).foldlM (patchEntry c.wordsize) (u ++ sectionBytes c dyns ++ v) =
      some (u ++ sectionBytes c (dyns.map Dyn.patch) ++ v) := by
  induction dyns generalizing u with
  | nil => rfl
  | cons d dyns ih =>
    have hpatch := patchEntry_bytes (c := c) u (sectionBytes c dyns ++ v) d
    have hnext := ih (u ++ d.patch.bytes c)
    simp only [List.length_append, Dyn.bytes_length, List.append_assoc] at hpatch hnext
    simp [entriesAt, sectionBytes_cons, hpatch, hnext]

/-- patch_init on an object with a well-formed section rewrites the tags of that section
and leaves every byte around it. -/
theorem patchInit_section {c : ElfClass} {null : Dyn} {dyns : List Dyn}
    (hwf : WellFormed c dyns null) (u v : Bytes) :
    patchInit (u ++ sectionBytes c (dyns ++ [null]) ++ v) u.length c.wordsize =
      some (u ++ sectionBytes c (dyns.map Dyn.patch ++ [null]) ++ v) := by
  have hnull : null.patch = null := by simp [Dyn.patch, hwf.nullTag, dtInit, dtInitArray]
  have hfold := foldlM_patchEntry u v (c := c) (dyns ++ [null])
  rw [List.map_append, List.map_singleton, hnull] at hfold
  rw [patchInit, readDynamicSection_section hwf]
  exact hfold

end LSU.PatchInit
