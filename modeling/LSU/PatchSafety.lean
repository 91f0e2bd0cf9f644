import LSU.CallConstructors

/-! patch_init on any bytes: when it raises, and what it leaves of the file it writes. -/
namespace LSU.PatchSafety
open LSU.CallConstructors LSU.PatchInit LSU.Words

/-- The number at a position, where there is a whole word. -/
def word (obj : Bytes) (pos wordsize : Nat) : Option Nat :=
  if pos + wordsize ≤ obj.length then some (unpack ((obj.drop pos).take wordsize)) else none

def entryPos (c : ElfClass) (off i : Nat) : Nat := off + c.wordsize * 2 * i

/-- Of the tag words up to the one of entry `n`, that one alone is zero. -/
structure Ended (c : ElfClass) (obj : Bytes) (off n : Nat) : Prop where
  before : ∀ i < n, ∃ tag, word obj (entryPos c off i) c.wordsize = some tag ∧ tag ≠ 0
  null : word obj (entryPos c off n) c.wordsize = some 0

/-- A list of entries that a zero tag ends, with the value of the last one. -/
structure Complete (c : ElfClass) (obj : Bytes) (off n : Nat) : Prop
    extends Ended c obj off n where
  whole : entryPos c off (n + 1) ≤ obj.length

def Marked (tag : Nat) : Prop := tag = dtInit ∨ tag = dtInitArray

/-- Only the tag words of marked entries differ, each of which reads as it should, and there is
nothing left to patch. -/
structure Rewritten (c : ElfClass) (obj : Bytes) (off n : Nat) (out : Bytes) : Prop where
  length : out.length = obj.length
  frame : ∀ k, out[k]? ≠ obj[k]? → ∃ i < n, ∃ tag,
    word obj (entryPos c off i) c.wordsize = some tag ∧ Marked tag ∧
      entryPos c off i ≤ k ∧ k < entryPos c off i + c.wordsize
  marked : ∀ i < n, ∀ tag, word obj (entryPos c off i) c.wordsize = some tag → Marked tag →
    word out (entryPos c off i) c.wordsize = some (0x42420000 + tag)
  again : patchInit out off c.wordsize = some out

/-- A turn of the loop raises or breaks, after which further turns change nothing; without a
complete list patch_init raises, and with one it writes what it should. -/
structure PatchesSafely (c : ElfClass) (obj : Bytes) (off : Nat) : Prop where
  terminates : ∃ i ≤ obj.length, ∀ e,
    readEntry obj (entryPos c off i) c.wordsize = some e → e.tag = 0
  enough : ∀ fuel, obj.length < fuel →
    readEntries obj off c.wordsize fuel 0 = readDynamicSection obj off c.wordsize
  raises : (∀ n, ¬ Complete c obj off n) → patchInit obj off c.wordsize = none
  writes : ∀ n, Complete c obj off n →
    ∃ out, patchInit obj off c.wordsize = some out ∧ Rewritten c obj off n out

/-- The file ends four bytes into the last value of a 64-bit list. -/
def CutShort (c : ElfClass) (obj : Bytes) (off : Nat) : Prop :=
  c = .elf64 ∧ ∃ n, Ended c obj off n ∧ obj.length = entryPos c off n + 12

variable {c : ElfClass} {obj : Bytes} {off : Nat}

/-! One entry. -/

theorem slice_eq_some {a b : Nat} {s : Bytes} (h : slice obj a b = some s) :
    a ≤ obj.length ∧ s = (obj.drop a).take (b - a) ∧
      s.length = min (b - a) (obj.length - a) := by
  rw [slice] at h
  split at h
  · rename_i ha
    obtain rfl := Option.some.inj h
    refine ⟨ha, rfl, ?_⟩
    rw [List.length_take, List.length_drop]
  · cases h

theorem toNumber_eq_some {s : Bytes} {n : Nat} (h : toNumber s = some n) :
    (s.length = 4 ∨ s.length = 8) ∧ unpack s = n := by
  unfold toNumber at h
  split at h
  · rename_i hlen
    exact ⟨Or.inr hlen, Option.some.inj h⟩
  · rename_i hlen
    exact ⟨Or.inl hlen, Option.some.inj h⟩
  · cases h

theorem toNumber_isSome {s : Bytes} (h : s.length = 4 ∨ s.length = 8) :
    toNumber s = some (unpack s) := by
  rcases h with h | h
  · simp [toNumber, h]
  · simp [toNumber, h]

theorem wordsize_cases (c : ElfClass) :
    c = .elf32 ∧ c.wordsize = 4 ∨ c = .elf64 ∧ c.wordsize = 8 := by
  cases c with
  | elf32 => exact Or.inl ⟨rfl, rfl⟩
  | elf64 => exact Or.inr ⟨rfl, rfl⟩

/-- An entry is read where it is whole, and where the file ends in the middle of the value of a
64-bit one. -/
def Readable (c : ElfClass) (obj : Bytes) (pos : Nat) : Prop :=
  pos + c.wordsize * 2 ≤ obj.length ∨ c = .elf64 ∧ obj.length = pos + 12

theorem readEntry_eq_some {pos : Nat} {e : Entry} (h : readEntry obj pos c.wordsize = some e) :
    Readable c obj pos ∧ e.offset = pos ∧ word obj pos c.wordsize = some e.tag := by
  rw [readEntry] at h
  simp only [Option.bind_eq_bind, Option.bind_eq_some_iff, Option.pure_def,
    Option.some.injEq] at h
  obtain ⟨s, hs, tag, htag, t, ht, val, hval, rfl⟩ := h
  obtain ⟨-, hs, hslen⟩ := slice_eq_some hs
  obtain ⟨hle, -, htlen⟩ := slice_eq_some ht
  obtain ⟨hsize, hunpack⟩ := toNumber_eq_some htag
  have htsize := (toNumber_eq_some hval).1
  refine ⟨?_, rfl, ?_⟩
  · rcases wordsize_cases c with ⟨hc, hw⟩ | ⟨hc, hw⟩
    · apply Or.inl
      rw [hw] at hle htlen ⊢
      omega
    · by_cases hwhole : pos + c.wordsize * 2 ≤ obj.length
      · exact Or.inl hwhole
      · refine Or.inr ⟨hc, ?_⟩
        rw [hw] at hle htlen hwhole
        omega
  · rw [word, if_pos hle, ← hunpack, hs, Nat.add_sub_cancel_left]

/-- A slice of four or eight bytes is read as a number. -/
theorem slice_toNumber {a b : Nat} (ha : a ≤ obj.length)
    (hlen : min (b - a) (obj.length - a) = 4 ∨ min (b - a) (obj.length - a) = 8) :
    ∃ bytes n, slice obj a b = some bytes ∧ toNumber bytes = some n := by
  refine ⟨(obj.drop a).take (b - a), unpack ((obj.drop a).take (b - a)), if_pos ha, ?_⟩
  apply toNumber_isSome
  rw [List.length_take, List.length_drop]
  exact hlen

theorem readEntry_readable {pos : Nat} (h : Readable c obj pos) :
    ∃ e, readEntry obj pos c.wordsize = some e := by
  have hsize : pos + c.wordsize ≤ obj.length ∧
      (min c.wordsize (obj.length - (pos + c.wordsize)) = 4 ∨
        min c.wordsize (obj.length - (pos + c.wordsize)) = 8) := by
    rcases wordsize_cases c with ⟨hc, hw⟩ | ⟨hc, hw⟩
    · rw [Readable, hw] at h
      rw [hw]
      rcases h with h | ⟨h, -⟩
      · omega
      · rw [hc] at h
        cases h
    · rw [Readable, hw] at h
      rw [hw]
      omega
  have htag : min (pos + c.wordsize - pos) (obj.length - pos) = 4 ∨
      min (pos + c.wordsize - pos) (obj.length - pos) = 8 := by
    rcases wordsize_cases c with ⟨-, hw⟩ | ⟨-, hw⟩
    · rw [hw] at hsize ⊢
      omega
    · rw [hw] at hsize ⊢
      omega
  have hval : pos + c.wordsize * 2 - (pos + c.wordsize) = c.wordsize := by omega
  obtain ⟨tagBytes, tag, htagSlice, htagNumber⟩ :=
    @slice_toNumber obj pos (pos + c.wordsize) (by omega) htag
  obtain ⟨valBytes, val, hvalSlice, hvalNumber⟩ :=
    @slice_toNumber obj (pos + c.wordsize) (pos + c.wordsize * 2) hsize.1
      (by rw [hval]; exact hsize.2)
  simp only [readEntry, htagSlice, hvalSlice, Option.bind_eq_bind, Option.bind_some, htagNumber,
    hvalNumber]
  exact ⟨_, rfl⟩

/-! The loop. -/

theorem entryPos_succ (c : ElfClass) (off i : Nat) :
    entryPos c off (i + 1) = entryPos c off i + c.wordsize * 2 := by
  rw [entryPos, entryPos, Nat.mul_add, Nat.mul_one, Nat.add_assoc]

theorem readEntries_raise {i : Nat} (h : readEntry obj (entryPos c off i) c.wordsize = none)
    (fuel : Nat) : readEntries obj off c.wordsize fuel i = none := by
  cases fuel with
  | zero => rfl
  | succ fuel =>
    rw [entryPos] at h
    rw [readEntries, h]
    rfl

theorem readEntries_null {i : Nat} {e : Entry}
    (h : readEntry obj (entryPos c off i) c.wordsize = some e) (htag : e.tag = 0) (fuel : Nat) :
    readEntries obj off c.wordsize (fuel + 1) i = some [e] := by
  rw [entryPos] at h
  rw [readEntries, h, Option.bind_eq_bind, Option.bind_some, if_pos htag]
  rfl

theorem readEntries_next {i : Nat} {e : Entry}
    (h : readEntry obj (entryPos c off i) c.wordsize = some e) (htag : e.tag ≠ 0) (fuel : Nat) :
    readEntries obj off c.wordsize (fuel + 1) i =
      (readEntries obj off c.wordsize fuel (i + 1)).map (e :: ·) := by
  rw [entryPos] at h
  rw [readEntries, h, Option.bind_eq_bind, Option.bind_some, if_neg htag]
  cases readEntries obj off c.wordsize fuel (i + 1) with
  | none => rfl
  | some entries => rfl

/-- Turns beyond the bytes that are left change nothing. -/
theorem readEntries_enough {fuel fuel' i : Nat} (h : obj.length < entryPos c off i + fuel)
    (h' : obj.length < entryPos c off i + fuel') (hpos : 0 < fuel) (hpos' : 0 < fuel') :
    readEntries obj off c.wordsize fuel i = readEntries obj off c.wordsize fuel' i := by
  induction fuel generalizing fuel' i with
  | zero => omega
  | succ fuel ih =>
    cases fuel' with
    | zero => omega
    | succ fuel' =>
      cases hread : readEntry obj (entryPos c off i) c.wordsize with
      | none => rw [readEntries_raise hread, readEntries_raise hread]
      | some e =>
        by_cases htag : e.tag = 0
        · rw [readEntries_null hread htag, readEntries_null hread htag]
        · have hwhole := (readEntry_eq_some hread).1
          have hsize := wordsize_cases c
          have hsucc := entryPos_succ c off i
          rw [Readable] at hwhole
          have hrest := @ih fuel' (i + 1) (by omega) (by omega) (by omega) (by omega)
          rw [readEntries_next hread htag, readEntries_next hread htag, hrest]

/-- What the loop reads ends with a zero tag, with the last entry whole or cut. -/
theorem readEntries_ended {fuel i : Nat} {entries : List Entry}
    (h : readEntries obj off c.wordsize fuel i = some entries) :
    ∃ n, i ≤ n ∧
      (∀ j, i ≤ j → j < n → ∃ tag, word obj (entryPos c off j) c.wordsize = some tag ∧ tag ≠ 0) ∧
      word obj (entryPos c off n) c.wordsize = some 0 ∧ Readable c obj (entryPos c off n) := by
  induction fuel generalizing i entries with
  | zero => cases h
  | succ fuel ih =>
    cases hread : readEntry obj (entryPos c off i) c.wordsize with
    | none =>
      rw [readEntries_raise hread] at h
      cases h
    | some e =>
      obtain ⟨hwhole, -, hword⟩ := readEntry_eq_some hread
      by_cases htag : e.tag = 0
      · rw [htag] at hword
        exact ⟨i, Nat.le_refl i, fun j hij hji => by omega, hword, hwhole⟩
      · rw [readEntries_next hread htag] at h
        obtain ⟨rest, hrest, -⟩ := Option.map_eq_some_iff.mp h
        obtain ⟨n, hn, hbefore, hnull⟩ := ih hrest
        refine ⟨n, by omega, ?_, hnull⟩
        intro j hij hjn
        by_cases hj : j = i
        · rw [hj]
          exact ⟨e.tag, hword, htag⟩
        · exact hbefore j (by omega) hjn

/-- An entry before the last one is whole. -/
theorem Ended.readable {n : Nat} (h : Ended c obj off n) {i : Nat} (hi : i < n) :
    Readable c obj (entryPos c off i) := by
  have hword : ∃ tag, word obj (entryPos c off (i + 1)) c.wordsize = some tag := by
    by_cases hlast : i + 1 = n
    · exact ⟨0, hlast ▸ h.null⟩
    · obtain ⟨tag, htag, -⟩ := h.before (i + 1) (by omega)
      exact ⟨tag, htag⟩
  obtain ⟨tag, htag⟩ := hword
  rw [word] at htag
  split at htag
  · have hsucc := entryPos_succ c off i
    exact Or.inl (by omega)
  · cases htag

/-- The loop comes to the zero tag. -/
theorem readEntries_of_ended {n : Nat} (h : Ended c obj off n)
    (hlast : Readable c obj (entryPos c off n)) {i fuel : Nat} (hi : i ≤ n)
    (hfuel : n < i + fuel) :
    ∃ entries, readEntries obj off c.wordsize fuel i = some entries ∧
      ∀ e ∈ entries, Readable c obj e.offset := by
  induction fuel generalizing i with
  | zero => omega
  | succ fuel ih =>
    by_cases hend : i = n
    · subst hend
      obtain ⟨e, hread⟩ := readEntry_readable hlast
      obtain ⟨-, hoffset, hword⟩ := readEntry_eq_some hread
      have htag : e.tag = 0 := Option.some.inj (hword.symm.trans h.null)
      refine ⟨[e], readEntries_null hread htag fuel, ?_⟩
      simpa [hoffset] using hlast
    · have hi' : i < n := by omega
      obtain ⟨e, hread⟩ := readEntry_readable (h.readable hi')
      obtain ⟨-, hoffset, hword⟩ := readEntry_eq_some hread
      obtain ⟨tag, htag, hne⟩ := h.before i hi'
      have hsame : e.tag = tag := Option.some.inj (hword.symm.trans htag)
      obtain ⟨entries, hrest, hall⟩ := ih (i := i + 1) (by omega) (by omega)
      refine ⟨e :: entries, ?_, ?_⟩
      · rw [readEntries_next hread (hsame ▸ hne), hrest]
        rfl
      · rw [List.forall_mem_cons, hoffset]
        exact ⟨h.readable hi', hall⟩

/-! The writes. -/

theorem writeChars_inside {pos : Nat} {chars : Bytes} (h : pos + chars.length ≤ obj.length) :
    ∃ out, writeChars obj pos chars = some out ∧ out.length = obj.length := by
  induction chars generalizing obj pos with
  | nil => exact ⟨obj, rfl, rfl⟩
  | cons char chars ih =>
    rw [List.length_cons] at h
    have hset : setByte obj pos char = some (obj.set pos char) := if_pos (by omega)
    obtain ⟨out, hout, hlen⟩ := @ih (obj.set pos char) (pos + 1) (by rw [List.length_set]; omega)
    refine ⟨out, ?_, hlen.trans (List.length_set ..)⟩
    rw [writeChars, hset]
    exact hout

theorem patchEntry_inside {e : Entry} (h : Readable c obj e.offset) :
    ∃ out, patchEntry c.wordsize obj e = some out ∧ out.length = obj.length := by
  have hsize := wordsize_cases c
  rw [Readable] at h
  rw [patchEntry]
  split
  · have hslice : toSlice (0x42420000 + e.tag) c.wordsize =
        some (pack (0x42420000 + e.tag) c.wordsize) := by
      cases c with
      | elf32 => rfl
      | elf64 => rfl
    rw [wwrite, hslice]
    apply writeChars_inside
    rw [pack_length]
    omega
  · exact ⟨obj, rfl, rfl⟩

/-- Entries that were read are patched without a raise. -/
theorem foldlM_inside {entries : List Entry} {n : Nat} (hlen : obj.length = n)
    (h : ∀ e ∈ entries, ∀ out : Bytes, out.length = n → Readable c out e.offset) :
    ∃ out, entries.foldlM (patchEntry c.wordsize) obj = some out := by
  induction entries generalizing obj with
  | nil => exact ⟨obj, rfl⟩
  | cons e entries ih =>
    rw [List.forall_mem_cons] at h
    obtain ⟨out, hout, hsame⟩ := patchEntry_inside (h.1 obj hlen)
    obtain ⟨final, hfinal⟩ := ih (hsame.trans hlen) h.2
    refine ⟨final, ?_⟩
    rw [List.foldlM_cons, hout]
    exact hfinal

/-- A zero tag is enough for patch_init to write a file, whether or not its value is whole. -/
theorem patchInit_of_ended {n : Nat} (h : Ended c obj off n)
    (hlast : Readable c obj (entryPos c off n)) :
    ∃ out, patchInit obj off c.wordsize = some out := by
  have hfuel : n < 0 + (obj.length + 1) := by
    have hsize := wordsize_cases c
    have hle : n ≤ c.wordsize * 2 * n := Nat.le_mul_of_pos_left n (by omega)
    rw [Readable, entryPos] at hlast
    omega
  obtain ⟨entries, hread, hall⟩ := readEntries_of_ended h hlast (Nat.zero_le n) hfuel
  obtain ⟨out, hout⟩ := @foldlM_inside c obj entries obj.length rfl (by
    intro e he out hlen
    have hreadable := hall e he
    rw [Readable, ← hlen] at hreadable
    exact hreadable)
  refine ⟨out, ?_⟩
  rw [patchInit, readDynamicSection, hread]
  exact hout

/-! The bytes of a complete list. -/

theorem entry_bytes {pos : Nat} (h : pos + c.wordsize * 2 ≤ obj.length) :
    ∃ d : Dyn, d.Fits c ∧ word obj pos c.wordsize = some d.tag ∧
      obj.take (pos + c.wordsize * 2) = obj.take pos ++ d.bytes c := by
  have hsize := wordsize_cases c
  have htag : ((obj.drop pos).take c.wordsize).length = c.wordsize := by
    rw [List.length_take, List.length_drop]
    omega
  have hval : ((obj.drop (pos + c.wordsize)).take c.wordsize).length = c.wordsize := by
    rw [List.length_take, List.length_drop]
    omega
  refine ⟨⟨unpack ((obj.drop pos).take c.wordsize),
    unpack ((obj.drop (pos + c.wordsize)).take c.wordsize)⟩, ?_, ?_, ?_⟩
  · constructor
    · have hlt := unpack_lt ((obj.drop pos).take c.wordsize)
      rwa [htag] at hlt
    · have hlt := unpack_lt ((obj.drop (pos + c.wordsize)).take c.wordsize)
      rwa [hval] at hlt
  · exact if_pos (by omega)
  · have hpack := pack_unpack ((obj.drop pos).take c.wordsize)
    have hpack' := pack_unpack ((obj.drop (pos + c.wordsize)).take c.wordsize)
    rw [htag] at hpack
    rw [hval] at hpack'
    rw [Dyn.bytes, hpack, hpack', List.take_add, Nat.mul_two, List.take_add, List.drop_drop]

theorem entryPos_shift (c : ElfClass) (off i : Nat) :
    entryPos c off (i + 1) = entryPos c (off + c.wordsize * 2) i := by
  rw [entryPos, entryPos, Nat.mul_add, Nat.mul_one]
  omega

/-- Behind its first entry, a list goes on. -/
theorem Complete.tail {n : Nat} (h : Complete c obj off (n + 1)) :
    Complete c obj (off + c.wordsize * 2) n where
  before := by
    intro i hi
    rw [← entryPos_shift]
    exact h.before (i + 1) (by omega)
  null := by
    rw [← entryPos_shift]
    exact h.null
  whole := by
    rw [← entryPos_shift]
    exact h.whole

/-- The bytes from the offset on, as entries. -/
theorem Complete.bytes {n : Nat} (h : Complete c obj off n) :
    ∃ dyns null v, WellFormed c dyns null ∧ dyns.length = n ∧ off ≤ obj.length ∧
      obj = obj.take off ++ sectionBytes c (dyns ++ [null]) ++ v := by
  induction n generalizing off with
  | zero =>
    have hwhole := h.whole
    rw [entryPos_succ, entryPos, Nat.mul_zero, Nat.add_zero] at hwhole
    obtain ⟨null, hfits, hword, hbytes⟩ := entry_bytes hwhole
    have hnull := h.null
    rw [entryPos, Nat.mul_zero, Nat.add_zero, hword, Option.some.injEq] at hnull
    refine ⟨[], null, obj.drop (off + c.wordsize * 2), ⟨by simp, by simp, hfits, hnull⟩, rfl,
      by omega, ?_⟩
    rw [List.nil_append, sectionBytes_cons, show sectionBytes c [] = [] from rfl, List.append_nil,
      ← hbytes, List.take_append_drop]
  | succ n ih =>
    obtain ⟨dyns, null, v, hwf, hlen, hle, hobj⟩ := ih h.tail
    obtain ⟨d, hfits, hword, hbytes⟩ := entry_bytes hle
    obtain ⟨tag, htag, hne⟩ := h.before 0 (by omega)
    rw [entryPos, Nat.mul_zero, Nat.add_zero, hword, Option.some.injEq] at htag
    refine ⟨d :: dyns, null, v, ⟨?_, ?_, hwf.nullFits, hwf.nullTag⟩, ?_, by omega, ?_⟩
    · rw [List.forall_mem_cons]
      exact ⟨hfits, hwf.fits⟩
    · rw [List.forall_mem_cons]
      exact ⟨htag ▸ hne, hwf.nonzero⟩
    · rw [List.length_cons, hlen]
    · rw [List.cons_append, sectionBytes_cons, ← List.append_assoc, ← hbytes]
      exact hobj

/-! What is left of the file. -/

theorem patch_patch (d : Dyn) : d.patch.patch = d.patch := by
  unfold Dyn.patch
  split
  · rename_i htag
    rw [if_neg]
    rintro (h | h)
    · change 0x42420000 + d.tag = dtInit at h
      rw [dtInit] at h
      omega
    · change 0x42420000 + d.tag = dtInitArray at h
      rw [dtInitArray] at h
      omega
  · rfl

theorem word_middle (u v : Bytes) {n : Nat} (hn : n < 256 ^ c.wordsize) :
    word (u ++ pack n c.wordsize ++ v) u.length c.wordsize = some n := by
  have hlen : u.length + c.wordsize ≤ (u ++ pack n c.wordsize ++ v).length := by
    simp only [List.length_append, pack_length]
    omega
  rw [word, if_pos hlen, List.append_assoc, List.drop_left, List.take_left' (pack_length _ _),
    unpack_pack_of_lt hn]

/-- The tag of an entry, read from the bytes. -/
theorem word_section (u v : Bytes) {dyns : List Dyn} (hfits : ∀ d ∈ dyns, d.Fits c) {i : Nat}
    {d : Dyn} (hi : dyns[i]? = some d) :
    word (u ++ sectionBytes c dyns ++ v) (entryPos c u.length i) c.wordsize = some d.tag := by
  obtain ⟨hlt, hd⟩ := List.getElem?_eq_some_iff.mp hi
  have hsplit : dyns = dyns.take i ++ d :: dyns.drop (i + 1) := by
    rw [← hd, List.getElem_cons_drop, List.take_append_drop]
  have hpos : (u ++ sectionBytes c (dyns.take i)).length = entryPos c u.length i := by
    rw [List.length_append, sectionBytes_length, List.length_take, Nat.min_eq_left (by omega),
      entryPos]
  have hword := @word_middle c (u ++ sectionBytes c (dyns.take i))
    (pack d.val c.wordsize ++ (sectionBytes c (dyns.drop (i + 1)) ++ v)) d.tag
    (hfits d (List.mem_of_getElem? hi)).1
  have hbytes : u ++ sectionBytes c (dyns.take i) ++ pack d.tag c.wordsize ++
        (pack d.val c.wordsize ++ (sectionBytes c (dyns.drop (i + 1)) ++ v)) =
      u ++ sectionBytes c dyns ++ v := by
    conv_rhs => rw [hsplit]
    simp only [sectionBytes_append, sectionBytes_cons, Dyn.bytes, List.append_assoc]
  rw [hbytes, hpos] at hword
  exact hword

/-- A byte of the patched list that differs lies in the tag of a marked entry. -/
theorem frame_section (w : Bytes) {dyns : List Dyn} {k : Nat}
    (h : (sectionBytes c (dyns.map Dyn.patch) ++ w)[k]? ≠ (sectionBytes c dyns ++ w)[k]?) :
    ∃ i d, dyns[i]? = some d ∧ Marked d.tag ∧ c.wordsize * 2 * i ≤ k ∧
      k < c.wordsize * 2 * i + c.wordsize := by
  induction dyns generalizing k with
  | nil => exact absurd rfl h
  | cons d dyns ih =>
    rw [List.map_cons, sectionBytes_cons, sectionBytes_cons, List.append_assoc,
      List.append_assoc] at h
    have hlen := Dyn.bytes_length c d
    have hlen' := Dyn.bytes_length c d.patch
    by_cases hk : k < c.wordsize * 2
    · rw [List.getElem?_append_left (by omega), List.getElem?_append_left (by omega)] at h
      refine ⟨0, d, rfl, ?_, by omega, ?_⟩
      · by_contra hmark
        have hsame : d.patch = d := if_neg hmark
        rw [hsame] at h
        exact h rfl
      · by_contra hge
        have hval : d.patch.val = d.val := by
          unfold Dyn.patch
          split
          · rfl
          · rfl
        rw [Dyn.bytes, Dyn.bytes, hval, List.getElem?_append_right (by rw [pack_length]; omega),
          List.getElem?_append_right (by rw [pack_length]; omega), pack_length, pack_length] at h
        exact h rfl
    · have hrest : ∀ x : Dyn, ∀ rest : Bytes,
          (x.bytes c ++ rest)[k]? = rest[k - c.wordsize * 2]? := by
        intro x rest
        have hx := Dyn.bytes_length c x
        rw [List.getElem?_append_right (by omega), hx]
      rw [hrest, hrest] at h
      obtain ⟨i, d', hd', hmark, hle, hlt⟩ := ih h
      refine ⟨i + 1, d', hd', hmark, ?_, ?_⟩
      · rw [Nat.mul_add, Nat.mul_one]
        omega
      · rw [Nat.mul_add, Nat.mul_one]
        omega

theorem wellFormed_fits {dyns : List Dyn} {null : Dyn} (h : WellFormed c dyns null) :
    ∀ d ∈ dyns ++ [null], d.Fits c := by
  intro d hd
  rcases List.mem_append.mp hd with hd | hd
  · exact h.fits d hd
  · rw [List.mem_singleton.mp hd]
    exact h.nullFits

/-- The tags of a section are read back. -/
theorem wellFormed_tag {dyns : List Dyn} {null : Dyn} (h : WellFormed c dyns null)
    (u v : Bytes) {i : Nat} (hi : i < dyns.length) :
    ∃ d, dyns[i]? = some d ∧
      word (u ++ sectionBytes c (dyns ++ [null]) ++ v) (entryPos c u.length i) c.wordsize =
        some d.tag := by
  refine ⟨dyns[i], List.getElem?_eq_getElem hi, ?_⟩
  apply word_section u v (wellFormed_fits h)
  rw [List.getElem?_append_left hi, List.getElem?_eq_getElem hi]

theorem Complete.rewritten {n : Nat} (h : Complete c obj off n) :
    ∃ out, patchInit obj off c.wordsize = some out ∧ Rewritten c obj off n out := by
  obtain ⟨dyns, null, v, hwf, hn, hle, hobj⟩ := h.bytes
  have hu : (obj.take off).length = off := by
    rw [List.length_take, Nat.min_eq_left hle]
  generalize obj.take off = u at hobj hu
  subst hobj hu hn
  have hpatched := wellFormed_patch hwf
  refine ⟨u ++ sectionBytes c (dyns.map Dyn.patch ++ [null]) ++ v, patchInit_section hwf u v, ?_⟩
  constructor
  · simp only [List.length_append, sectionBytes_append, sectionBytes_length, List.length_map]
  · intro k hk
    have hpast : u.length ≤ k := by
      by_contra hlt
      rw [List.append_assoc, List.append_assoc, List.getElem?_append_left (by omega),
        List.getElem?_append_left (by omega)] at hk
      exact hk rfl
    rw [List.append_assoc, List.append_assoc, List.getElem?_append_right hpast,
      List.getElem?_append_right hpast, sectionBytes_append, sectionBytes_append,
      List.append_assoc, List.append_assoc] at hk
    obtain ⟨i, d, hd, hmark, hge, hlt⟩ := frame_section _ hk
    have hi : i < dyns.length := (List.getElem?_eq_some_iff.mp hd).1
    obtain ⟨d', hd', hword⟩ := wellFormed_tag hwf u v hi
    obtain rfl := Option.some.inj (hd.symm.trans hd')
    refine ⟨i, hi, d.tag, hword, hmark, ?_, ?_⟩
    · rw [entryPos]
      omega
    · rw [entryPos]
      omega
  · intro i hi tag hold hmark
    obtain ⟨d, hd, hword⟩ := wellFormed_tag hwf u v hi
    obtain rfl : d.tag = tag := Option.some.inj (hword.symm.trans hold)
    have hnew : d.patch = ⟨0x42420000 + d.tag, d.val⟩ := if_pos hmark
    have hout := @word_section c u v (dyns.map Dyn.patch ++ [null])
      (wellFormed_fits hpatched) i d.patch
      (by rw [List.getElem?_append_left (by rwa [List.length_map]), List.getElem?_map, hd]; rfl)
    rw [hout, hnew]
  · have htwice : (dyns.map Dyn.patch).map Dyn.patch = dyns.map Dyn.patch := by
      rw [List.map_map]
      exact List.map_congr_left fun d _ => patch_patch d
    have hagain := patchInit_section hpatched u v
    rw [htwice] at hagain
    exact hagain

theorem Ended.unique {n m : Nat} (hn : Ended c obj off n) (hm : Ended c obj off m) : n = m := by
  have hle : ∀ {a b : Nat}, Ended c obj off a → Ended c obj off b → ¬ a < b := by
    intro a b ha hb hlt
    obtain ⟨tag, htag, hne⟩ := hb.before a hlt
    exact hne (Option.some.inj (htag.symm.trans ha.null))
  have hnm := hle hn hm
  have hmn := hle hm hn
  omega

/-- patch_init is safe unless a zero tag stands at the end of a 64-bit file with half of its
value. -/
theorem patches_safely_iff (c : ElfClass) (obj : Bytes) (off : Nat) :
    PatchesSafely c obj off ↔ ¬ CutShort c obj off := by
  constructor
  · rintro h ⟨hc, n, hended, hlen⟩
    have hnone : ∀ m, ¬ Complete c obj off m := by
      intro m hm
      have hwhole := hm.whole
      rw [← hended.unique hm.toEnded, entryPos_succ, hlen, hc] at hwhole
      change _ + 16 ≤ _ + 12 at hwhole
      omega
    obtain ⟨out, hout⟩ := patchInit_of_ended hended (Or.inr ⟨hc, hlen⟩)
    rw [h.raises hnone] at hout
    cases hout
  · intro h
    refine ⟨⟨obj.length, Nat.le_refl _, ?_⟩, ?_, ?_, fun n hn => hn.rewritten⟩
    · intro e he
      have hwhole := (readEntry_eq_some he).1
      have hsize := wordsize_cases c
      have hle : obj.length ≤ c.wordsize * 2 * obj.length :=
        Nat.le_mul_of_pos_left obj.length (by omega)
      rw [Readable, entryPos] at hwhole
      generalize c.wordsize * 2 * obj.length = read at hwhole hle
      omega
    · intro fuel hfuel
      apply readEntries_enough
      · omega
      · omega
      · omega
      · omega
    · intro hnone
      rw [patchInit, readDynamicSection]
      cases hread : readEntries obj off c.wordsize (obj.length + 1) 0 with
      | none => rfl
      | some entries =>
        obtain ⟨n, -, hbefore, hnull, hlast⟩ := readEntries_ended hread
        have hended : Ended c obj off n := ⟨fun i hi => hbefore i (Nat.zero_le i) hi, hnull⟩
        rcases hlast with hwhole | ⟨hc, hcut⟩
        · exact absurd ⟨hended, by rwa [entryPos_succ]⟩ (hnone n)
        · exact absurd ⟨hc, n, hended, hcut⟩ h

/-- A zero tag and half of its value. -/
theorem cut_value_accepted :
    patchInit (List.replicate 12 0) 0 ElfClass.elf64.wordsize = some (List.replicate 12 0) ∧
      ∀ n, ¬ Complete .elf64 (List.replicate 12 0) 0 n := by
  refine ⟨by decide, ?_⟩
  intro n hn
  have hwhole := hn.whole
  rw [entryPos_succ, List.length_replicate] at hwhole
  change _ + 16 ≤ 12 at hwhole
  omega

end LSU.PatchSafety
