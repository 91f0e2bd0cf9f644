import Mathlib.Data.List.Induction
import LSU.PatchInit

/-! call_constructors of dt_init-fix.c, and the loader it stands in for. Addresses and words
are numbers below `256 ^ wordsize`; `mem` is the word stored at an address. -/
namespace LSU.CallConstructors
open LSU.Words LSU.PatchInit

def dtInitArraysz : Nat := 27

/-- A link map with the bytes from `l_ld` on. -/
structure LinkMap where
  lName : String
  lAddr : Nat
  lLd : Bytes

/-- The entries from `l_ld` up to DT_NULL, read as the C structure: a tag word and a value
word. `none` when the memory ends before. -/
def loadDyns (c : ElfClass) : Nat → Bytes → Option (List Dyn)
  | 0, _ => none
  | fuel + 1, ld =>
    if ld.length < c.wordsize * 2 then
      none
    else
      let dyn : Dyn :=
        ⟨unpack (ld.take c.wordsize), unpack ((ld.drop c.wordsize).take c.wordsize)⟩
      if dyn.tag = 0 then some []
      else (loadDyns c fuel (ld.drop (c.wordsize * 2))).map (dyn :: ·)

def LinkMap.dyns (c : ElfClass) (map : LinkMap) : Option (List Dyn) :=
  loadDyns c map.lLd.length map.lLd

/-- Conversion to a C int of 32 bits. -/
def cInt (n : Nat) : Int := Int.bmod n (2 ^ 32)

def address (c : ElfClass) (lAddr ptr : Nat) : Nat := (lAddr + ptr) % 256 ^ c.wordsize

def arraySize (c : ElfClass) (val : Nat) : Int := cInt (val / c.wordsize)

/-- The local variables of the loop over the dynamic section; 0 is NULL. -/
structure Locals where
  dtInit : Nat
  dtInitArray : Nat
  dtInitArraySize : Int

def scan (c : ElfClass) (lAddr : Nat) (l : Locals) (dyn : Dyn) : Locals :=
  if dyn.tag = 0x42420000 + dtInit then
    { l with dtInit := address c lAddr dyn.val }
  else if dyn.tag = 0x42420000 + dtInitArray then
    { l with dtInitArray := address c lAddr dyn.val }
  else if dyn.tag = dtInitArraysz then
    { l with dtInitArraySize := arraySize c dyn.val }
  else
    l

/-- Which entry of an object an initialiser stands in. -/
inductive InitEntry where
  | init
  | array (i : Nat)
deriving DecidableEq

def arrayCall (c : ElfClass) (mem : Nat → Nat) (table i : Nat) : Option (InitEntry × Nat) :=
  let function := mem (address c table (i * c.wordsize))
  if function ≠ 0 ∧ function ≠ 1 then some (.array i, function) else none

/-- The calls one turn of the link map loop makes, in order. -/
def initCalls (c : ElfClass) (mem : Nat → Nat) (lAddr : Nat) (dyns : List Dyn) :
    List (InitEntry × Nat) :=
  let l := dyns.foldl (scan c lAddr) ⟨0, 0, 0⟩
  (if l.dtInit ≠ 0 then [(.init, l.dtInit)] else []) ++
    (if l.dtInitArray ≠ 0 then
      (List.range l.dtInitArraySize.toNat).filterMap (arrayCall c mem l.dtInitArray)
    else [])

/-- A call as the log names it. -/
structure Call where
  lName : String
  entry : InitEntry
  function : Nat
deriving DecidableEq

def LinkMap.calls (c : ElfClass) (mem : Nat → Nat) (map : LinkMap) (dyns : List Dyn) : List Call :=
  (initCalls c mem map.lAddr dyns).map fun call => ⟨map.lName, call.1, call.2⟩

/-- Over the link maps from the one dlinfo gives to the end of `l_next`. -/
def callConstructors (c : ElfClass) (mem : Nat → Nat) : List LinkMap → Option (List Call)
  | [] => some []
  | map :: next => do
    let dyns ← map.dyns c
    return map.calls c mem dyns ++ (← callConstructors c mem next)

theorem callConstructors_cons {c : ElfClass} {mem : Nat → Nat} {map : LinkMap} {dyns : List Dyn}
    {next : List LinkMap} {calls : List Call} (hdyns : map.dyns c = some dyns)
    (hnext : callConstructors c mem next = some calls) :
    callConstructors c mem (map :: next) = some (map.calls c mem dyns ++ calls) := by
  simp [callConstructors, hdyns, hnext]

theorem LinkMap.calls_function (c : ElfClass) (mem : Nat → Nat) (map : LinkMap) (dyns : List Dyn) :
    (map.calls c mem dyns).map Call.function =
      (initCalls c mem map.lAddr dyns).map Prod.snd := by
  simp [LinkMap.calls]

/-! The loader of the system: the last entry of a tag counts, unknown tags do not. -/
def lastVal (tag : Nat) (dyns : List Dyn) : Option Nat :=
  ((dyns.filter fun dyn => dyn.tag = tag).getLast?).map Dyn.val

def referenceInit (c : ElfClass) (lAddr : Nat) (dyns : List Dyn) : List Nat :=
  (lastVal dtInit dyns).toList.map (address c lAddr)

def referenceTable (c : ElfClass) (lAddr : Nat) (dyns : List Dyn) : Option Nat :=
  (lastVal dtInitArray dyns).map (address c lAddr)

def referenceCount (c : ElfClass) (dyns : List Dyn) : Nat :=
  (lastVal dtInitArraysz dyns).getD 0 / c.wordsize

def referenceArray (c : ElfClass) (mem : Nat → Nat) (lAddr : Nat) (dyns : List Dyn) : List Nat :=
  match referenceTable c lAddr dyns with
  | some table =>
    ((List.range (referenceCount c dyns)).map fun i =>
      mem (address c table (i * c.wordsize))).filter fun function => function ≠ 0 ∧ function ≠ 1
  | none => []

def referenceLoader (c : ElfClass) (mem : Nat → Nat) (lAddr : Nat) (dyns : List Dyn) : List Nat :=
  referenceInit c lAddr dyns ++ referenceArray c mem lAddr dyns

theorem lastVal_concat (tag : Nat) (dyns : List Dyn) (d : Dyn) :
    lastVal tag (dyns ++ [d]) = if d.tag = tag then some d.val else lastVal tag dyns := by
  by_cases h : d.tag = tag <;> simp [lastVal, h]

/-- The marker tags are the only ones patching adds, one for each tag it takes away. -/
theorem lastVal_patch_marked (tag : Nat) (htag : tag = dtInit ∨ tag = dtInitArray)
    {dyns : List Dyn} (hmark : ∀ d ∈ dyns, d.tag ≠ 0x42420000 + tag) :
    lastVal (0x42420000 + tag) (dyns.map Dyn.patch) = lastVal tag dyns := by
  induction dyns using List.reverseRecOn with
  | nil => rfl
  | append_singleton dyns d ih =>
    have hd := hmark d (by simp)
    rw [List.map_append, List.map_singleton, lastVal_concat, lastVal_concat,
      ih fun x hx => hmark x (List.mem_append_left _ hx)]
    by_cases hp : d.tag = dtInit ∨ d.tag = dtInitArray
    · simp [Dyn.patch, hp]
    · have hne : d.tag ≠ tag := by rintro rfl; exact hp htag
      simp [Dyn.patch, hp, hd, hne]

theorem lastVal_patch_gone (tag : Nat) (htag : tag = dtInit ∨ tag = dtInitArray)
    (dyns : List Dyn) : lastVal tag (dyns.map Dyn.patch) = none := by
  have hsmall : tag < 0x42420000 := by obtain rfl | rfl := htag <;> decide
  induction dyns using List.reverseRecOn with
  | nil => rfl
  | append_singleton dyns d ih =>
    rw [List.map_append, List.map_singleton, lastVal_concat, ih]
    by_cases hp : d.tag = dtInit ∨ d.tag = dtInitArray
    · have hne : 0x42420000 + d.tag ≠ tag := by omega
      simp [Dyn.patch, hp, hne]
    · have hne : d.tag ≠ tag := by rintro rfl; exact hp htag
      simp [Dyn.patch, hp, hne]

theorem lastVal_patch_other {tag : Nat} (htag : tag ≠ dtInit ∧ tag ≠ dtInitArray)
    (hsmall : tag < 0x42420000) (dyns : List Dyn) :
    lastVal tag (dyns.map Dyn.patch) = lastVal tag dyns := by
  induction dyns using List.reverseRecOn with
  | nil => rfl
  | append_singleton dyns d ih =>
    rw [List.map_append, List.map_singleton, lastVal_concat, lastVal_concat, ih]
    by_cases hp : d.tag = dtInit ∨ d.tag = dtInitArray
    · have hne : 0x42420000 + d.tag ≠ tag := by omega
      have hne' : d.tag ≠ tag := by rintro rfl; exact hp.elim htag.1 htag.2
      simp [Dyn.patch, hp, hne, hne']
    · simp [Dyn.patch, hp]

/-- The loop keeps the last entry of each of its three tags. -/
theorem foldl_scan (c : ElfClass) (lAddr : Nat) (dyns : List Dyn) :
    dyns.foldl (scan c lAddr) ⟨0, 0, 0⟩ =
      ⟨((lastVal (0x42420000 + dtInit) dyns).map (address c lAddr)).getD 0,
        ((lastVal (0x42420000 + dtInitArray) dyns).map (address c lAddr)).getD 0,
        ((lastVal dtInitArraysz dyns).map (arraySize c)).getD 0⟩ := by
  induction dyns using List.reverseRecOn with
  | nil => rfl
  | append_singleton dyns d ih =>
    have hia : 0x42420000 + dtInit ≠ 0x42420000 + dtInitArray := by decide
    have his : 0x42420000 + dtInit ≠ dtInitArraysz := by decide
    have has : 0x42420000 + dtInitArray ≠ dtInitArraysz := by decide
    rw [List.foldl_append, List.foldl_cons, List.foldl_nil, ih]
    simp only [lastVal_concat]
    by_cases h1 : d.tag = 0x42420000 + dtInit
    · have h2 : d.tag ≠ 0x42420000 + dtInitArray := fun h => hia (h1.symm.trans h)
      have h3 : d.tag ≠ dtInitArraysz := fun h => his (h1.symm.trans h)
      rw [scan, if_pos h1, if_pos h1, if_neg h2, if_neg h3, Option.map_some, Option.getD_some]
    · by_cases h2 : d.tag = 0x42420000 + dtInitArray
      · have h3 : d.tag ≠ dtInitArraysz := fun h => has (h2.symm.trans h)
        rw [scan, if_neg h1, if_pos h2, if_neg h1, if_pos h2, if_neg h3, Option.map_some,
          Option.getD_some]
      · by_cases h3 : d.tag = dtInitArraysz
        · rw [scan, if_neg h1, if_neg h2, if_pos h3, if_neg h1, if_neg h2, if_pos h3,
            Option.map_some, Option.getD_some]
        · rw [scan, if_neg h1, if_neg h2, if_neg h3, if_neg h1, if_neg h2, if_neg h3]

theorem loadDyns_section {c : ElfClass} {null : Dyn} (fuel : Nat) (dyns : List Dyn) (v : Bytes)
    (hwf : WellFormed c dyns null) (hfuel : dyns.length < fuel) :
    loadDyns c fuel (sectionBytes c (dyns ++ [null]) ++ v) = some dyns := by
  have htake : ∀ (d : Dyn) (rest : Bytes), (d.bytes c ++ rest).take c.wordsize =
      pack d.tag c.wordsize := by
    intro d rest
    simp [Dyn.bytes]
  have hval : ∀ (d : Dyn) (rest : Bytes),
      ((d.bytes c ++ rest).drop c.wordsize).take c.wordsize = pack d.val c.wordsize := by
    intro d rest
    simp [Dyn.bytes]
  induction dyns generalizing fuel with
  | nil =>
    obtain ⟨fuel, rfl⟩ : ∃ n, fuel = n + 1 := ⟨fuel - 1, by simp at hfuel; omega⟩
    have htag : unpack (pack null.tag c.wordsize) = 0 := by
      rw [unpack_pack_of_lt hwf.nullFits.1, hwf.nullTag]
    simp [loadDyns, sectionBytes, Dyn.bytes_length, htake, htag]
  | cons d dyns ih =>
    obtain ⟨fuel, rfl⟩ : ∃ n, fuel = n + 1 := ⟨fuel - 1, by simp at hfuel; omega⟩
    have hd := hwf.fits d List.mem_cons_self
    have hne := hwf.nonzero d List.mem_cons_self
    have hnext := ih fuel hwf.tail (by simp at hfuel; omega)
    have hdrop : (d.bytes c ++ (sectionBytes c (dyns ++ [null]) ++ v)).drop (c.wordsize * 2) =
        sectionBytes c (dyns ++ [null]) ++ v :=
      List.drop_left' (Dyn.bytes_length c d)
    rw [List.cons_append, sectionBytes_cons, List.append_assoc, loadDyns,
      if_neg (by simp [Dyn.bytes_length])]
    simp only [htake, hval, hdrop, hnext, unpack_pack_of_lt hd.1, unpack_pack_of_lt hd.2,
      if_neg hne, Option.map_some]

theorem LinkMap.dyns_section {c : ElfClass} {null : Dyn} {dyns : List Dyn} (lName : String)
    (lAddr : Nat) (v : Bytes) (hwf : WellFormed c dyns null) :
    (LinkMap.mk lName lAddr (sectionBytes c (dyns ++ [null]) ++ v)).dyns c = some dyns := by
  apply loadDyns_section _ dyns v hwf
  have hlen := sectionBytes_length c (dyns ++ [null])
  have hpos := c.wordsize_pos
  have hle : (dyns ++ [null]).length ≤ c.wordsize * 2 * (dyns ++ [null]).length :=
    Nat.le_mul_of_pos_left _ (by omega)
  simp only [List.length_append, List.length_singleton] at *
  omega

theorem wellFormed_patch {c : ElfClass} {dyns : List Dyn} {null : Dyn}
    (hwf : WellFormed c dyns null) : WellFormed c (dyns.map Dyn.patch) null where
  fits := by
    intro d hd
    obtain ⟨x, hx, rfl⟩ := List.mem_map.mp hd
    have hfits := hwf.fits x hx
    unfold Dyn.patch
    split
    · rename_i htag
      refine ⟨?_, hfits.2⟩
      change 0x42420000 + x.tag < _
      obtain h | h := htag <;> rw [h] <;> cases c <;> decide
    · exact hfits
  nonzero := by
    intro d hd
    obtain ⟨x, hx, rfl⟩ := List.mem_map.mp hd
    unfold Dyn.patch
    split
    · simp
    · exact hwf.nonzero x hx
  nullFits := hwf.nullFits
  nullTag := hwf.nullTag

theorem cInt_of_lt {n : Nat} (h : n < 2 ^ 31) : cInt n = n := by
  have hmod : (n : Int) % (2 ^ 32 : Nat) = n := Int.emod_eq_of_lt (by omega) (by omega)
  have hsmall : (n : Int) % (2 ^ 32 : Nat) < ((2 ^ 32 : Nat) + 1) / 2 := by omega
  exact (Int.bmod_eq_emod_of_lt hsmall).trans hmod

theorem cInt_zero : cInt 0 = 0 := by decide

theorem arrayCalls_functions (c : ElfClass) (mem : Nat → Nat) (table : Nat) (is : List Nat) :
    (is.filterMap (arrayCall c mem table)).map Prod.snd =
      (is.map fun i => mem (address c table (i * c.wordsize))).filter
        fun function => function ≠ 0 ∧ function ≠ 1 := by
  induction is with
  | nil => rfl
  | cons i is ih =>
    by_cases h : mem (address c table (i * c.wordsize)) ≠ 0 ∧
        mem (address c table (i * c.wordsize)) ≠ 1
    · simp [arrayCall, h, ih]
    · simp only [List.filterMap_cons, arrayCall, if_neg h, ih, List.map_cons, List.filter_cons,
        decide_eq_true_eq]

/-- No entry of the section carries a marker tag of its own. -/
def Unmarked (dyns : List Dyn) : Prop :=
  ∀ d ∈ dyns, d.tag ≠ 0x42420000 + dtInit ∧ d.tag ≠ 0x42420000 + dtInitArray

theorem lastVal_arraySize (c : ElfClass) (dyns : List Dyn) :
    ((lastVal dtInitArraysz dyns).map (arraySize c)).getD 0 = cInt (referenceCount c dyns) := by
  unfold referenceCount
  cases lastVal dtInitArraysz dyns with
  | none => rw [Option.map_none, Option.getD_none, Option.getD_none, Nat.zero_div, cInt_zero]
  | some size => rw [Option.map_some, Option.getD_some, Option.getD_some, arraySize]

theorem scan_patch (c : ElfClass) (lAddr : Nat) {dyns : List Dyn} (hmark : Unmarked dyns) :
    (dyns.map Dyn.patch).foldl (scan c lAddr) ⟨0, 0, 0⟩ =
      ⟨((lastVal dtInit dyns).map (address c lAddr)).getD 0,
        (referenceTable c lAddr dyns).getD 0, cInt (referenceCount c dyns)⟩ := by
  have hi : lastVal (0x42420000 + dtInit) (dyns.map Dyn.patch) = lastVal dtInit dyns :=
    lastVal_patch_marked dtInit (Or.inl rfl) fun d hd => (hmark d hd).1
  have ha : lastVal (0x42420000 + dtInitArray) (dyns.map Dyn.patch) = lastVal dtInitArray dyns :=
    lastVal_patch_marked dtInitArray (Or.inr rfl) fun d hd => (hmark d hd).2
  have hs : lastVal dtInitArraysz (dyns.map Dyn.patch) = lastVal dtInitArraysz dyns :=
    lastVal_patch_other (by decide) (by decide) dyns
  rw [foldl_scan, hi, ha, hs, lastVal_arraySize, referenceTable]

/-- The calls made for a patched section, in the words of the reference loader: the count
goes through a C int, and an address 0 counts as none. -/
theorem initCalls_patch {c : ElfClass} (mem : Nat → Nat) (lAddr : Nat) {dyns : List Dyn}
    (hmark : Unmarked dyns) :
    (initCalls c mem lAddr (dyns.map Dyn.patch)).map Prod.snd =
      (referenceInit c lAddr dyns).filter (· ≠ 0) ++
        match referenceTable c lAddr dyns with
        | some table => if table = 0 then [] else
            ((List.range (cInt (referenceCount c dyns)).toNat).map fun i =>
              mem (address c table (i * c.wordsize))).filter
                fun function => function ≠ 0 ∧ function ≠ 1
        | none => [] := by
  unfold initCalls
  rw [scan_patch c lAddr hmark]
  generalize cInt (referenceCount c dyns) = count
  rw [List.map_append, referenceInit]
  congr 1
  · cases lastVal dtInit dyns with
    | none => rfl
    | some ptr => by_cases hz : address c lAddr ptr = 0 <;> simp [hz]
  · cases referenceTable c lAddr dyns with
    | none => rfl
    | some table =>
      by_cases hz : table = 0
      · simp [hz]
      · simp only [Option.getD_some, ne_eq, hz, not_false_eq_true, if_true, if_false,
          arrayCalls_functions]

theorem referenceLoader_patch (c : ElfClass) (mem : Nat → Nat) (lAddr : Nat) (dyns : List Dyn) :
    referenceLoader c mem lAddr (dyns.map Dyn.patch) = [] := by
  simp [referenceLoader, referenceInit, referenceArray, referenceTable,
    lastVal_patch_gone dtInit (Or.inl rfl), lastVal_patch_gone dtInitArray (Or.inr rfl)]

/-- With words of four bytes no count reaches the sign bit of an int. -/
theorem referenceCount_lt {dyns : List Dyn} (hfits : ∀ d ∈ dyns, d.Fits .elf32) :
    referenceCount .elf32 dyns < 2 ^ 31 := by
  have hval : (lastVal dtInitArraysz dyns).getD 0 < 256 ^ ElfClass.elf32.wordsize := by
    cases h : (dyns.filter fun dyn => dyn.tag = dtInitArraysz).getLast? with
    | none => simp [lastVal, h, ElfClass.wordsize]
    | some d =>
      have hd := (List.mem_filter.mp (List.mem_of_getLast? h)).1
      simpa [lastVal, h] using (hfits d hd).2
  have hdiv : referenceCount .elf32 dyns = (lastVal dtInitArraysz dyns).getD 0 / 4 := rfl
  have hpow : 256 ^ ElfClass.elf32.wordsize = 2 ^ 32 := by decide
  omega

/-- call_constructors on a patched section calls what the loader of the system calls on the
original one, in the same order, but for an initialiser or a table at address 0; the count
of an 8 byte section has to fit an int. The loader itself has nothing left to call. -/
theorem constructors_match_reference (c : ElfClass) (mem : Nat → Nat) (lName : String)
    (lAddr : Nat) (dyns : List Dyn) (null : Dyn) (u v : Bytes) (hwf : WellFormed c dyns null)
    (hmark : Unmarked dyns) (hcount : c = .elf64 → referenceCount c dyns < 2 ^ 31) :
    ∃ out, patchInit (u ++ sectionBytes c (dyns ++ [null]) ++ v) u.length c.wordsize = some out ∧
      (∃ calls, callConstructors c mem [⟨lName, lAddr, out.drop u.length⟩] = some calls ∧
        calls.map Call.function = (referenceInit c lAddr dyns).filter (· ≠ 0) ++
          if referenceTable c lAddr dyns = some 0 then [] else referenceArray c mem lAddr dyns) ∧
      ∃ dyns', (LinkMap.mk lName lAddr (out.drop u.length)).dyns c = some dyns' ∧
        referenceLoader c mem lAddr dyns' = [] := by
  refine ⟨_, patchInit_section hwf u v, ?_⟩
  have hdrop : (u ++ sectionBytes c (dyns.map Dyn.patch ++ [null]) ++ v).drop u.length =
      sectionBytes c (dyns.map Dyn.patch ++ [null]) ++ v := by simp
  have hdyns := LinkMap.dyns_section lName lAddr v (wellFormed_patch hwf)
  have hlt : referenceCount c dyns < 2 ^ 31 := by
    cases c with
    | elf32 => exact referenceCount_lt hwf.fits
    | elf64 => exact hcount rfl
  rw [hdrop]
  refine ⟨⟨_, callConstructors_cons hdyns rfl, ?_⟩, _, hdyns,
    referenceLoader_patch c mem lAddr dyns⟩
  rw [List.append_nil, LinkMap.calls_function, initCalls_patch mem lAddr hmark, cInt_of_lt hlt,
    Int.toNat_natCast, referenceArray]
  cases h : referenceTable c lAddr dyns with
  | none => rfl
  | some table => by_cases hz : table = 0 <;> simp [hz]

def clientDyns : List Dyn :=
  [⟨dtInitArray, 0x3000⟩, ⟨5, 7⟩, ⟨dtInit, 0x1000⟩, ⟨dtInitArraysz, 12⟩, ⟨dtInit, 0x2000⟩]

theorem clientDyns_wellFormed : WellFormed .elf32 clientDyns ⟨0, 0⟩ := by
  constructor <;> simp [clientDyns, Dyn.Fits, ElfClass.wordsize, dtInit, dtInitArray, dtInitArraysz]

theorem constructors_match_reference_client :
    WellFormed .elf32 clientDyns ⟨0, 0⟩ ∧ Unmarked clientDyns ∧
      ∃ out, patchInit ([1, 2] ++ sectionBytes .elf32 (clientDyns ++ [⟨0, 0⟩]) ++ [3]) 2 4 =
        some out ∧
      ∃ calls, callConstructors .elf32 (· % 5) [⟨"steamclient.so", 0, out.drop 2⟩] = some calls ∧
        calls.map Call.function = [0x2000, 3, 2] := by
  have hmark : Unmarked clientDyns := by unfold Unmarked; decide
  obtain ⟨out, hout, ⟨calls, hcalls, heq⟩, -⟩ := constructors_match_reference .elf32 (· % 5)
    "steamclient.so" 0 clientDyns ⟨0, 0⟩ [1, 2] [3] clientDyns_wellFormed hmark (by decide)
  exact ⟨clientDyns_wellFormed, hmark, out, hout, calls, hcalls, heq.trans (by decide)⟩

/-- A DT_INIT that resolves to NULL is not called, and in an 8 byte section a count of `2 ^ 31`
turns negative and no entry of the array is called. -/
theorem null_initialiser_not_called :
    (∃ out, patchInit (sectionBytes .elf32 [⟨dtInit, 0⟩, ⟨0, 0⟩]) 0 4 = some out ∧
      callConstructors .elf32 (fun _ => 0) [⟨"", 0, out⟩] = some [] ∧
      referenceLoader .elf32 (fun _ => 0) 0 [⟨dtInit, 0⟩] = [0]) ∧
    ∃ out, patchInit
        (sectionBytes .elf64 [⟨dtInitArray, 0x1000⟩, ⟨dtInitArraysz, 2 ^ 34⟩, ⟨0, 0⟩]) 0 8 =
        some out ∧
      callConstructors .elf64 (fun _ => 2) [⟨"", 0, out⟩] = some [] ∧
      2 ∈ referenceLoader .elf64 (fun _ => 2) 0
        [⟨dtInitArray, 0x1000⟩, ⟨dtInitArraysz, 2 ^ 34⟩] := by
  refine ⟨⟨_, rfl, by decide, by decide⟩, _, rfl, by decide, ?_⟩
  refine List.mem_append_right _ (List.mem_filter.mpr ⟨List.mem_map.mpr ⟨0, ?_, rfl⟩, by decide⟩)
  exact List.mem_range.mpr (by decide)

end LSU.CallConstructors
