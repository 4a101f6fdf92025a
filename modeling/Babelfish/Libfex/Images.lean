import Babelfish.Libfex.Decoding

/-! Which images the decoder accepts, what it reads of their strings, and that it inverts the format of
`script_bin.h`. -/

namespace Babelfish.Libfex

open Bytes

variable {mem : Image} {bin entry : UInt32}

def imageOf (bs : Bytes) : Image := fun a => bs[a.toNat]?.getD 0

theorem length_cstr_lt {bs : Bytes} (h : 0 ∈ bs) : (cstr bs).length < bs.length := by
  induction bs with
  | nil => cases h
  | cons b bs ih =>
    by_cases hb : b = 0
    · simp [cstr, hb]
    · have hmem : 0 ∈ bs := (List.mem_cons.mp h).resolve_left (Ne.symm hb)
      simpa [cstr, hb] using ih hmem

/-- The scan of a string entry stays in the field, and what is stored is the string in it, just if the
field holds a NUL. -/
theorem decompileEntry_string_iff (mem : Image) (bin entry : UInt32) (s : ScriptSection)
    (heapBase : UInt32) (htype : entryType mem entry = typeString) :
    ((∀ a ∈ (seekEnd mem (stringBytes mem entry) (entryData mem bin entry)).2,
        ∃ i < 4 * (entryWords mem entry).toNat, a = entryData mem bin entry + UInt32.ofNat i) ∧
      ∀ s' base, (decompileEntry mem bin entry s).run heapBase = some (s', base) →
        s'.entries = s.entries ++ [⟨fieldName (entryName mem entry),
          .string (cstr (stringField mem bin entry) ++ [0])⟩]) ↔
    0 ∈ stringField mem bin entry := by
  obtain ⟨hbytes, hlt⟩ := stringBytes_lt mem entry
  have hlen : (stringField mem bin entry).length = stringBytes mem entry := length_bytesAt _ _ _
  have hscan : (seekEnd mem (stringBytes mem entry) (entryData mem bin entry)).2 =
      (List.range ((cstr (stringField mem bin entry)).length + 1)).map fun i =>
        entryData mem bin entry + UInt32.ofNat i := by
    rw [seekEnd_eq]
    rfl
  rw [hscan, ← hbytes]
  constructor
  · rintro ⟨hin, -⟩
    by_contra hno
    rw [cstr_eq_self hno, hlen] at hin
    obtain ⟨i, hi, he⟩ := hin _ (List.mem_map_of_mem List.self_mem_range_succ)
    have hnat := congrArg UInt32.toNat ((UInt32.add_right_inj _).mp he)
    rw [UInt32.toNat_ofNat', UInt32.toNat_ofNat'] at hnat
    omega
  · intro hmem
    have hk := length_cstr_lt hmem
    refine ⟨fun a ha => ?_, fun s' base hrun => ?_⟩
    · obtain ⟨i, hi, rfl⟩ := List.mem_map.mp ha
      rw [List.mem_range] at hi
      exact ⟨i, by omega, rfl⟩
    · have hall := allocates_entry mem bin entry s
      by_cases hg : Heap.Granted heapBase (entryRequests (decodedEntry mem bin entry).toList)
      · rw [hall.granted _ hg] at hrun
        obtain rfl := congrArg Prod.fst (Option.some.inj hrun)
        have hne : typeString ≠ typeSingleWord := by decide
        simp [decodedEntry, decodedValue, htype, hne]
      · rw [hall.failed _ hg] at hrun
        cases hrun

def stringRow (word : Bytes) : Bytes :=
  List.replicate 32 0 ++ le32 10 ++ le32 0x00020001 ++ word

def fullImage : Image := imageOf (stringRow [97, 98, 99, 100])

theorem decompileEntry_string_iff_full :
    ((∀ a ∈ (seekEnd fullImage (stringBytes fullImage 0) (entryData fullImage 0 0)).2,
        ∃ i < 4 * (entryWords fullImage 0).toNat, a = entryData fullImage 0 0 + UInt32.ofNat i) ∧
      ∀ s' base, (decompileEntry fullImage 0 0 ⟨[], []⟩).run 4096 = some (s', base) →
        s'.entries = [] ++ [⟨fieldName (entryName fullImage 0),
          .string (cstr (stringField fullImage 0 0) ++ [0])⟩]) ↔
    0 ∈ stringField fullImage 0 0 :=
  decompileEntry_string_iff fullImage 0 0 ⟨[], []⟩ 4096 (by decide)

/-- The byte behind a field of four bytes without a NUL is examined. -/
theorem fullImage_beyond :
    entryType fullImage 0 = typeString ∧ entryWords fullImage 0 = 1 ∧ entryData fullImage 0 0 = 40 ∧
      44 ∈ (seekEnd fullImage (stringBytes fullImage 0) (entryData fullImage 0 0)).2 := by
  decide

/-- The type is one of the four, and what the decoder asserts for it holds. -/
def EntryOk (mem : Image) (bin entry : UInt32) : Prop :=
  let port := wordAt mem (entryData mem bin entry)
  entryType mem entry = typeSingleWord ∧ entryWords mem entry = 1 ∨
  entryType mem entry = typeString ∨
  entryType mem entry = typeGpio ∧ entryWords mem entry = 6 ∧ 0 < port ∧ port ≤ gpioBankMax ∨
  entryType mem entry = typeNull

def ImageOk (mem : Image) (bin : UInt32) : Prop :=
  ∀ i < sectionCount mem bin, ∀ j < (sectionLength mem (headSection bin i)).toNat,
    EntryOk mem bin (sectionEntry mem bin (headSection bin i) j)

theorem EntryOk.decoded (h : EntryOk mem bin entry) : ∃ e, decodedEntry mem bin entry = some e := by
  have hvalue : ∃ v, decodedValue mem bin entry = some v := by
    unfold decodedValue
    dsimp only
    split
    · exact ⟨_, rfl⟩
    · split
      · exact ⟨_, rfl⟩
      · split
        · exact ⟨_, rfl⟩
        · split
          · exact ⟨_, rfl⟩
          · rename_i h₁ h₂ h₃ h₄
            obtain h | h | h | h := h
            · exact absurd h.1 h₁
            · exact absurd h h₂
            · exact absurd h.1 h₃
            · exact absurd h h₄
  obtain ⟨v, hv⟩ := hvalue
  exact ⟨_, by rw [decodedEntry, hv, Option.map_some]⟩

theorem length_decodedEntries {n : Nat}
    (h : ∀ j < n, ∃ e, decodedEntry mem bin (entry + 40 * UInt32.ofNat j) = some e) :
    (decodedEntries mem bin entry n).length = n := by
  unfold decodedEntries
  have hmap : ∀ j ∈ List.range n,
      (decodedEntry mem bin (entry + 40 * UInt32.ofNat j)).isSome = true := fun j hj => by
    obtain ⟨e, he⟩ := h j (List.mem_range.mp hj)
    rw [he]
    rfl
  rw [List.length_filterMap_eq_countP, List.countP_eq_length.mpr hmap, List.length_range]

/-- The decoder answers 1 only for images that it can represent, with an entry for each of theirs, just
if every entry is of a supported type and meets its condition, or a request for memory fails. -/
theorem scriptDecompileBin_accepts_iff (mem : Image) (bin heapBase : UInt32) :
    ((∀ script base, (scriptDecompileBin mem bin ⟨[]⟩).run heapBase = some (script, base) →
        ImageOk mem bin ∧ script.sections.map (fun s => s.entries.length) =
          (List.range (sectionCount mem bin)).map fun i =>
            (sectionLength mem (headSection bin i)).toNat) ∧
      (¬ImageOk mem bin → (scriptDecompileBin mem bin ⟨[]⟩).run heapBase = none)) ↔
    ImageOk mem bin ∨ ¬Heap.Granted heapBase (sectionRequests (decodedSections mem bin)) := by
  have hall := allocates_decompileBin mem bin ⟨[]⟩
  constructor
  · rintro ⟨haccept, -⟩
    by_contra hno
    obtain ⟨hbad, hg⟩ := not_or.mp hno
    exact hbad (haccept _ _ (hall.granted _ (not_not.mp hg))).1
  · intro h
    refine ⟨fun script base hrun => ?_, fun hbad => hall.failed _ (h.resolve_left hbad)⟩
    have hg : Heap.Granted heapBase (sectionRequests (decodedSections mem bin)) := by
      by_contra hg
      rw [hall.failed _ hg] at hrun
      cases hrun
    have hok := h.resolve_right (not_not.mpr hg)
    rw [hall.granted _ hg] at hrun
    obtain rfl := congrArg Prod.fst (Option.some.inj hrun)
    refine ⟨hok, ?_⟩
    rw [List.nil_append, decodedSections, List.map_map]
    refine List.map_congr_left fun i hi => length_decodedEntries fun j hj => ?_
    exact (hok i (List.mem_range.mp hi) j hj).decoded

def multiImage : Image :=
  imageOf (le32 1 ++ le32 0 ++ le32 0 ++ le32 0 ++ List.replicate 32 97 ++ le32 1 ++ le32 14 ++
    List.replicate 32 98 ++ le32 0 ++ le32 0x00030001)

/-- It is accepted, and its entry is missing. -/
theorem multiImage_accepted :
    (scriptDecompileBin multiImage 0 ⟨[]⟩).run 4096 = some (⟨[⟨List.replicate 31 97, []⟩]⟩, 4144) ∧
      ¬ImageOk multiImage 0 := by
  refine ⟨by decide, fun h => ?_⟩
  exact absurd (h 0 (by decide) 0 (by decide)) (by unfold EntryOk; decide)

inductive RawValue
  | word (v : UInt32)
  | string (s : Bytes)
  | gpio (port portNum mulSel pull drvLevel data : UInt32)
  | null

structure RawEntry where
  name : Bytes
  value : RawValue

structure RawSection where
  name : Bytes
  entries : List RawEntry

def RawValue.script : RawValue → ScriptValue
  | .word v => .single v
  | .string s => .string (s ++ [0])
  | .gpio port portNum mulSel pull drvLevel data => .gpio port portNum #v[mulSel, pull, drvLevel, data]
  | .null => .null

/-- The name up to its first NUL, and of 31 bytes at most. -/
def RawEntry.script (e : RawEntry) : ScriptEntry := ⟨(cstr e.name).take 31, e.value.script⟩

def RawSection.script (s : RawSection) : ScriptSection :=
  ⟨(cstr s.name).take 31, s.entries.map RawEntry.script⟩

def pattern (type : UInt32) (words : Nat) : UInt32 := UInt32.ofNat (type.toNat * 65536 + words)

def RawValue.LaidOut (mem : Image) (data pat : UInt32) : RawValue → Prop
  | .word v => pat = pattern typeSingleWord 1 ∧ wordAt mem data = v
  | .string s => 0 ∉ s ∧ ∃ words < 65536, s.length ≤ 4 * words ∧ pat = pattern typeString words ∧
      bytesAt mem data (4 * words) = s ++ List.replicate (4 * words - s.length) 0
  | .gpio port portNum mulSel pull drvLevel val => (1 ≤ port ∧ port ≤ gpioBankMax) ∧
      pat = pattern typeGpio 6 ∧ wordAt mem data = port ∧ wordAt mem (data + 4) = portNum ∧
      wordAt mem (data + 8) = mulSel ∧ wordAt mem (data + 12) = pull ∧
      wordAt mem (data + 16) = drvLevel ∧ wordAt mem (data + 20) = val
  | .null => ∃ words < 65536, pat = pattern typeNull words

def RawEntry.LaidOut (mem : Image) (bin entry : UInt32) (e : RawEntry) : Prop :=
  bytesAt mem entry 32 = e.name ∧ ∃ offset : UInt32, wordAt mem (entry + 32) = offset ∧
    e.value.LaidOut mem (ptr bin offset) (wordAt mem (entry + 36))

def RawSection.LaidOut (mem : Image) (bin sec : UInt32) (s : RawSection) : Prop :=
  bytesAt mem sec 32 = s.name ∧ s.entries.length < 2 ^ 31 ∧
    wordAt mem (sec + 32) = UInt32.ofNat s.entries.length ∧
    ∃ offset : UInt32, wordAt mem (sec + 36) = offset ∧
      ∀ (j : Nat) (e : RawEntry), s.entries[j]? = some e →
        e.LaidOut mem bin (ptr bin offset + 40 * UInt32.ofNat j)

/-- The image lays the sections out, wherever it has their tables and the data. -/
def LaidOut (mem : Image) (bin : UInt32) (sections : List RawSection) : Prop :=
  sections.length < 2 ^ 31 ∧ wordAt mem bin = UInt32.ofNat sections.length ∧
    ∀ (i : Nat) (s : RawSection), sections[i]? = some s →
      s.LaidOut mem bin (bin + 16 + 40 * UInt32.ofNat i)

theorem pattern_type {type : UInt32} {words : Nat} (ht : type.toNat < 65536) (hw : words < 65536) :
    pattern type words >>> 16 &&& 0xffff = type := by
  have hp : (pattern type words).toNat = type.toNat * 65536 + words := by
    rw [pattern, UInt32.toNat_ofNat']
    omega
  have hmask : (0xffff : UInt32).toNat = 2 ^ 16 - 1 := rfl
  have hshift : (pattern type words >>> 16).toNat = (pattern type words).toNat / 2 ^ 16 := by
    rw [UInt32.toNat_shiftRight, Nat.shiftRight_eq_div_pow]
    rfl
  rw [← UInt32.toNat_inj, UInt32.toNat_and, hmask, Nat.and_two_pow_sub_one_eq_mod, hshift, hp]
  omega

theorem pattern_words (type : UInt32) {words : Nat} (hw : words < 65536) :
    (pattern type words &&& 0xffff).toNat = words := by
  have hmask : (0xffff : UInt32).toNat = 2 ^ 16 - 1 := rfl
  rw [UInt32.toNat_and, hmask, Nat.and_two_pow_sub_one_eq_mod, pattern, UInt32.toNat_ofNat']
  omega

theorem cstr_padded {s : Bytes} (hs : 0 ∉ s) (k : Nat) : cstr (s ++ List.replicate k 0) = s := by
  cases k with
  | zero => rw [List.replicate_zero, List.append_nil, cstr_eq_self hs]
  | succ k => exact cstr_append hs _

/-- The value is what the words at `data` are read as: a pin may have any port, and anything may stand
behind the end of a string. -/
def RawValue.Stored (mem : Image) (data pat : UInt32) : RawValue → Prop
  | .string s => ∃ words < 65536, pat = pattern typeString words ∧ cstr (bytesAt mem data (4 * words)) = s
  | .gpio port portNum mulSel pull drvLevel val => pat = pattern typeGpio 6 ∧
      wordAt mem data = port ∧ wordAt mem (data + 4) = portNum ∧ wordAt mem (data + 8) = mulSel ∧
      wordAt mem (data + 12) = pull ∧ wordAt mem (data + 16) = drvLevel ∧ wordAt mem (data + 20) = val
  | v => v.LaidOut mem data pat

theorem RawValue.LaidOut.stored {data pat : UInt32} {v : RawValue} (h : v.LaidOut mem data pat) :
    v.Stored mem data pat := by
  cases v with
  | gpio => exact h.2
  | string s =>
    obtain ⟨hs, words, hw, -, hp, hfield⟩ := h
    exact ⟨words, hw, hp, by rw [hfield, cstr_padded hs]⟩
  | word => exact h
  | null => exact h

theorem RawValue.Stored.decoded {v : RawValue}
    (h : v.Stored mem (entryData mem bin entry) (wordAt mem (entry + 36))) :
    decodedValue mem bin entry = some v.script := by
  have htype : ∀ (type : UInt32) (words : Nat), type.toNat < 65536 → words < 65536 →
      wordAt mem (entry + 36) = pattern type words → entryType mem entry = type :=
    fun type words ht hw hp => by rw [entryType, hp, pattern_type ht hw]
  have h₁ : typeString ≠ typeSingleWord := by decide
  have h₂ : typeGpio ≠ typeSingleWord ∧ typeGpio ≠ typeString := by decide
  have h₃ : typeNull ≠ typeSingleWord ∧ typeNull ≠ typeString ∧ typeNull ≠ typeGpio := by decide
  have hlt : typeSingleWord.toNat < 65536 ∧ typeString.toNat < 65536 ∧ typeGpio.toNat < 65536 ∧
      typeNull.toNat < 65536 := by decide
  obtain v | s | ⟨port, portNum, mulSel, pull, drvLevel, data⟩ | _ := v
  · obtain ⟨hp, hv⟩ := h
    have ht := htype typeSingleWord 1 hlt.1 (by omega) hp
    simp only [decodedValue, ht, if_true, hv, RawValue.script]
  · obtain ⟨words, hw, hp, hfield⟩ := h
    have ht := htype typeString words hlt.2.1 hw hp
    have hwords : (entryWords mem entry).toNat = words := by
      rw [entryWords, hp]
      exact pattern_words _ hw
    have hstr : cstr (stringField mem bin entry) = s := by
      rw [stringField, (stringBytes_lt mem entry).1, hwords, hfield]
    simp only [decodedValue, ht, h₁, if_false, if_true, hstr, RawValue.script]
  · obtain ⟨hp, hw₀, hw₁, hw₂, hw₃, hw₄, hw₅⟩ := h
    have ht := htype typeGpio 6 hlt.2.2.1 (by omega) hp
    simp only [decodedValue, ht, h₂, if_false, if_true, hw₀, hw₁, hw₂, hw₃, hw₄, hw₅,
      RawValue.script]
  · obtain ⟨words, hw, hp⟩ := h
    have ht := htype typeNull words hlt.2.2.2 hw hp
    simp only [decodedValue, ht, h₃, if_false, if_true, RawValue.script]

theorem RawEntry.LaidOut.decoded {e : RawEntry} (h : e.LaidOut mem bin entry) :
    decodedEntry mem bin entry = some e.script := by
  obtain ⟨hname, offset, hoff, hvalue⟩ := h
  have hdata : entryData mem bin entry = ptr bin offset := by rw [entryData, hoff]
  have hval : decodedValue mem bin entry = some e.value.script :=
    RawValue.Stored.decoded (hdata ▸ hvalue.stored)
  rw [decodedEntry, hval, Option.map_some, RawEntry.script, ← hname]
  rfl

theorem decodedEntries_laidOut {entries : List RawEntry}
    (h : ∀ (j : Nat) (e : RawEntry), entries[j]? = some e →
      e.LaidOut mem bin (entry + 40 * UInt32.ofNat j)) :
    decodedEntries mem bin entry entries.length = entries.map RawEntry.script := by
  have hrows : (List.range entries.length).map
      (fun j => decodedEntry mem bin (entry + 40 * UInt32.ofNat j)) =
      entries.map fun e => some e.script := by
    refine List.ext_getElem (by simp) fun j hj hj' => ?_
    rw [List.getElem_map, List.getElem_range, List.getElem_map]
    rw [List.length_map] at hj'
    exact (h j entries[j] (List.getElem?_eq_getElem hj')).decoded
  have hid := congrArg (List.filterMap id) hrows
  rw [List.filterMap_map, List.filterMap_map] at hid
  exact hid.trans (congrFun (List.filterMap_eq_map ..) entries)

theorem RawSection.LaidOut.decoded {sec : UInt32} {s : RawSection} (h : s.LaidOut mem bin sec) :
    decodedSection mem bin sec = s.script := by
  obtain ⟨hname, hlen, hcount, offset, hoff, hentries⟩ := h
  have hnat : (sectionLength mem sec).toNat = s.entries.length := by
    rw [sectionLength, hcount, UInt32.toNat_ofNat']
    omega
  have hrows := decodedEntries_laidOut hentries
  rw [decodedSection, hnat, sectionOffset, hoff, hrows, RawSection.script, ← hname]
  rfl

theorem sectionCount_of_lt {n : Nat} (hn : n < 2 ^ 31) (h : wordAt mem bin = UInt32.ofNat n) :
    sectionCount mem bin = n := by
  have hnat : (headSections mem bin).toNat = n := by
    rw [headSections, h, UInt32.toNat_ofNat']
    omega
  rw [sectionCount, hnat]
  exact if_pos hn

theorem LaidOut.decoded {sections : List RawSection} (h : LaidOut mem bin sections) :
    decodedSections mem bin = sections.map RawSection.script := by
  obtain ⟨hlen, hcount, hsections⟩ := h
  rw [decodedSections, sectionCount_of_lt hlen hcount]
  refine List.ext_getElem (by simp) fun i hi hi' => ?_
  rw [List.getElem_map, List.getElem_range, List.getElem_map]
  rw [List.length_map] at hi'
  exact (hsections i sections[i] (List.getElem?_eq_getElem hi')).decoded

/-- The decoder inverts the format: from an image of some sections it makes just these, when every
request for memory is granted. -/
theorem scriptDecompileBin_laidOut {mem : Image} {bin heapBase : UInt32} {sections : List RawSection}
    (h : LaidOut mem bin sections)
    (hg : Heap.Granted heapBase (sectionRequests (sections.map RawSection.script))) :
    ∃ base, (scriptDecompileBin mem bin ⟨[]⟩).run heapBase =
      some (⟨sections.map RawSection.script⟩, base) := by
  have hall := allocates_decompileBin mem bin ⟨[]⟩
  rw [h.decoded] at hall
  exact ⟨_, hall.granted heapBase hg⟩

def rawSections : List RawSection :=
  [⟨List.replicate 32 97, [⟨List.replicate 32 0, .word 7⟩,
    ⟨98 :: List.replicate 31 0, .string [99, 100, 101, 102]⟩,
    ⟨List.replicate 32 103, .gpio 1 2 3 4 5 6⟩, ⟨List.replicate 32 104, .null⟩]⟩]

def rawImage : Image :=
  imageOf (le32 1 ++ le32 0 ++ le32 0 ++ le32 0 ++ List.replicate 32 97 ++ le32 4 ++ le32 14 ++
    List.replicate 32 0 ++ le32 54 ++ le32 0x00010001 ++
    (98 :: List.replicate 31 0) ++ le32 55 ++ le32 0x00020001 ++
    List.replicate 32 103 ++ le32 56 ++ le32 0x00040006 ++
    List.replicate 32 104 ++ le32 0 ++ le32 0x00050000 ++
    le32 7 ++ [99, 100, 101, 102] ++ le32 1 ++ le32 2 ++ le32 3 ++ le32 4 ++ le32 5 ++ le32 6)

theorem rawImage_laidOut : LaidOut rawImage 0 rawSections := by
  refine ⟨by decide, by decide, fun i s hs => ?_⟩
  obtain _ | i := i
  · cases hs
    refine ⟨by decide, by decide, by decide, 14, by decide, fun j e he => ?_⟩
    obtain _ | _ | _ | _ | j := j
    · cases he
      exact ⟨by decide, 54, by decide, by decide, by decide⟩
    · cases he
      exact ⟨by decide, 55, by decide, by decide, 1, by decide, by decide, by decide, by decide⟩
    · cases he
      exact ⟨by decide, 56, by decide, by decide, by decide, by decide, by decide, by decide, by decide,
        by decide, by decide⟩
    · cases he
      exact ⟨by decide, 0, by decide, 0, by decide, by decide⟩
    · cases he
  · cases hs

theorem scriptDecompileBin_laidOut_raw :
    ∃ base, (scriptDecompileBin rawImage 0 ⟨[]⟩).run 4096 =
      some (⟨rawSections.map RawSection.script⟩, base) :=
  scriptDecompileBin_laidOut rawImage_laidOut (by decide)

end Babelfish.Libfex
