import Babelfish.Libfex.Packed

/-! `script_bin_size`, which recounts what the decoder has read. -/

namespace Babelfish.Libfex

open Bytes

/-- `WORDS(S)` -/
def wordsOf (s : UInt32) : UInt32 := (s + (4 - 1)) / 4

/-- The size of a value in bytes; the length of a string does not count its terminator. -/
def valueSize : ScriptValue → UInt32
  | .single _ => 4
  | .string s => UInt32.ofNat (s.length - 1)
  | .gpio _ _ _ => 24
  | .null => 4

/-- The loop over the entries of a section: how many there are, and the words so far. -/
def countEntries : List ScriptEntry → (c words : UInt32) → UInt32 × UInt32
  | [], c, words => (c, words)
  | e :: es, c, words => countEntries es (c + 1) (words + wordsOf (valueSize e.value))

/-- The counts of `script_bin_size`, each a `size_t`. -/
structure BinCounts where
  sections : UInt32
  entries : UInt32
  words : UInt32
  deriving DecidableEq

def countSections : List ScriptSection → BinCounts → BinCounts
  | [], n => n
  | s :: ss, n =>
    let (c, words) := countEntries s.entries 0 n.words
    if c > 0 then countSections ss ⟨n.sections + 1, n.entries + c, words⟩
    else countSections ss { n with words := words }

def scriptBinSize (script : Script) : UInt32 × UInt32 × UInt32 :=
  let n := countSections script.sections ⟨0, 0, 0⟩
  (16 + n.sections * 40 + n.entries * 40 + n.words * 4, n.sections, n.entries)

/-- The second list is the first one with empty sections added anywhere. -/
inductive WithEmpty : List ScriptSection → List ScriptSection → Prop
  | nil : WithEmpty [] []
  | keep (s : ScriptSection) {ss ss' : List ScriptSection} :
    WithEmpty ss ss' → WithEmpty (s :: ss) (s :: ss')
  | add (name : Bytes) {ss ss' : List ScriptSection} : WithEmpty ss ss' → WithEmpty ss (⟨name, []⟩ :: ss')

theorem countSections_withEmpty {ss ss' : List ScriptSection} (h : WithEmpty ss ss') (n : BinCounts) :
    countSections ss' n = countSections ss n := by
  induction h generalizing n with
  | nil => rfl
  | keep s _ ih =>
    simp only [countSections]
    split
    · exact ih _
    · exact ih _
  | add name _ ih => exact ih n

theorem scriptBinSize_withEmpty {script script' : Script}
    (h : WithEmpty script.sections script'.sections) : scriptBinSize script' = scriptBinSize script := by
  simp only [scriptBinSize, countSections_withEmpty h]

theorem wordsOf_valueSize (v : PackedValue) :
    wordsOf (valueSize v.raw.script) = UInt32.ofNat v.words := by
  have hone : wordsOf 4 = UInt32.ofNat 1 := by decide
  have hsix : wordsOf 24 = UInt32.ofNat 6 := by decide
  cases v with
  | string field dense fits =>
    have h3 : ((4 : UInt32) - 1).toNat = 3 := rfl
    have h4 : (4 : UInt32).toNat = 4 := rfl
    have hlen : (cstr field ++ [0]).length - 1 = (cstr field).length := by rw [List.length_append]; rfl
    simp only [PackedValue.raw, RawValue.script, valueSize, PackedValue.words, wordsOf, hlen]
    rw [← UInt32.toNat_inj, UInt32.toNat_div, UInt32.toNat_add, h3, h4, UInt32.toNat_ofNat',
      UInt32.toNat_ofNat']
    omega
  | word => exact hone
  | gpio => exact hsix
  | null => exact hone

theorem countEntries_packed (es : List PackedEntry) (c words : UInt32) :
    countEntries (es.map PackedEntry.script) c words =
      (c + UInt32.ofNat es.length, words + UInt32.ofNat (dataWords es)) := by
  induction es generalizing c words with
  | nil => simp [countEntries, dataWords]
  | cons e es ih =>
    have hvalue : e.script.value = e.value.raw.script := rfl
    rw [List.map_cons, countEntries, ih, hvalue, wordsOf_valueSize, dataWords_cons, List.length_cons,
      UInt32.ofNat_add, UInt32.ofNat_add, UInt32.add_assoc, UInt32.add_assoc,
      UInt32.add_comm (UInt32.ofNat es.length)]
    rfl

theorem countSections_packed (ss : List PackedSection) (n : BinCounts)
    (hlen : ∀ s ∈ ss, s.entries.length < 2 ^ 32) :
    countSections (ss.map PackedSection.script) n =
      ⟨n.sections + UInt32.ofNat ss.length,
        n.entries + UInt32.ofNat (ss.flatMap fun s => s.entries).length,
        n.words + UInt32.ofNat (dataWords (ss.flatMap fun s => s.entries))⟩ := by
  induction ss generalizing n with
  | nil => simp [countSections, dataWords]
  | cons s ss ih =>
    have hpos := List.length_pos_iff.mpr s.nonempty
    have hlt := hlen s List.mem_cons_self
    have hcount : UInt32.ofNat s.entries.length > 0 := by
      rw [gt_iff_lt, UInt32.lt_iff_toNat_lt, UInt32.toNat_ofNat', Nat.mod_eq_of_lt hlt]
      exact hpos
    have hentries : s.script.entries = s.entries.map PackedEntry.script := rfl
    have hwords : dataWords (s.entries ++ ss.flatMap fun s => s.entries) =
        dataWords s.entries + dataWords (ss.flatMap fun s => s.entries) := by
      rw [dataWords, List.map_append, List.sum_append, ← dataWords, ← dataWords]
    simp only [List.map_cons, countSections, hentries, countEntries_packed, UInt32.zero_add, if_pos hcount]
    rw [ih _ fun t ht => hlen t (List.mem_cons_of_mem _ ht), List.flatMap_cons, List.length_append,
      hwords, List.length_cons, UInt32.ofNat_add, UInt32.ofNat_add, UInt32.ofNat_add]
    simp only [UInt32.add_assoc, UInt32.add_comm (UInt32.ofNat ss.length)]
    rfl

/-- The size computation agrees with the format: for a packed image the decoder makes its script, and the
size of what it makes is that of the image, with as many sections and entries; empty sections change none
of the three. -/
theorem scriptBinSize_packed (mem : Image) (bin heapBase : UInt32) (p : Packed)
    (h : Memory.Holds mem bin p.bytes) (hsize : p.bytes.length < 2 ^ 32) :
    (Heap.Granted heapBase (sectionRequests p.script.sections) →
      ∃ base, (scriptDecompileBin mem bin ⟨[]⟩).run heapBase = some (p.script, base)) ∧
    (∀ script base, (scriptDecompileBin mem bin ⟨[]⟩).run heapBase = some (script, base) →
      (scriptBinSize script).1.toNat = p.bytes.length ∧
        (scriptBinSize script).2.1.toNat = p.sections.length ∧
        (scriptBinSize script).2.2.toNat = p.entries.length) ∧
    ∀ script script' : Script, WithEmpty script.sections script'.sections →
      scriptBinSize script' = scriptBinSize script := by
  have hall := allocates_decompileBin mem bin ⟨[]⟩
  rw [p.decoded h hsize] at hall
  refine ⟨fun hg => ⟨_, hall.granted heapBase hg⟩, fun script base hrun => ?_,
    fun _ _ hempty => scriptBinSize_withEmpty hempty⟩
  have hg : Heap.Granted heapBase (sectionRequests p.script.sections) := by
    by_contra hg
    rw [hall.failed _ hg] at hrun
    cases hrun
  rw [hall.granted _ hg] at hrun
  obtain rfl := congrArg Prod.fst (Option.some.inj hrun)
  rw [p.length_bytes] at hsize ⊢
  have hlen : ∀ s ∈ p.sections, s.entries.length < 2 ^ 32 := fun s hs => by
    have hle := p.length_entries_le hs
    omega
  have hcounts := countSections_packed p.sections ⟨0, 0, 0⟩ hlen
  have hsections : (UInt32.ofNat p.sections.length).toNat = p.sections.length := by
    rw [UInt32.toNat_ofNat']
    omega
  have hentries : (UInt32.ofNat p.entries.length).toNat = p.entries.length := by
    rw [UInt32.toNat_ofNat']
    omega
  have hwords : (UInt32.ofNat (dataWords p.entries)).toNat = dataWords p.entries := by
    rw [UInt32.toNat_ofNat']
    omega
  simp only [UInt32.zero_add] at hcounts
  simp only [scriptBinSize, List.nil_append, Packed.script, hcounts]
  refine ⟨?_, hsections, hentries⟩
  have h16 : (16 : UInt32).toNat = 16 := rfl
  have h40 : (40 : UInt32).toNat = 40 := rfl
  have h4 : (4 : UInt32).toNat = 4 := rfl
  change ((16 : UInt32) + UInt32.ofNat p.sections.length * 40 + UInt32.ofNat p.entries.length * 40 +
    UInt32.ofNat (dataWords p.entries) * 4).toNat = _
  simp only [UInt32.toNat_add, UInt32.toNat_mul, hsections, hentries, hwords, h16, h40, h4]
  omega

def mixedImage : Packed where
  version := le32 1 ++ le32 2 ++ le32 0
  version_length := rfl
  sections := [{
    name := List.replicate 32 97
    name_length := rfl
    entries := [⟨List.replicate 32 0, rfl, .word 7⟩,
      ⟨List.replicate 32 98, rfl, .string [99, 100, 101, 102, 103, 0, 7, 0] (by decide) (by decide)⟩,
      ⟨List.replicate 32 103, rfl, .gpio 1 2 3 4 5 6⟩, ⟨List.replicate 32 104, rfl, .null 9 1 (by decide)⟩]
    nonempty := List.cons_ne_nil _ _ }]

theorem length_mixedImage : mixedImage.bytes.length = 256 := by
  rw [Packed.length_bytes]
  rfl

theorem scriptBinSize_packed_mixed :
    (Heap.Granted 4096 (sectionRequests mixedImage.script.sections) →
      ∃ base, (scriptDecompileBin (Memory.ofBytes mixedImage.bytes) 0 ⟨[]⟩).run 4096 =
        some (mixedImage.script, base)) ∧
    (∀ script base, (scriptDecompileBin (Memory.ofBytes mixedImage.bytes) 0 ⟨[]⟩).run 4096 =
        some (script, base) →
      (scriptBinSize script).1.toNat = mixedImage.bytes.length ∧
        (scriptBinSize script).2.1.toNat = mixedImage.sections.length ∧
        (scriptBinSize script).2.2.toNat = mixedImage.entries.length) ∧
    ∀ script script' : Script, WithEmpty script.sections script'.sections →
      scriptBinSize script' = scriptBinSize script :=
  scriptBinSize_packed (Memory.ofBytes mixedImage.bytes) 0 4096 mixedImage
    (Memory.holds_ofBytes (by rw [length_mixedImage]; decide)) (by rw [length_mixedImage]; decide)

end Babelfish.Libfex
