import Babelfish.Lib.Memory
import Babelfish.Libfex.Images

/-! Densely packed images: the tables, and behind them the values in the order of their entries, with no
overlap and no gap. -/

namespace Babelfish.Libfex

open Bytes

theorem toNat_wordAt (mem : Image) (a : UInt32) : (wordAt mem a).toNat =
    (mem a).toNat + (mem (a + 1)).toNat * 256 + (mem (a + 2)).toNat * 65536 +
      (mem (a + 3)).toNat * 16777216 := by
  have h₀ := (mem a).toNat_lt
  have h₁ := (mem (a + 1)).toNat_lt
  have h₂ := (mem (a + 2)).toNat_lt
  have h₃ := (mem (a + 3)).toNat_lt
  have hshift : ∀ (b : UInt8) (k : UInt32), k.toNat ≤ 24 →
      (b.toUInt32 <<< k).toNat = b.toNat <<< k.toNat := by
    intro b k hk
    have hb := b.toNat_lt
    have hpow : 2 ^ k.toNat ≤ 2 ^ 24 := Nat.pow_le_pow_right (by decide) hk
    have hmod : k.toNat % 32 = k.toNat := Nat.mod_eq_of_lt (by omega)
    rw [UInt32.toNat_shiftLeft, UInt8.toNat_toUInt32, hmod, Nat.shiftLeft_eq]
    refine Nat.mod_eq_of_lt ?_
    calc b.toNat * 2 ^ k.toNat ≤ 255 * 2 ^ 24 := Nat.mul_le_mul (by omega) hpow
      _ < 2 ^ 32 := by decide
  have h8 : (8 : UInt32).toNat = 8 := rfl
  have h16 : (16 : UInt32).toNat = 16 := rfl
  have h24 : (24 : UInt32).toNat = 24 := rfl
  rw [wordAt, UInt32.toNat_or, UInt32.toNat_or, UInt32.toNat_or, hshift _ 8 (by decide),
    hshift _ 16 (by decide), hshift _ 24 (by decide), UInt8.toNat_toUInt32, h8, h16, h24,
    Nat.or_comm, Nat.or_comm ((mem a).toNat ||| _), Nat.or_comm (mem a).toNat,
    ← Nat.shiftLeft_add_eq_or_of_lt (i := 8) h₀,
    ← Nat.shiftLeft_add_eq_or_of_lt (i := 16) (by rw [Nat.shiftLeft_eq]; omega),
    ← Nat.shiftLeft_add_eq_or_of_lt (i := 24) (by rw [Nat.shiftLeft_eq, Nat.shiftLeft_eq]; omega)]
  simp only [Nat.shiftLeft_eq]
  omega

section

variable {mem : Image} {bin a entry : UInt32}

theorem wordAt_of_holds {n : Nat} (h : Memory.Holds mem a (le32 n)) : wordAt mem a = UInt32.ofNat n := by
  have hread : [mem a, mem (a + 1), mem (a + 2), mem (a + 3)] = le32 n := by
    rw [← h]
    simp [Memory.read_succ, UInt32.add_assoc]
  simp only [le32, List.cons.injEq] at hread
  rw [← UInt32.toNat_inj, toNat_wordAt, hread.1, hread.2.1, hread.2.2.1, hread.2.2.2.1]
  simp only [UInt8.toNat_ofNat', UInt32.toNat_ofNat']
  omega

theorem wordAt_toNat {v : UInt32} (h : Memory.Holds mem a (le32 v.toNat)) : wordAt mem a = v := by
  rw [wordAt_of_holds h, UInt32.ofNat_toNat]

theorem ptr_ofNat (bin : UInt32) (offset : Nat) :
    ptr bin (UInt32.ofNat offset) = bin + UInt32.ofNat (4 * offset) := by
  have h2 : (2 : UInt32).toNat % 32 = 2 := rfl
  have hshift : UInt32.ofNat offset <<< 2 = UInt32.ofNat (4 * offset) := by
    rw [← UInt32.toNat_inj, UInt32.toNat_shiftLeft, h2, Nat.shiftLeft_eq, UInt32.toNat_ofNat',
      UInt32.toNat_ofNat']
    omega
  rw [ptr, hshift]

end

/-- A value with what the decoder does not look at: the bytes of the last word of a string behind its NUL,
and the word of a null entry with its word count. -/
inductive PackedValue
  | word (v : UInt32)
  | string (field : Bytes) (dense : field.length = 4 * (((cstr field).length + 3) / 4))
    (fits : ((cstr field).length + 3) / 4 < 65536)
  | gpio (port portNum mulSel pull drvLevel data : UInt32)
  | null (filler : UInt32) (words : Nat) (fits : words < 65536)

namespace PackedValue

def raw : PackedValue → RawValue
  | word v => .word v
  | string field _ _ => .string (cstr field)
  | gpio port portNum mulSel pull drvLevel data => .gpio port portNum mulSel pull drvLevel data
  | null _ _ _ => .null

def words : PackedValue → Nat
  | word _ => 1
  | string field _ _ => ((cstr field).length + 3) / 4
  | gpio _ _ _ _ _ _ => 6
  | null _ _ _ => 1

def pattern : PackedValue → UInt32
  | word _ => Libfex.pattern typeSingleWord 1
  | string field _ _ => Libfex.pattern typeString (((cstr field).length + 3) / 4)
  | gpio _ _ _ _ _ _ => Libfex.pattern typeGpio 6
  | null _ words _ => Libfex.pattern typeNull words

def bytes : PackedValue → Bytes
  | word v => le32 v.toNat
  | string field _ _ => field
  | gpio port portNum mulSel pull drvLevel data => le32 port.toNat ++ (le32 portNum.toNat ++
      (le32 mulSel.toNat ++ (le32 pull.toNat ++ (le32 drvLevel.toNat ++ le32 data.toNat))))
  | null filler _ _ => le32 filler.toNat

theorem length_bytes (v : PackedValue) : v.bytes.length = 4 * v.words := by
  cases v with
  | string _ dense => exact dense
  | word => rfl
  | gpio => rfl
  | null => rfl

theorem stored {mem : Image} {data : UInt32} {v : PackedValue} (h : Memory.Holds mem data v.bytes) :
    v.raw.Stored mem data v.pattern := by
  cases v with
  | word v => exact ⟨rfl, wordAt_toNat h⟩
  | string field dense fits =>
    have hfield : bytesAt mem data (4 * (((cstr field).length + 3) / 4)) = field :=
      (congrArg (bytesAt mem data) dense.symm).trans h
    exact ⟨_, fits, rfl, congrArg cstr hfield⟩
  | gpio =>
    obtain ⟨h₀, h⟩ := Memory.holds_append.mp h
    obtain ⟨h₁, h⟩ := Memory.holds_append.mp h
    obtain ⟨h₂, h⟩ := Memory.holds_append.mp h
    obtain ⟨h₃, h⟩ := Memory.holds_append.mp h
    obtain ⟨h₄, h₅⟩ := Memory.holds_append.mp h
    simp only [Memory.add_ofNat_add, length_le32] at h₂ h₃ h₄ h₅
    exact ⟨rfl, wordAt_toNat h₀, wordAt_toNat h₁, wordAt_toNat h₂, wordAt_toNat h₃, wordAt_toNat h₄,
      wordAt_toNat h₅⟩
  | null filler words fits => exact ⟨words, fits, rfl⟩

end PackedValue

structure PackedEntry where
  name : Bytes
  name_length : name.length = 32
  value : PackedValue

def PackedEntry.script (e : PackedEntry) : ScriptEntry := RawEntry.script ⟨e.name, e.value.raw⟩

def dataWords (es : List PackedEntry) : Nat := (es.map fun e => e.value.words).sum

def dataBytes (es : List PackedEntry) : Bytes := es.flatMap fun e => e.value.bytes

/-- The rows of entries whose values start `offset` words behind the head. -/
def entryRows (offset : Nat) : List PackedEntry → Bytes
  | [] => []
  | e :: es => e.name ++ (le32 offset ++ (le32 e.value.pattern.toNat ++
      entryRows (offset + e.value.words) es))

structure PackedSection where
  name : Bytes
  name_length : name.length = 32
  entries : List PackedEntry
  nonempty : entries ≠ []

def PackedSection.script (s : PackedSection) : ScriptSection :=
  ⟨(cstr s.name).take 31, s.entries.map PackedEntry.script⟩

def sectionRows (offset : Nat) : List PackedSection → Bytes
  | [] => []
  | s :: ss => s.name ++ (le32 s.entries.length ++ (le32 offset ++
      sectionRows (offset + 10 * s.entries.length) ss))

/-- A densely packed image with no empty section. -/
structure Packed where
  version : Bytes
  version_length : version.length = 12
  sections : List PackedSection

namespace Packed

def entries (p : Packed) : List PackedEntry := p.sections.flatMap fun s => s.entries

def entryOffset (p : Packed) : Nat := 4 + 10 * p.sections.length

def dataOffset (p : Packed) : Nat := p.entryOffset + 10 * p.entries.length

def bytes (p : Packed) : Bytes :=
  le32 p.sections.length ++ (p.version ++ (sectionRows p.entryOffset p.sections ++
    (entryRows p.dataOffset p.entries ++ dataBytes p.entries)))

def script (p : Packed) : Script := ⟨p.sections.map PackedSection.script⟩

end Packed

theorem length_entryRows (offset : Nat) (es : List PackedEntry) :
    (entryRows offset es).length = 40 * es.length := by
  induction es generalizing offset with
  | nil => rfl
  | cons e es ih =>
    simp only [entryRows, List.length_append, List.length_cons, length_le32, e.name_length, ih]
    omega

theorem length_sectionRows (offset : Nat) (ss : List PackedSection) :
    (sectionRows offset ss).length = 40 * ss.length := by
  induction ss generalizing offset with
  | nil => rfl
  | cons s ss ih =>
    simp only [sectionRows, List.length_append, List.length_cons, length_le32, s.name_length, ih]
    omega

theorem dataWords_cons (e : PackedEntry) (es : List PackedEntry) :
    dataWords (e :: es) = e.value.words + dataWords es := by
  rw [dataWords, List.map_cons, List.sum_cons, ← dataWords]

theorem length_dataBytes (es : List PackedEntry) : (dataBytes es).length = 4 * dataWords es := by
  induction es with
  | nil => rfl
  | cons e es ih =>
    rw [dataBytes, List.flatMap_cons, List.length_append, PackedValue.length_bytes, ← dataBytes, ih,
      dataWords_cons, Nat.mul_add]

theorem Packed.length_bytes (p : Packed) : p.bytes.length =
    16 + 40 * p.sections.length + 40 * p.entries.length + 4 * dataWords p.entries := by
  simp only [Packed.bytes, List.length_append, length_le32, p.version_length, length_sectionRows,
    length_entryRows, length_dataBytes]
  omega

theorem Packed.length_entries_le (p : Packed) {s : PackedSection} (hs : s ∈ p.sections) :
    s.entries.length ≤ p.entries.length := by
  have hmem : s.entries ∈ p.sections.map fun t => t.entries := List.mem_map_of_mem hs
  rw [Packed.entries, List.flatMap_def]
  exact (List.sublist_flatten_of_mem hmem).length_le

theorem entryRows_append (offset : Nat) (es es' : List PackedEntry) : entryRows offset (es ++ es') =
    entryRows offset es ++ entryRows (offset + dataWords es) es' := by
  induction es generalizing offset with
  | nil => rfl
  | cons e es ih =>
    rw [List.cons_append, entryRows, entryRows, ih, dataWords_cons, Nat.add_assoc]
    simp only [List.append_assoc]

section

variable {mem : Image} {bin a entry : UInt32}

theorem decoded_entryRow {offset : Nat} {e : PackedEntry} {es : List PackedEntry}
    (h : Memory.Holds mem entry (entryRows offset (e :: es)))
    (hdata : Memory.Holds mem (bin + UInt32.ofNat (4 * offset)) e.value.bytes) :
    decodedEntry mem bin entry = some e.script ∧
      Memory.Holds mem (entry + 40) (entryRows (offset + e.value.words) es) := by
  obtain ⟨hname, h⟩ := Memory.holds_append.mp h
  obtain ⟨hoffset, h⟩ := Memory.holds_append.mp h
  obtain ⟨hpattern, h⟩ := Memory.holds_append.mp h
  simp only [Memory.add_ofNat_add, e.name_length, length_le32] at hoffset hpattern h
  have hentry : entryData mem bin entry = bin + UInt32.ofNat (4 * offset) := by
    rw [← ptr_ofNat]
    exact congrArg (ptr bin) (wordAt_of_holds hoffset)
  have hpat : wordAt mem (entry + 36) = e.value.pattern := wordAt_toNat hpattern
  have hvalue : decodedValue mem bin entry = some e.value.raw.script := by
    refine RawValue.Stored.decoded ?_
    rw [hentry, hpat]
    exact PackedValue.stored hdata
  have hfield : entryName mem entry = e.name :=
    (congrArg (bytesAt mem entry) e.name_length.symm).trans hname
  exact ⟨by rw [decodedEntry, hvalue, Option.map_some, hfield]; rfl, h⟩

theorem decoded_entryRows (offset : Nat) (es : List PackedEntry) (entry : UInt32)
    (h : Memory.Holds mem entry (entryRows offset es))
    (hdata : Memory.Holds mem (bin + UInt32.ofNat (4 * offset)) (dataBytes es)) :
    decodedEntries mem bin entry es.length = es.map PackedEntry.script := by
  induction es generalizing offset entry with
  | nil => rfl
  | cons e es ih =>
    obtain ⟨hvalue, hrest⟩ := Memory.holds_append.mp hdata
    rw [PackedValue.length_bytes, Memory.add_ofNat_add, ← Nat.mul_add] at hrest
    obtain ⟨hentry, hrows⟩ := decoded_entryRow h hvalue
    rw [List.length_cons, decodedEntries_succ, hentry, ih _ _ hrows hrest]
    rfl

theorem decoded_sectionRows (offset dataOffset : Nat) (ss : List PackedSection) (a : UInt32)
    (h : Memory.Holds mem a (sectionRows offset ss))
    (hrows : Memory.Holds mem (bin + UInt32.ofNat (4 * offset))
      (entryRows dataOffset (ss.flatMap fun s => s.entries)))
    (hdata : Memory.Holds mem (bin + UInt32.ofNat (4 * dataOffset))
      (dataBytes (ss.flatMap fun s => s.entries)))
    (hlen : ∀ s ∈ ss, s.entries.length < 2 ^ 32) :
    (List.range ss.length).map (fun i => decodedSection mem bin (a + 40 * UInt32.ofNat i)) =
      ss.map PackedSection.script := by
  induction ss generalizing offset dataOffset a with
  | nil => rfl
  | cons s ss ih =>
    obtain ⟨hname, h⟩ := Memory.holds_append.mp h
    obtain ⟨hcount, h⟩ := Memory.holds_append.mp h
    obtain ⟨hoffset, h⟩ := Memory.holds_append.mp h
    simp only [Memory.add_ofNat_add, s.name_length, length_le32] at hcount hoffset h
    rw [List.flatMap_cons, entryRows_append] at hrows
    obtain ⟨hrows, hrowsRest⟩ := Memory.holds_append.mp hrows
    rw [length_entryRows, Memory.add_ofNat_add] at hrowsRest
    rw [List.flatMap_cons, dataBytes, List.flatMap_append] at hdata
    obtain ⟨hdata, hdataRest⟩ := Memory.holds_append.mp hdata
    have hwords : (s.entries.flatMap fun e => e.value.bytes).length = 4 * dataWords s.entries :=
      length_dataBytes _
    rw [hwords, Memory.add_ofNat_add, ← Nat.mul_add] at hdataRest
    have hsection : decodedSection mem bin a = s.script := by
      have hlength : (sectionLength mem a).toNat = s.entries.length := by
        have hword : sectionLength mem a = UInt32.ofNat s.entries.length := wordAt_of_holds hcount
        rw [hword, UInt32.toNat_ofNat', Nat.mod_eq_of_lt (hlen s List.mem_cons_self)]
      have hptr : ptr bin (sectionOffset mem a) = bin + UInt32.ofNat (4 * offset) := by
        rw [← ptr_ofNat]
        exact congrArg (ptr bin) (wordAt_of_holds hoffset)
      have hfield : sectionName mem a = s.name :=
        (congrArg (bytesAt mem a) s.name_length.symm).trans hname
      rw [decodedSection, hlength, hptr, decoded_entryRows dataOffset s.entries _ hrows hdata, hfield]
      rfl
    have hnext : 4 * offset + 40 * s.entries.length = 4 * (offset + 10 * s.entries.length) := by omega
    have hrow : UInt32.ofNat (32 + 4 + 4) = 40 := by decide
    rw [hnext] at hrowsRest
    rw [hrow] at h
    have hrest := ih _ _ _ h hrowsRest hdataRest fun t ht => hlen t (List.mem_cons_of_mem _ ht)
    rw [List.length_cons, List.range_succ_eq_map, List.map_cons, List.map_map, row_zero,
      hsection, List.map_cons, ← hrest]
    refine congrArg (s.script :: ·) (List.map_congr_left fun i _ => ?_)
    rw [Function.comp_apply, Nat.succ_eq_add_one, row_succ]

theorem Packed.decoded {p : Packed} (h : Memory.Holds mem bin p.bytes) (hsize : p.bytes.length < 2 ^ 32) :
    decodedSections mem bin = p.script.sections := by
  rw [Packed.length_bytes] at hsize
  obtain ⟨hcount, h⟩ := Memory.holds_append.mp h
  obtain ⟨-, h⟩ := Memory.holds_append.mp h
  obtain ⟨hsections, h⟩ := Memory.holds_append.mp h
  obtain ⟨hrows, hdata⟩ := Memory.holds_append.mp h
  simp only [Memory.add_ofNat_add, p.version_length, length_le32, length_sectionRows,
    length_entryRows] at hsections hrows hdata
  have hentry : 4 + 12 + 40 * p.sections.length = 4 * p.entryOffset := by
    unfold entryOffset
    omega
  have hvalues : 4 * p.entryOffset + 40 * p.entries.length = 4 * p.dataOffset := by
    unfold dataOffset
    omega
  have hlen : ∀ s ∈ p.sections, s.entries.length < 2 ^ 32 := fun s hs => by
    have hle := p.length_entries_le hs
    omega
  rw [hentry] at hrows hdata
  rw [hvalues] at hdata
  rw [decodedSections, sectionCount_of_lt (by omega) (wordAt_of_holds hcount)]
  exact decoded_sectionRows p.entryOffset p.dataOffset p.sections _ hsections hrows hdata hlen

end

end Babelfish.Libfex
