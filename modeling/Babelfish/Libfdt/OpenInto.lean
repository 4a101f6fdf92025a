import Babelfish.Libfdt.Header

/-! `fdt_open_into` opens every blob: the copy has the same blocks, in order, whichever way the buffer and
the old tree overlap. -/

namespace Babelfish.Libfdt

open Bytes Strings Memory

variable {m m' : Memory} {fdt buf : Addr} {f g : HdrField} {off : UInt32} {total n : Nat} {bs : Bytes}

theorem HdrField.offset_le (f : HdrField) : f.offset + 4 ≤ 40 := by cases f <;> decide

theorem HdrField.apart (h : f ≠ g) : f.offset + 4 ≤ g.offset ∨ g.offset + 4 ≤ f.offset := by
  revert h
  cases f <;> cases g <;> decide

theorem getHeader_set_self (m : Memory) (f : HdrField) (val : UInt32) :
    fdtGetHeader (fdtSetHdr m fdt f val) fdt f = val := by
  have hread : (fdtSetHdr m fdt f val).read (fdt + UInt32.ofNat f.offset) 4 = be32 val.toNat :=
    read_store m (fdt + UInt32.ofNat f.offset) (by rw [length_be32]; decide)
  have hbe := readBe32_be32 val.toNat_lt []
  rw [List.append_nil] at hbe
  rw [fdtGetHeader, hread, hbe, UInt32.ofNat_toNat]

section Header

variable (h : fdt.toNat + 40 ≤ 2 ^ 32)

include h

theorem HdrField.toNat_addr (f : HdrField) :
    (fdt + UInt32.ofNat f.offset).toNat = fdt.toNat + f.offset := by
  have := f.offset_le
  exact toNat_add_ofNat (by omega)

theorem within_setHdr (m : Memory) (f : HdrField) (val : UInt32) :
    Within m (fdtSetHdr m fdt f val) (fdt + UInt32.ofNat f.offset) 4 := by
  have hle := f.offset_le
  have haddr := HdrField.toNat_addr h f
  exact within_store m (show (fdt + UInt32.ofNat f.offset).toNat + 4 ≤ 2 ^ 32 by omega)

theorem within_setHdr_40 (m : Memory) (f : HdrField) (val : UInt32) :
    Within m (fdtSetHdr m fdt f val) fdt 40 := by
  have hle := f.offset_le
  have haddr := HdrField.toNat_addr h f
  exact (within_setHdr h m f val).mono (by omega) (by omega)

theorem getHeader_set_ne (m : Memory) (hne : f ≠ g) (val : UInt32) :
    fdtGetHeader (fdtSetHdr m fdt f val) fdt g = fdtGetHeader m fdt g := by
  have hf := f.offset_le
  have hg := g.offset_le
  have haf := HdrField.toNat_addr h f
  have hag := HdrField.toNat_addr h g
  have hapart := HdrField.apart hne
  rw [fdtGetHeader, (within_setHdr h m f val).read_eq (by omega) (by omega)]
  rfl

theorem getHeader_set (m : Memory) (f g : HdrField) (val : UInt32) :
    fdtGetHeader (fdtSetHdr m fdt f val) fdt g = if f = g then val else fdtGetHeader m fdt g := by
  by_cases hfg : f = g
  · rw [if_pos hfg, hfg, getHeader_set_self]
  · rw [if_neg hfg, getHeader_set_ne h m hfg]

theorem getHeader_within {a : Addr} (hw : Within m m' a n)
    (hd : fdt.toNat + 40 ≤ a.toNat ∨ a.toNat + n ≤ fdt.toNat) (f : HdrField) :
    fdtGetHeader m' fdt f = fdtGetHeader m fdt f := by
  have hle := f.offset_le
  have haddr := HdrField.toNat_addr h f
  rw [fdtGetHeader, hw.read_eq (by omega) (by omega)]
  rfl

end Header

theorem getHeader_moved (h : m'.read buf n = m.read fdt n) (hn : 40 ≤ n) (f : HdrField) :
    fdtGetHeader m' buf f = fdtGetHeader m fdt f := by
  have hle := f.offset_le
  rw [fdtGetHeader, read_part h (by omega)]
  rfl

structure BlockAt (m : Memory) (fdt : Addr) (off : UInt32) (total : Nat) (bs : Bytes) : Prop where
  le : off.toNat + bs.length ≤ total
  holds : m.read (fdt + off) bs.length = bs

namespace BlockAt

theorem toNat_addr (h : BlockAt m fdt off total bs) (hfits : fdt.toNat + total < 2 ^ 32) :
    (fdt + off).toNat = fdt.toNat + off.toNat := by
  have := h.le
  rw [UInt32.toNat_add]
  omega

theorem within {a : Addr} (h : BlockAt m fdt off total bs) (hfits : fdt.toNat + total < 2 ^ 32)
    (hw : Within m m' a n)
    (hd : fdt.toNat + off.toNat + bs.length ≤ a.toNat ∨ a.toNat + n ≤ fdt.toNat + off.toNat) :
    BlockAt m' fdt off total bs := by
  have haddr := h.toNat_addr hfits
  have hle := h.le
  exact ⟨hle, (hw.read_eq (by omega) (by omega)).trans h.holds⟩

theorem moved (h : BlockAt m fdt off total bs) (hm : m'.read buf total = m.read fdt total) {total' : Nat}
    (hle : total ≤ total') : BlockAt m' buf off total' bs := by
  have hin := h.le
  have hpart := read_part hm hin
  rw [UInt32.ofNat_toNat, h.holds] at hpart
  exact ⟨by omega, hpart⟩

end BlockAt

def ReserveMap (rsv : Bytes) : Prop :=
  ∃ n, (n + 1) * 16 = rsv.length ∧ (∀ i < n, readBe64 (rsv.drop (16 * i + 8)) ≠ 0) ∧
    readBe64 (rsv.drop (16 * n + 8)) = 0

structure Blocks where
  rsv : Bytes
  dtStruct : Bytes
  dtStrings : Bytes

def Blocks.packedSize (b : Blocks) : Nat :=
  40 + b.rsv.length + b.dtStruct.length + b.dtStrings.length

/-- A blob of version 17 or later stands at the address, with these blocks anywhere in it. -/
structure Stored (m : Memory) (fdt : Addr) (b : Blocks) : Prop where
  magic : fdtGetHeader m fdt .magic = fdtMagic
  version : 17 ≤ (fdtGetHeader m fdt .version).toNat
  lastComp : (fdtGetHeader m fdt .lastCompVersion).toNat ≤ 17
  fits : fdt.toNat + (fdtGetHeader m fdt .totalsize).toNat < 2 ^ 32
  small : (fdtGetHeader m fdt .totalsize).toNat < 2 ^ 31
  header : 40 ≤ (fdtGetHeader m fdt .totalsize).toNat
  entries : ReserveMap b.rsv
  rsv : BlockAt m fdt (fdtGetHeader m fdt .offMemRsvmap) (fdtGetHeader m fdt .totalsize).toNat b.rsv
  dtStruct : BlockAt m fdt (fdtGetHeader m fdt .offDtStruct) (fdtGetHeader m fdt .totalsize).toNat b.dtStruct
  dtStrings :
    BlockAt m fdt (fdtGetHeader m fdt .offDtStrings) (fdtGetHeader m fdt .totalsize).toNat b.dtStrings
  structSize : (fdtGetHeader m fdt .sizeDtStruct).toNat = b.dtStruct.length
  stringsSize : (fdtGetHeader m fdt .sizeDtStrings).toNat = b.dtStrings.length

structure InOrder (m : Memory) (fdt : Addr) (b : Blocks) : Prop where
  rsv : 40 ≤ (fdtGetHeader m fdt .offMemRsvmap).toNat
  dtStruct : (fdtGetHeader m fdt .offMemRsvmap).toNat + b.rsv.length ≤
    (fdtGetHeader m fdt .offDtStruct).toNat
  dtStrings : (fdtGetHeader m fdt .offDtStruct).toNat + b.dtStruct.length ≤
    (fdtGetHeader m fdt .offDtStrings).toNat

theorem readBe32_take (bs : Bytes) (hn : 4 ≤ n) : readBe32 (bs.take n) = readBe32 bs := by
  obtain ⟨k, rfl⟩ : ∃ k, n = k + 4 := ⟨n - 4, by omega⟩
  rcases bs with _ | ⟨_, _ | ⟨_, _ | ⟨_, _ | ⟨_, _⟩⟩⟩⟩ <;> rfl

theorem readBe64_take (bs : Bytes) : readBe64 (bs.take 8) = readBe64 bs := by
  rw [readBe64, readBe64, readBe32_take bs (by decide), List.drop_take, readBe32_take _ (by decide)]

theorem toNat_ofNat_of_lt {k : Nat} (h : k < 2 ^ 32) : (UInt32.ofNat k).toNat = k := by
  rw [UInt32.toNat_ofNat']
  omega

theorem ofInt_ofNat (k : Nat) (h : k < 2 ^ 32) : UInt32.ofInt k = UInt32.ofNat k := by
  unfold UInt32.ofInt
  congr 1
  omega

theorem toInt_of_lt {x : UInt32} (h : x.toNat < 2 ^ 31) : x.toInt32.toInt = x.toNat := by
  have hcond : x.toInt32.toInt =
      if 2 * x.toNat < 2 ^ 32 then (x.toNat : Int) else (x.toNat : Int) - 2 ^ 32 :=
    BitVec.toInt_eq_toNat_cond _
  rw [hcond, if_pos (by omega)]

namespace Stored

variable {b : Blocks}

theorem check (h : Stored m fdt b) : fdtCheckHeader m fdt = 0 := by
  have hv := h.version
  have hc := h.lastComp
  have h₁ : ¬fdtGetHeader m fdt .version < 16 := by
    rw [UInt32.lt_iff_toNat_lt]
    exact fun hlt => absurd (Nat.lt_of_le_of_lt hv hlt) (by decide)
  have h₂ : ¬17 < fdtGetHeader m fdt .lastCompVersion := by
    rw [UInt32.lt_iff_toNat_lt]
    exact fun hlt => absurd (Nat.lt_of_lt_of_le hlt hc) (by decide)
  rw [fdtCheckHeader, if_pos h.magic, if_neg h₁, if_neg h₂]

theorem entry (h : Stored m fdt b) {i : Nat} (hi : (i + 1) * 16 ≤ b.rsv.length) :
    readBe64 (m.read (fdtMemRsv m fdt i + 8) 8) = readBe64 (b.rsv.drop (16 * i + 8)) := by
  have hsub := (Holds.drop (show m.Holds _ b.rsv from h.rsv.holds)
    (show 16 * i + 8 ≤ b.rsv.length by omega)).take 8
  have hlen : ((b.rsv.drop (16 * i + 8)).take 8).length = 8 := by
    rw [List.length_take, List.length_drop]
    omega
  rw [Holds, hlen] at hsub
  have haddr : fdtMemRsv m fdt i + 8 =
      fdt + fdtGetHeader m fdt .offMemRsvmap + UInt32.ofNat (16 * i + 8) := add_ofNat_add _ (16 * i) 8
  rw [haddr, hsub, readBe64_take]

theorem num (h : Stored m fdt b) :
    ∃ n, fdtNumMemRsv m fdt = some n ∧ (n + 1) * 16 = b.rsv.length := by
  obtain ⟨n, hlen, hne, hzero⟩ := h.entries
  have hle := h.rsv.le
  have hsmall := h.small
  have hloop : ∀ k fuel i, i + k = n → k < fuel → numMemRsvLoop m fdt fuel i = some n := by
    intro k
    induction k with
    | zero =>
      intro fuel i hi hfuel
      obtain ⟨f, rfl⟩ : ∃ f, fuel = f + 1 := ⟨fuel - 1, by omega⟩
      obtain rfl : i = n := by omega
      have hend : ¬readBe64 (m.read (fdtMemRsv m fdt i + 8) 8) ≠ 0 := by
        rw [h.entry (by omega)]
        exact fun hn => hn hzero
      rw [numMemRsvLoop, if_neg hend]
    | succ k ih =>
      intro fuel i hi hfuel
      obtain ⟨f, rfl⟩ : ∃ f, fuel = f + 1 := ⟨fuel - 1, by omega⟩
      have hmore : readBe64 (m.read (fdtMemRsv m fdt i + 8) 8) ≠ 0 := by
        rw [h.entry (by omega)]
        exact hne i (by omega)
      rw [numMemRsvLoop, if_pos hmore]
      exact ih f (i + 1) (by omega) (by omega)
  have hstart : (fdtMemRsv m fdt 0).toNat = fdt.toNat + (fdtGetHeader m fdt .offMemRsvmap).toNat := by
    rw [← h.rsv.toNat_addr h.fits]
    exact congrArg UInt32.toNat (UInt32.add_zero _)
  have hfits := h.fits
  exact ⟨n, hloop n _ 0 (Nat.zero_add n) (by rw [hstart]; omega), hlen⟩

theorem structSizeOf_eq (h : Stored m fdt b) : structSizeOf m fdt = some (b.dtStruct.length : Int) := by
  have hv : 17 ≤ fdtGetHeader m fdt .version := UInt32.le_iff_toNat_le.mpr h.version
  have hle := h.dtStruct.le
  have hsmall := h.small
  have hsize := h.structSize
  rw [structSizeOf, if_pos hv, toInt_of_lt (by omega), hsize]

theorem misordered_iff (h : Stored m fdt b) {rsvSize structSize : UInt32}
    (hr : rsvSize.toNat ≤ b.rsv.length) (hs : structSize.toNat = b.dtStruct.length) :
    fdtBlocksMisordered m fdt rsvSize structSize = false ↔
      40 ≤ (fdtGetHeader m fdt .offMemRsvmap).toNat ∧
        (fdtGetHeader m fdt .offMemRsvmap).toNat + rsvSize.toNat ≤ (fdtGetHeader m fdt .offDtStruct).toNat ∧
        (fdtGetHeader m fdt .offDtStruct).toNat + b.dtStruct.length ≤
          (fdtGetHeader m fdt .offDtStrings).toNat := by
  have h₁ := h.rsv.le
  have h₂ := h.dtStruct.le
  have h₃ := h.dtStrings.le
  have h₄ := h.stringsSize
  have hsmall := h.small
  have hforty : (40 : UInt32).toNat = 40 := rfl
  simp only [fdtBlocksMisordered, Bool.or_eq_false_iff, decide_eq_false_iff_not, UInt32.lt_iff_toNat_lt,
    UInt32.toNat_add, hforty]
  omega

end Stored

structure Opened (m : Memory) (buf : Addr) (bufsize : Nat) (b : Blocks) : Prop where
  stored : Stored m buf b
  ordered : InOrder m buf b
  version : fdtGetHeader m buf .version = 17
  totalsize : (fdtGetHeader m buf .totalsize).toNat = bufsize

theorem Opened.of_within {m₁ : Memory} {b : Blocks} {bufsize : Nat} (hw : Within m₁ m' buf 40)
    (hbuf : buf.toNat + bufsize < 2 ^ 32) (hsmall : bufsize < 2 ^ 31) (hentries : ReserveMap b.rsv)
    (hrsv : BlockAt m₁ buf (fdtGetHeader m' buf .offMemRsvmap) bufsize b.rsv)
    (hstruct : BlockAt m₁ buf (fdtGetHeader m' buf .offDtStruct) bufsize b.dtStruct)
    (hstrings : BlockAt m₁ buf (fdtGetHeader m' buf .offDtStrings) bufsize b.dtStrings)
    (ho : InOrder m' buf b) (hmagic : fdtGetHeader m' buf .magic = fdtMagic)
    (hversion : fdtGetHeader m' buf .version = 17)
    (hlast : (fdtGetHeader m' buf .lastCompVersion).toNat ≤ 17)
    (htotal : (fdtGetHeader m' buf .totalsize).toNat = bufsize)
    (hsize : (fdtGetHeader m' buf .sizeDtStruct).toNat = b.dtStruct.length)
    (hsize' : (fdtGetHeader m' buf .sizeDtStrings).toNat = b.dtStrings.length) :
    Opened m' buf bufsize b := by
  have h₁ := ho.rsv
  have h₂ := ho.dtStruct
  have h₃ := ho.dtStrings
  have h₄ := hstrings.le
  refine ⟨⟨hmagic, by rw [hversion]; decide, hlast, by omega, by omega, by omega, hentries, ?_, ?_, ?_,
    hsize, hsize'⟩, ho, hversion, htotal⟩
  · rw [htotal]
    exact hrsv.within hbuf hw (by omega)
  · rw [htotal]
    exact hstruct.within hbuf hw (by omega)
  · rw [htotal]
    exact hstrings.within hbuf hw (by omega)

theorem memmove_outside {n : UInt32} (hn : n.toNat < 2 ^ 31) (hd : buf.toNat + n.toNat ≤ 2 ^ 32)
    (hs : fdt.toNat + n.toNat ≤ 2 ^ 32) :
    (memmove m buf fdt n).2.read buf n.toNat = m.read fdt n.toNat ∧
      Within m (memmove m buf fdt n).2 buf n.toNat :=
  (memmove_spec hn hd hs).2.outside hd

variable {b : Blocks} {bufsize : Nat}

theorem Stored.openInto_sized (h : Stored m fdt b) (bufsize : Int) :
    fdtOpenInto m fdt buf bufsize = some (openSized m fdt buf bufsize (UInt32.ofNat b.rsv.length)
      (UInt32.ofNat b.dtStruct.length)) := by
  obtain ⟨n, hnum, hn⟩ := h.num
  have h₂ := h.dtStruct.le
  have h₃ := h.small
  have hpos : ¬((b.dtStruct.length : Int) < 0 ∧ fdtGetHeader m fdt .version < 17) := fun hneg => by
    have := hneg.1
    omega
  have hzero : ¬fdtCheckHeader m fdt ≠ 0 := fun hne => hne h.check
  unfold fdtOpenInto
  rw [if_neg hzero, hnum, h.structSizeOf_eq, Option.bind_some, Option.map_some, if_neg hpos, hn,
    ofInt_ofNat b.dtStruct.length (by omega)]

theorem Stored.move_eq (h : Stored m fdt b) (hsmall : bufsize < 2 ^ 31) : fdtMove m fdt buf bufsize =
    if bufsize < (fdtGetHeader m fdt .totalsize).toNat then (errNoSpace, m)
    else (0, (memmove m buf fdt (fdtGetHeader m fdt .totalsize)).2) := by
  have hzero : ¬fdtCheckHeader m fdt ≠ 0 := fun hne => hne h.check
  have hlt : UInt32.ofNat bufsize < fdtGetHeader m fdt .totalsize ↔
      bufsize < (fdtGetHeader m fdt .totalsize).toNat := by
    rw [UInt32.lt_iff_toNat_lt, toNat_ofNat_of_lt (by omega)]
  unfold fdtMove
  simp only [if_neg hzero, ofInt_ofNat bufsize (by omega), hlt]

theorem Stored.ordered_iff (h : Stored m fdt b) : fdtBlocksMisordered m fdt (UInt32.ofNat b.rsv.length)
    (UInt32.ofNat b.dtStruct.length) = false ↔ InOrder m fdt b := by
  have h₁ := h.rsv.le
  have h₂ := h.dtStruct.le
  have hsmall := h.small
  have hr : (UInt32.ofNat b.rsv.length).toNat = b.rsv.length := toNat_ofNat_of_lt (by omega)
  rw [h.misordered_iff (Nat.le_of_eq hr) (toNat_ofNat_of_lt (by omega)), hr]
  exact ⟨fun ho => ⟨ho.1, ho.2.1, ho.2.2⟩, fun ho => ⟨ho.rsv, ho.dtStruct, ho.dtStrings⟩⟩

section Ordered

variable (h : Stored m fdt b) (ho : InOrder m fdt b)
  (hbuf : buf.toNat + bufsize < 2 ^ 32) (hsmall : bufsize < 2 ^ 31)

include h ho hsmall

theorem Stored.openInto_short (hlt : bufsize < (fdtGetHeader m fdt .totalsize).toNat) :
    fdtOpenInto m fdt buf bufsize = some (errNoSpace, m) := by
  have hmis := h.ordered_iff.mpr ho
  rw [h.openInto_sized]
  unfold openSized
  rw [hmis, h.move_eq hsmall, if_pos hlt]
  rfl

include hbuf

theorem Stored.openInto_ordered (hle : (fdtGetHeader m fdt .totalsize).toNat ≤ bufsize) : ∃ m',
    fdtOpenInto m fdt buf bufsize = some (0, m') ∧ Opened m' buf bufsize b ∧ Within m m' buf bufsize ∧
      ∀ f, f ≠ .version → f ≠ .totalsize → fdtGetHeader m' buf f = fdtGetHeader m fdt f := by
  have hsize := h.structSize
  have hfits := h.fits
  have hstruct := h.dtStruct.le
  have hforty := h.header
  have hlen : UInt32.ofNat b.dtStruct.length = fdtGetHeader m fdt .sizeDtStruct := by
    rw [← hsize, UInt32.ofNat_toNat]
  obtain ⟨hread, hwithin⟩ := @memmove_outside m fdt buf (fdtGetHeader m fdt .totalsize) h.small
    (by omega) (by omega)
  have hbuf40 : buf.toNat + 40 ≤ 2 ^ 32 := by omega
  have hmis := h.ordered_iff.mpr ho
  have heq : fdtOpenInto m fdt buf bufsize = some (0, fdtSetHdr (fdtSetHdr (fdtSetHdr
      (memmove m buf fdt (fdtGetHeader m fdt .totalsize)).2 buf .version 17) buf .sizeDtStruct
      (UInt32.ofNat b.dtStruct.length)) buf .totalsize (UInt32.ofNat bufsize)) := by
    rw [h.openInto_sized]
    unfold openSized
    rw [hmis, h.move_eq hsmall, if_neg (Nat.not_lt.mpr hle), ofInt_ofNat bufsize (by omega)]
    rfl
  refine ⟨_, heq, ?_⟩
  clear heq
  generalize (memmove m buf fdt (fdtGetHeader m fdt .totalsize)).2 = m₁ at hread hwithin
  have hkeep : ∀ f, f ≠ .version → f ≠ .totalsize → fdtGetHeader (fdtSetHdr (fdtSetHdr
      (fdtSetHdr m₁ buf .version 17) buf .sizeDtStruct (UInt32.ofNat b.dtStruct.length)) buf .totalsize
      (UInt32.ofNat bufsize)) buf f = fdtGetHeader m fdt f := fun f h₁ h₂ => by
    rw [getHeader_set hbuf40, if_neg (Ne.symm h₂), getHeader_set hbuf40, getHeader_set hbuf40,
      if_neg (Ne.symm h₁), getHeader_moved hread hforty, hlen]
    split
    · rename_i he
      rw [he]
    · rfl
  have hw := ((within_setHdr_40 hbuf40 m₁ .version 17).trans
    (within_setHdr_40 hbuf40 _ .sizeDtStruct (UInt32.ofNat b.dtStruct.length))).trans
    (within_setHdr_40 hbuf40 _ .totalsize (UInt32.ofNat bufsize))
  refine ⟨Opened.of_within hw hbuf hsmall h.entries ?_ ?_ ?_ ⟨?_, ?_, ?_⟩ ?_ ?_ ?_ ?_ ?_ ?_,
    (hwithin.mono (Nat.le_refl _) (by omega)).trans (hw.mono (Nat.le_refl _) (by omega)), hkeep⟩
  · rw [hkeep _ (by decide) (by decide)]
    exact h.rsv.moved hread hle
  · rw [hkeep _ (by decide) (by decide)]
    exact h.dtStruct.moved hread hle
  · rw [hkeep _ (by decide) (by decide)]
    exact h.dtStrings.moved hread hle
  · rw [hkeep _ (by decide) (by decide)]
    exact ho.rsv
  · rw [hkeep _ (by decide) (by decide), hkeep _ (by decide) (by decide)]
    exact ho.dtStruct
  · rw [hkeep _ (by decide) (by decide), hkeep _ (by decide) (by decide)]
    exact ho.dtStrings
  · rw [hkeep _ (by decide) (by decide)]
    exact h.magic
  · rw [getHeader_set_ne hbuf40 _ (by decide), getHeader_set_ne hbuf40 _ (by decide), getHeader_set_self]
  · rw [hkeep _ (by decide) (by decide)]
    exact h.lastComp
  · rw [getHeader_set_self]
    exact toNat_ofNat_of_lt (by omega)
  · rw [hkeep _ (by decide) (by decide)]
    exact hsize
  · rw [hkeep _ (by decide) (by decide)]
    exact h.stringsSize

end Ordered

theorem Stored.within {a : Addr} (h : Stored m fdt b) (hw : Within m m' a n)
    (hd : fdt.toNat + (fdtGetHeader m fdt .totalsize).toNat ≤ a.toNat ∨ a.toNat + n ≤ fdt.toNat) :
    Stored m' fdt b := by
  have hfits := h.fits
  have hforty := h.header
  have hget : ∀ f, fdtGetHeader m' fdt f = fdtGetHeader m fdt f :=
    getHeader_within (by omega) hw (by omega)
  have hblock : ∀ {off bs}, BlockAt m fdt off (fdtGetHeader m fdt .totalsize).toNat bs →
      BlockAt m' fdt off (fdtGetHeader m fdt .totalsize).toNat bs := fun hb => by
    have hle := hb.le
    exact hb.within hfits hw (by omega)
  constructor
  · rw [hget]
    exact h.magic
  · rw [hget]
    exact h.version
  · rw [hget]
    exact h.lastComp
  · rw [hget]
    exact hfits
  · rw [hget]
    exact h.small
  · rw [hget]
    exact hforty
  · exact h.entries
  · rw [hget, hget]
    exact hblock h.rsv
  · rw [hget, hget]
    exact hblock h.dtStruct
  · rw [hget, hget]
    exact hblock h.dtStrings
  · rw [hget]
    exact h.structSize
  · rw [hget]
    exact h.stringsSize

structure Placed (m m' : Memory) (new : Addr) (f : HdrField) (off : UInt32) (bs : Bytes) : Prop where
  holds : m'.read (new + off) bs.length = bs
  header : ∀ g, fdtGetHeader m' new g = if f = g then off else fdtGetHeader m new g
  keep : ∀ k n, 40 ≤ k → k + n ≤ off.toNat → m'.read (new + UInt32.ofNat k) n =
    m.read (new + UInt32.ofNat k) n
  within : Within m m' new (off.toNat + bs.length)

theorem packBlock_placed (new : Addr) (off : UInt32) {size : UInt32}
    (hb : BlockAt m fdt (fdtGetHeader m fdt f) total bs)
    (hfits : fdt.toNat + total < 2 ^ 32) (hsmall : total < 2 ^ 31) (hsize : size.toNat = bs.length)
    (hoff : 40 ≤ off.toNat) (hnew : new.toNat + off.toNat + bs.length < 2 ^ 32) :
    Placed m (packBlock m fdt new f off size) new f off bs := by
  have hle := hb.le
  have haddr := hb.toNat_addr hfits
  have hdest : (new + off).toNat = new.toNat + off.toNat := by
    rw [UInt32.toNat_add]
    omega
  obtain ⟨hread, hw⟩ := @memmove_outside m (fdt + fdtGetHeader m fdt f) (new + off) size (by omega)
    (by omega) (by omega)
  rw [hsize] at hread hw
  unfold packBlock
  generalize (memmove m (new + off) (fdt + fdtGetHeader m fdt f) size).2 = m₁ at hread hw
  have hnew40 : new.toNat + 40 ≤ 2 ^ 32 := by omega
  have hset := within_setHdr_40 hnew40 m₁ f off
  constructor
  · rw [hset.read_eq (by omega) (by omega), hread, hb.holds]
  · intro g
    rw [getHeader_set hnew40, getHeader_within hnew40 hw (by omega)]
  · intro k n hk hkn
    have hkaddr : (new + UInt32.ofNat k).toNat = new.toNat + k := toNat_add_ofNat (by omega)
    rw [hset.read_eq (by omega) (by omega), hw.read_eq (by omega) (by omega)]
  · exact (hw.mono (by omega) (by omega)).trans (hset.mono (Nat.le_refl _) (by omega))

theorem read_setHdr {new : Addr} {k n : Nat} (hk : 40 ≤ k) (hnew : new.toNat + k + n ≤ 2 ^ 32)
    (m : Memory) (f : HdrField) (val : UInt32) :
    (fdtSetHdr m new f val).read (new + UInt32.ofNat k) n = m.read (new + UInt32.ofNat k) n := by
  by_cases hn : n = 0
  · rw [hn, read_zero, read_zero]
  · have haddr : (new + UInt32.ofNat k).toNat = new.toNat + k := toNat_add_ofNat (by omega)
    exact (within_setHdr_40 (by omega) m f val).read_eq (by omega) (by omega)

structure Packed (m' : Memory) (new : Addr) (b : Blocks) : Prop where
  rsv : m'.read (new + 40) b.rsv.length = b.rsv
  dtStruct : m'.read (new + UInt32.ofNat (40 + b.rsv.length)) b.dtStruct.length = b.dtStruct
  dtStrings : m'.read (new + UInt32.ofNat (40 + b.rsv.length + b.dtStruct.length)) b.dtStrings.length =
    b.dtStrings
  offRsv : fdtGetHeader m' new .offMemRsvmap = 40
  offStruct : fdtGetHeader m' new .offDtStruct = UInt32.ofNat (40 + b.rsv.length)
  offStrings : fdtGetHeader m' new .offDtStrings = UInt32.ofNat (40 + b.rsv.length + b.dtStruct.length)
  sizeStruct : fdtGetHeader m' new .sizeDtStruct = UInt32.ofNat b.dtStruct.length
  sizeStrings : fdtGetHeader m' new .sizeDtStrings = UInt32.ofNat b.dtStrings.length

theorem packed_of_placed {new : Addr} {m₁ m₂ m₃ : Memory} (hnew : new.toNat + b.packedSize < 2 ^ 32)
    (P₁ : Placed m m₁ new .offMemRsvmap 40 b.rsv)
    (P₂ : Placed m₁ m₂ new .offDtStruct (UInt32.ofNat (40 + b.rsv.length)) b.dtStruct)
    (P₃ : Placed (fdtSetHdr m₂ new .sizeDtStruct (UInt32.ofNat b.dtStruct.length)) m₃ new .offDtStrings
      (UInt32.ofNat (40 + b.rsv.length + b.dtStruct.length)) b.dtStrings) :
    Packed (fdtSetHdr m₃ new .sizeDtStrings (UInt32.ofNat b.dtStrings.length)) new b := by
  unfold Blocks.packedSize at hnew
  have hnew40 : new.toNat + 40 ≤ 2 ^ 32 := by omega
  have hto₂ : (UInt32.ofNat (40 + b.rsv.length)).toNat = 40 + b.rsv.length :=
    toNat_ofNat_of_lt (by omega)
  have hto₃ : (UInt32.ofNat (40 + b.rsv.length + b.dtStruct.length)).toNat =
      40 + b.rsv.length + b.dtStruct.length := toNat_ofNat_of_lt (by omega)
  have hback : ∀ k n, 40 ≤ k → k + n ≤ 40 + b.rsv.length + b.dtStruct.length →
      (fdtSetHdr m₃ new .sizeDtStrings (UInt32.ofNat b.dtStrings.length)).read (new + UInt32.ofNat k) n =
        m₂.read (new + UInt32.ofNat k) n := fun k n hk hkn => by
    rw [read_setHdr hk (by omega), P₃.keep k n hk (by omega), read_setHdr hk (by omega)]
  constructor
  · exact (hback 40 _ (Nat.le_refl _) (by omega)).trans
      ((P₂.keep 40 _ (Nat.le_refl _) (by omega)).trans P₁.holds)
  · exact (hback _ _ (Nat.le_add_right _ _) (Nat.le_refl _)).trans P₂.holds
  · rw [read_setHdr (by omega) (by omega)]
    exact P₃.holds
  all_goals simp only [getHeader_set hnew40, P₃.header, P₂.header, P₁.header, reduceCtorEq, if_false,
    if_true]

theorem Stored.packblocks (h : Stored m fdt b) (new : Addr) (hnew : new.toNat + b.packedSize < 2 ^ 32)
    (hd : fdt.toNat + (fdtGetHeader m fdt .totalsize).toNat ≤ new.toNat ∨
      new.toNat + b.packedSize ≤ fdt.toNat) :
    Packed (fdtPackblocks m fdt new (UInt32.ofNat b.rsv.length) (UInt32.ofNat b.dtStruct.length)) new b ∧
      Within m (fdtPackblocks m fdt new (UInt32.ofNat b.rsv.length) (UInt32.ofNat b.dtStruct.length)) new
        b.packedSize := by
  have hnew' := hnew
  unfold Blocks.packedSize at hnew hd ⊢
  have hnew40 : new.toNat + 40 ≤ 2 ^ 32 := by omega
  have hforty : (40 : UInt32).toNat = 40 := rfl
  have hsmall := h.small
  have hfits := h.fits
  have hheader := h.header
  have hle₁ := h.rsv.le
  have hle₂ := h.dtStruct.le
  have hle₃ := h.dtStrings.le
  have hoff₂ : (40 : UInt32) + UInt32.ofNat b.rsv.length = UInt32.ofNat (40 + b.rsv.length) :=
    (UInt32.ofNat_add _ _).symm
  have hoff₃ : UInt32.ofNat (40 + b.rsv.length) + UInt32.ofNat b.dtStruct.length =
      UInt32.ofNat (40 + b.rsv.length + b.dtStruct.length) := (UInt32.ofNat_add _ _).symm
  have hlen : ∀ {k : Nat}, k ≤ (fdtGetHeader m fdt .totalsize).toNat → (UInt32.ofNat k).toNat = k :=
    fun hk => toNat_ofNat_of_lt (by omega)
  have hto₂ : (UInt32.ofNat (40 + b.rsv.length)).toNat = 40 + b.rsv.length :=
    toNat_ofNat_of_lt (by omega)
  have hto₃ : (UInt32.ofNat (40 + b.rsv.length + b.dtStruct.length)).toNat =
      40 + b.rsv.length + b.dtStruct.length := toNat_ofNat_of_lt (by omega)
  simp only [fdtPackblocks, hoff₂, hoff₃]
  -- each block is placed behind those that are there, beside the old tree
  have P₁ := packBlock_placed new 40 h.rsv h.fits hsmall (hlen (by omega))
    (Nat.le_of_eq hforty.symm) (by omega)
  generalize packBlock m fdt new .offMemRsvmap 40 (UInt32.ofNat b.rsv.length) = m₁ at P₁ ⊢
  have W₁ : Within m m₁ new (40 + b.rsv.length) := P₁.within
  have h₁ := h.within W₁ (by omega)
  have P₂ := packBlock_placed new _ h₁.dtStruct h₁.fits h₁.small (hlen (by omega))
    (Nat.le_trans (Nat.le_add_right _ _) (Nat.le_of_eq hto₂.symm)) (by omega)
  generalize packBlock m₁ fdt new .offDtStruct (UInt32.ofNat (40 + b.rsv.length))
    (UInt32.ofNat b.dtStruct.length) = m₂ at P₂ ⊢
  have W₂ : Within m m₂ new (40 + b.rsv.length + b.dtStruct.length) :=
    (W₁.mono (Nat.le_refl _) (by omega)).trans (P₂.within.mono (Nat.le_refl _) (by omega))
  have W₃ : Within m (fdtSetHdr m₂ new .sizeDtStruct (UInt32.ofNat b.dtStruct.length)) new
      (40 + b.rsv.length + b.dtStruct.length) :=
    W₂.trans ((within_setHdr_40 hnew40 m₂ _ _).mono (Nat.le_refl _) (by omega))
  have h₃ := h.within W₃ (by omega)
  have P₃ := packBlock_placed new (UInt32.ofNat (40 + b.rsv.length + b.dtStruct.length))
    h₃.dtStrings h₃.fits h₃.small h₃.stringsSize (by omega) (by omega)
  generalize packBlock (fdtSetHdr m₂ new .sizeDtStruct (UInt32.ofNat b.dtStruct.length)) fdt new
    .offDtStrings (UInt32.ofNat (40 + b.rsv.length + b.dtStruct.length)) _ = m₃ at P₃ ⊢
  have W₄ : Within m m₃ new (40 + b.rsv.length + b.dtStruct.length + b.dtStrings.length) :=
    (W₃.mono (Nat.le_refl _) (by omega)).trans (P₃.within.mono (Nat.le_refl _) (by omega))
  have h₄ := h.within W₄ (by omega)
  have hsize : fdtGetHeader m₃ fdt .sizeDtStrings = UInt32.ofNat b.dtStrings.length := by
    rw [← h₄.stringsSize, UInt32.ofNat_toNat]
  rw [hsize]
  exact ⟨packed_of_placed hnew' P₁ P₂ P₃,
    W₄.trans ((within_setHdr_40 hnew40 m₃ _ _).mono (Nat.le_refl _) (by omega))⟩

def Overlap (m : Memory) (fdt buf : Addr) (b : Blocks) : Prop :=
  fdt.toNat < buf.toNat + b.packedSize ∧ buf.toNat < fdt.toNat + (fdtGetHeader m fdt .totalsize).toNat

instance (m : Memory) (fdt buf : Addr) (b : Blocks) : Decidable (Overlap m fdt buf b) :=
  inferInstanceAs (Decidable (_ ∧ _))

def Takes (m : Memory) (fdt buf : Addr) (bufsize : Nat) (b : Blocks) : Prop :=
  b.packedSize ≤ bufsize ∧ (Overlap m fdt buf b →
    fdt.toNat + (fdtGetHeader m fdt .totalsize).toNat + b.packedSize ≤ buf.toNat + bufsize)

def packedAt (m : Memory) (fdt buf : Addr) (b : Blocks) : Addr :=
  if Overlap m fdt buf b then fdt + fdtGetHeader m fdt .totalsize else buf

def reorderedHeader (m : Memory) (buf : Addr) (bufsize : Nat) (cpuid : UInt32) : Memory :=
  fdtSetHdr (fdtSetHdr (fdtSetHdr (fdtSetHdr (fdtSetHdr m buf .magic fdtMagic) buf .totalsize
    (UInt32.ofNat bufsize)) buf .version 17) buf .lastCompVersion 16) buf .bootCpuidPhys cpuid

theorem Packed.moved {tmp : Addr} (h : Packed m tmp b)
    (hm : m'.read buf b.packedSize = m.read tmp b.packedSize) : Packed m' buf b := by
  have hpacked : b.packedSize = 40 + b.rsv.length + b.dtStruct.length + b.dtStrings.length := rfl
  have hget := getHeader_moved hm (by omega : 40 ≤ b.packedSize)
  constructor
  · exact (read_part hm (by omega : 40 + b.rsv.length ≤ b.packedSize)).trans h.rsv
  · exact (read_part hm (by omega)).trans h.dtStruct
  · exact (read_part hm (by omega)).trans h.dtStrings
  · rw [hget, h.offRsv]
  · rw [hget, h.offStruct]
  · rw [hget, h.offStrings]
  · rw [hget, h.sizeStruct]
  · rw [hget, h.sizeStrings]

def HdrField.ofBlocks (f : HdrField) : Prop :=
  f = .offMemRsvmap ∨ f = .offDtStruct ∨ f = .offDtStrings ∨ f = .sizeDtStruct ∨ f = .sizeDtStrings

def Contiguous (m : Memory) (fdt : Addr) : Prop :=
  fdtGetHeader m fdt .offDtStrings = fdtGetHeader m fdt .offDtStruct + fdtGetHeader m fdt .sizeDtStruct

theorem Packed.opened (h : Packed m buf b) (hw : Within m m' buf 40)
    (hkeep : ∀ f : HdrField, f.ofBlocks → fdtGetHeader m' buf f = fdtGetHeader m buf f)
    (hentries : ReserveMap b.rsv) (hle : b.packedSize ≤ bufsize) (hbuf : buf.toNat + bufsize < 2 ^ 32)
    (hsmall : bufsize < 2 ^ 31) (hmagic : fdtGetHeader m' buf .magic = fdtMagic)
    (hversion : fdtGetHeader m' buf .version = 17)
    (hlast : (fdtGetHeader m' buf .lastCompVersion).toNat ≤ 17)
    (htotal : (fdtGetHeader m' buf .totalsize).toNat = bufsize) :
    Opened m' buf bufsize b ∧ Contiguous m' buf := by
  have hpacked : b.packedSize = 40 + b.rsv.length + b.dtStruct.length + b.dtStrings.length := rfl
  have h₁ := (hkeep .offMemRsvmap (by simp [HdrField.ofBlocks])).trans h.offRsv
  have h₂ := (hkeep .offDtStruct (by simp [HdrField.ofBlocks])).trans h.offStruct
  have h₃ := (hkeep .offDtStrings (by simp [HdrField.ofBlocks])).trans h.offStrings
  have h₄ := (hkeep .sizeDtStruct (by simp [HdrField.ofBlocks])).trans h.sizeStruct
  have h₅ := (hkeep .sizeDtStrings (by simp [HdrField.ofBlocks])).trans h.sizeStrings
  have hn₁ : (40 : UInt32).toNat = 40 := rfl
  have hn₂ : (UInt32.ofNat (40 + b.rsv.length)).toNat = 40 + b.rsv.length :=
    toNat_ofNat_of_lt (by omega)
  have hn₃ : (UInt32.ofNat (40 + b.rsv.length + b.dtStruct.length)).toNat =
      40 + b.rsv.length + b.dtStruct.length := toNat_ofNat_of_lt (by omega)
  refine ⟨Opened.of_within hw hbuf hsmall hentries ?_ ?_ ?_ ⟨?_, ?_, ?_⟩ hmagic hversion hlast htotal
    ?_ ?_, ?_⟩
  · rw [h₁]
    exact ⟨by omega, h.rsv⟩
  · rw [h₂]
    exact ⟨by omega, h.dtStruct⟩
  · rw [h₃]
    exact ⟨by omega, h.dtStrings⟩
  · rw [h₁]
    exact Nat.le_of_eq hn₁.symm
  · rw [h₁, h₂, hn₁, hn₂]
  · rw [h₂, h₃, hn₂, hn₃]
  · rw [h₄]
    exact toNat_ofNat_of_lt (by omega)
  · rw [h₅]
    exact toNat_ofNat_of_lt (by omega)
  · rw [Contiguous, h₂, h₃, h₄]
    exact UInt32.ofNat_add _ _

section Reordered

variable (h : Stored m fdt b) (hbuf : buf.toNat + bufsize < 2 ^ 32) (hsmall : bufsize < 2 ^ 31)
  (hpacked : b.packedSize < 2 ^ 31)
  (hbehind : fdt.toNat + (fdtGetHeader m fdt .totalsize).toNat + b.packedSize < 2 ^ 32)

include h

theorem Stored.newsize_eq : 40 + UInt32.ofNat b.rsv.length + UInt32.ofNat b.dtStruct.length +
    fdtGetHeader m fdt .sizeDtStrings = UInt32.ofNat b.packedSize := by
  have hsize : fdtGetHeader m fdt .sizeDtStrings = UInt32.ofNat b.dtStrings.length := by
    rw [← h.stringsSize, UInt32.ofNat_toNat]
  rw [hsize, Blocks.packedSize, UInt32.ofNat_add, UInt32.ofNat_add, UInt32.ofNat_add]
  rfl

include hpacked

theorem Stored.reordered_short (hlt : bufsize < b.packedSize) :
    openReordered m fdt buf bufsize (UInt32.ofNat b.rsv.length) (UInt32.ofNat b.dtStruct.length) =
      (errNoSpace, m) := by
  have hn : (UInt32.ofNat b.packedSize).toNat = b.packedSize := toNat_ofNat_of_lt (by omega)
  unfold openReordered
  simp only [h.newsize_eq]
  rw [toInt_of_lt (by omega), hn, if_pos (by omega)]

include hbuf hsmall hbehind

theorem Stored.reordered_eq (hle : b.packedSize ≤ bufsize) :
    openReordered m fdt buf bufsize (UInt32.ofNat b.rsv.length) (UInt32.ofNat b.dtStruct.length) =
      if Overlap m fdt buf b ∧ buf.toNat + bufsize <
          fdt.toNat + (fdtGetHeader m fdt .totalsize).toNat + b.packedSize then (errNoSpace, m)
      else (0, reorderedHeader (memmove (fdtPackblocks m fdt (packedAt m fdt buf b)
          (UInt32.ofNat b.rsv.length) (UInt32.ofNat b.dtStruct.length)) buf (packedAt m fdt buf b)
          (UInt32.ofNat b.packedSize)).2 buf bufsize
          (fdtGetHeader (fdtSetHdr (fdtSetHdr (fdtSetHdr (fdtSetHdr (memmove (fdtPackblocks m fdt
            (packedAt m fdt buf b) (UInt32.ofNat b.rsv.length) (UInt32.ofNat b.dtStruct.length)) buf
            (packedAt m fdt buf b) (UInt32.ofNat b.packedSize)).2 buf .magic fdtMagic) buf .totalsize
            (UInt32.ofNat bufsize)) buf .version 17) buf .lastCompVersion 16) fdt .bootCpuidPhys)) := by
  have hn : (UInt32.ofNat b.packedSize).toNat = b.packedSize := toNat_ofNat_of_lt (by omega)
  have hbs : (UInt32.ofNat bufsize).toNat = bufsize := toNat_ofNat_of_lt (by omega)
  have hnew : (buf + UInt32.ofNat b.packedSize).toNat = buf.toNat + b.packedSize :=
    toNat_add_ofNat (by omega)
  have hend : (buf + UInt32.ofNat bufsize).toNat = buf.toNat + bufsize := toNat_add_ofNat (by omega)
  have hfdtend : (fdt + fdtGetHeader m fdt .totalsize).toNat =
      fdt.toNat + (fdtGetHeader m fdt .totalsize).toNat := by
    rw [UInt32.toNat_add]
    omega
  have hover : (decide (fdt < buf + UInt32.ofNat b.packedSize) &&
      decide (buf < fdt + fdtGetHeader m fdt .totalsize)) = decide (Overlap m fdt buf b) := by
    rw [show decide (Overlap m fdt buf b) = (decide (fdt.toNat < buf.toNat + b.packedSize) &&
      decide (buf.toNat < fdt.toNat + (fdtGetHeader m fdt .totalsize).toNat)) from Bool.decide_and _ _]
    simp only [UInt32.lt_iff_toNat_lt, hnew, hfdtend]
  unfold openReordered
  simp only [h.newsize_eq, hover, ofInt_ofNat bufsize (by omega)]
  rw [toInt_of_lt (by omega), hn, if_neg (by omega)]
  by_cases ho : Overlap m fdt buf b
  · have hlt : buf + UInt32.ofNat bufsize <
        fdt + fdtGetHeader m fdt .totalsize + UInt32.ofNat b.packedSize ↔ buf.toNat + bufsize <
          fdt.toNat + (fdtGetHeader m fdt .totalsize).toNat + b.packedSize := by
      rw [UInt32.lt_iff_toNat_lt, hend, toNat_add_ofNat (by omega), hfdtend]
    simp only [ho, decide_true, if_true, Bool.true_and, decide_eq_true_eq, hlt, true_and, packedAt,
      reorderedHeader]
  · simp only [ho, decide_false, Bool.false_and, if_false, false_and, packedAt, reorderedHeader]
    rfl

theorem Stored.openInto_reordered (ho : ¬InOrder m fdt b) :
    (¬Takes m fdt buf bufsize b → fdtOpenInto m fdt buf bufsize = some (errNoSpace, m)) ∧
      (Takes m fdt buf bufsize b → ∃ m', fdtOpenInto m fdt buf bufsize = some (0, m') ∧
        Opened m' buf bufsize b ∧ Within m m' buf bufsize ∧ Contiguous m' buf) := by
  have hmis : fdtBlocksMisordered m fdt (UInt32.ofNat b.rsv.length) (UInt32.ofNat b.dtStruct.length) =
      true := by
    rw [← Bool.not_eq_false, h.ordered_iff]
    exact ho
  rw [h.openInto_sized]
  unfold openSized
  rw [if_pos hmis]
  refine ⟨fun hno => ?_, fun htakes => ?_⟩
  · by_cases hle : b.packedSize ≤ bufsize
    · rw [h.reordered_eq hbuf hsmall hpacked hbehind hle, if_pos]
      by_contra hcon
      refine hno ⟨hle, fun hover => Nat.not_lt.mp fun hlt => hcon ⟨hover, hlt⟩⟩
    · rw [h.reordered_short hpacked (by omega)]
  · obtain ⟨hle, hroom⟩ := htakes
    have hsize : (UInt32.ofNat b.packedSize).toNat = b.packedSize := toNat_ofNat_of_lt (by omega)
    have hfdtend : (fdt + fdtGetHeader m fdt .totalsize).toNat =
        fdt.toNat + (fdtGetHeader m fdt .totalsize).toNat := by
      rw [UInt32.toNat_add]
      omega
    rw [h.reordered_eq hbuf hsmall hpacked hbehind hle, if_neg fun hshort => by
      have := hroom hshort.1
      omega]
    refine ⟨_, rfl, ?_⟩
    -- where the blocks are packed first, they lie beside the old tree and in the buffer
    have htmp : (packedAt m fdt buf b).toNat + b.packedSize ≤ buf.toNat + bufsize ∧
        buf.toNat ≤ (packedAt m fdt buf b).toNat ∧
        (fdt.toNat + (fdtGetHeader m fdt .totalsize).toNat ≤ (packedAt m fdt buf b).toNat ∨
          (packedAt m fdt buf b).toNat + b.packedSize ≤ fdt.toNat) := by
      unfold packedAt
      by_cases hover : Overlap m fdt buf b
      · have := hroom hover
        have := hover.2
        rw [if_pos hover, hfdtend]
        omega
      · have hn : ¬(fdt.toNat < buf.toNat + b.packedSize ∧
            buf.toNat < fdt.toNat + (fdtGetHeader m fdt .totalsize).toNat) := hover
        rw [if_neg hover]
        omega
    obtain ⟨hhi, hlo, hbeside⟩ := htmp
    obtain ⟨P, W⟩ := h.packblocks (packedAt m fdt buf b) (by omega) hbeside
    generalize fdtPackblocks m fdt (packedAt m fdt buf b) (UInt32.ofNat b.rsv.length)
      (UInt32.ofNat b.dtStruct.length) = m₁ at P W ⊢
    obtain ⟨hread, hw⟩ := @memmove_outside m₁ (packedAt m fdt buf b) buf (UInt32.ofNat b.packedSize)
      (by omega) (by omega) (by omega)
    rw [hsize] at hread hw
    generalize (memmove m₁ buf (packedAt m fdt buf b) (UInt32.ofNat b.packedSize)).2 = m₂ at hread hw ⊢
    generalize fdtGetHeader (fdtSetHdr _ buf .lastCompVersion 16) fdt .bootCpuidPhys = cpuid
    have hforty : b.packedSize = 40 + b.rsv.length + b.dtStruct.length + b.dtStrings.length := rfl
    have hbuf40 : buf.toNat + 40 ≤ 2 ^ 32 := by omega
    have hset : Within m₂ (reorderedHeader m₂ buf bufsize cpuid) buf 40 :=
      ((((within_setHdr_40 hbuf40 m₂ _ _).trans (within_setHdr_40 hbuf40 _ _ _)).trans
        (within_setHdr_40 hbuf40 _ _ _)).trans (within_setHdr_40 hbuf40 _ _ _)).trans
        (within_setHdr_40 hbuf40 _ _ _)
    obtain ⟨hopen, hcont⟩ : Opened (reorderedHeader m₂ buf bufsize cpuid) buf bufsize b ∧
        Contiguous (reorderedHeader m₂ buf bufsize cpuid) buf := by
      refine (P.moved hread).opened hset ?_ h.entries hle hbuf hsmall ?_ ?_ ?_ ?_
      · rintro f (rfl | rfl | rfl | rfl | rfl) <;>
          simp only [reorderedHeader, getHeader_set hbuf40, reduceCtorEq, if_false]
      · simp only [reorderedHeader, getHeader_set hbuf40, reduceCtorEq, if_false, if_true]
      · simp only [reorderedHeader, getHeader_set hbuf40, reduceCtorEq, if_false, if_true]
      · simp only [reorderedHeader, getHeader_set hbuf40, reduceCtorEq, if_false, if_true]
        decide
      · simp only [reorderedHeader, getHeader_set hbuf40, reduceCtorEq, if_false, if_true]
        exact toNat_ofNat_of_lt (by omega)
    exact ⟨hopen, ((W.mono hlo hhi).trans (hw.mono (Nat.le_refl _) (by omega))).trans
      (hset.mono (Nat.le_refl _) (by omega)), hcont⟩

end Reordered

end Babelfish.Libfdt
