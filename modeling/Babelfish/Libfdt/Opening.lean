import Babelfish.Libfdt.Ancestors
import Babelfish.Libfdt.OpenInto

/-! What a blob that `fdt_open_into` has opened is good for: its header passes the checks in front of
every call that changes it, and it represents the tree of the blob that it was opened from. -/

namespace Babelfish.Libfdt

open Bytes Strings Memory

def fdtView (m : Memory) (fdt : Addr) : Fdt :=
  let offStruct := fdtGetHeader m fdt .offDtStruct
  let offStrings := fdtGetHeader m fdt .offDtStrings
  let sizeStrings := fdtGetHeader m fdt .sizeDtStrings
  ⟨m.read (fdt + offStruct) (fdtGetHeader m fdt .sizeDtStruct).toNat,
    m.read (fdt + offStrings) sizeStrings.toNat,
    m.read (fdt + offStrings + sizeStrings)
      ((fdtGetHeader m fdt .totalsize).toNat - (offStrings.toNat + sizeStrings.toNat))⟩

/-- The buffer is large enough: for the whole old blob, or for its blocks if they have to be packed. -/
def Fits (m : Memory) (fdt buf : Addr) (bufsize : Nat) (b : Blocks) : Prop :=
  (InOrder m fdt b → (fdtGetHeader m fdt .totalsize).toNat ≤ bufsize) ∧
    (¬InOrder m fdt b → Takes m fdt buf bufsize b)

variable {m m' : Memory} {fdt buf : Addr} {b : Blocks} {bufsize : Nat} {T : DeviceTree}

namespace Opened

theorem rwCheck (h : Opened m buf bufsize b) : fdtRwCheckHeader m buf = (0, m) := by
  obtain ⟨n, hn, -⟩ := h.stored.entries
  have hsixteen : (16 : UInt32).toNat = 16 := rfl
  have ho := h.ordered
  have h₁ := ho.rsv
  have h₂ := ho.dtStruct
  have hmis : fdtBlocksMisordered m buf 16 (fdtGetHeader m buf .sizeDtStruct) = false := by
    rw [h.stored.misordered_iff (by omega) h.stored.structSize]
    exact ⟨h₁, by omega, ho.dtStrings⟩
  have hzero : ¬fdtCheckHeader m buf ≠ 0 := fun hne => hne h.stored.check
  have hmis' : ¬fdtBlocksMisordered m buf 16 (fdtGetHeader m buf .sizeDtStruct) = true := by
    rw [hmis]
    decide
  unfold fdtRwCheckHeader
  rw [h.version]
  simp only [if_neg hzero, if_neg hmis']
  rfl

theorem view_eq (h : Opened m buf bufsize b) : ∃ free,
    fdtView m buf = ⟨b.dtStruct, b.dtStrings, free⟩ ∧
      free.length + ((fdtGetHeader m buf .offDtStrings).toNat + b.dtStrings.length) = bufsize := by
  have hle := h.stored.dtStrings.le
  have hst := h.stored.dtStruct.holds
  have hss := h.stored.dtStrings.holds
  rw [← h.stored.structSize] at hst
  rw [← h.stored.stringsSize] at hss
  refine ⟨(fdtView m buf).free, by simp only [fdtView, hst, hss], ?_⟩
  simp only [fdtView, length_read, h.stored.stringsSize, h.totalsize]
  rw [h.totalsize] at hle
  omega

theorem repr (h : Opened m buf bufsize b) (hsmall : bufsize < 2147483648)
    (hr : Repr ⟨b.dtStruct, b.dtStrings, []⟩ T) : Repr (fdtView m buf) T := by
  obtain ⟨free, hview, hfree⟩ := h.view_eq
  have ho := h.ordered.dtStrings
  obtain ⟨ts, hat, henc⟩ := hr.enc
  rw [hview]
  refine ⟨⟨ts, ⟨hat.aligned, hat.le, hat.drop, hat.wf, hat.small⟩, henc⟩, hr.nodup, hr.rooted, ?_⟩
  simp only
  omega

end Opened

theorem Stored.num_eq (h : Stored m fdt b) (h' : Stored m' buf b) :
    fdtNumMemRsv m' buf = fdtNumMemRsv m fdt := by
  obtain ⟨n, hn, hlen⟩ := h.num
  obtain ⟨n', hn', hlen'⟩ := h'.num
  rw [hn, hn', show n' = n by omega]

/-- `fdt_open_into` opens a blob just if the buffer is large enough, and otherwise changes nothing: in the
buffer stands a blob with the same blocks in order, whose header passes the checks, with the same reserve
map and the same tree, and nothing is changed outside the buffer. -/
theorem Stored.openInto_iff (h : Stored m fdt b) (hbuf : buf.toNat + bufsize < 2 ^ 32)
    (hsmall : bufsize < 2 ^ 31) (hpacked : b.packedSize < 2 ^ 31)
    (hbehind : fdt.toNat + (fdtGetHeader m fdt .totalsize).toNat + b.packedSize < 2 ^ 32) :
    (¬Fits m fdt buf bufsize b → fdtOpenInto m fdt buf bufsize = some (errNoSpace, m)) ∧
      (Fits m fdt buf bufsize b → ∃ m', fdtOpenInto m fdt buf bufsize = some (0, m') ∧
        Opened m' buf bufsize b ∧ fdtRwCheckHeader m' buf = (0, m') ∧
        fdtNumMemRsv m' buf = fdtNumMemRsv m fdt ∧
        (∀ T, Repr ⟨b.dtStruct, b.dtStrings, []⟩ T → Repr (fdtView m' buf) T) ∧
        (¬InOrder m fdt b ∨ Contiguous m fdt → Contiguous m' buf) ∧ Within m m' buf bufsize) := by
  by_cases ho : InOrder m fdt b
  · constructor
    · intro hno
      refine h.openInto_short ho hsmall (Nat.not_le.mp fun hle => hno ⟨fun _ => hle, fun hn => ?_⟩)
      exact absurd ho hn
    · intro hfits
      obtain ⟨m', heq, hopen, hw, hkeep⟩ := h.openInto_ordered ho hbuf hsmall (hfits.1 ho)
      refine ⟨m', heq, hopen, hopen.rwCheck, h.num_eq hopen.stored, fun T hr => hopen.repr hsmall hr,
        fun hc => ?_, hw⟩
      rcases hc with hc | hc
      · exact absurd ho hc
      · rw [Contiguous, hkeep _ (by decide) (by decide), hkeep _ (by decide) (by decide),
          hkeep _ (by decide) (by decide)]
        exact hc
  · obtain ⟨hshort, hok⟩ := h.openInto_reordered hbuf hsmall hpacked hbehind ho
    constructor
    · exact fun hno => hshort fun ht => hno ⟨fun h' => absurd h' ho, fun _ => ht⟩
    · intro hfits
      obtain ⟨m', heq, hopen, hw, hcont⟩ := hok (hfits.2 ho)
      exact ⟨m', heq, hopen, hopen.rwCheck, h.num_eq hopen.stored, fun T hr => hopen.repr hsmall hr,
        fun _ => hcont, hw⟩

def reversedBlob : Bytes :=
  [0xd00dfeed, 80, 44, 40, 64, 17, 16, 0, 4, 16].flatMap be32 ++ (ofString "reg" ++ [0]) ++
    [1, 0, 2, 9].flatMap be32 ++ List.replicate 20 0

def reversedBlocks : Blocks := ⟨List.replicate 16 0, [1, 0, 2, 9].flatMap be32, ofString "reg" ++ [0]⟩

theorem reversedBlob_stored : Stored (Memory.ofBytes reversedBlob) 0 reversedBlocks where
  magic := by decide
  version := by decide
  lastComp := by decide
  fits := by decide
  small := by decide
  header := by decide
  entries := ⟨0, by decide, by decide, by decide⟩
  rsv := ⟨by decide, by decide⟩
  dtStruct := ⟨by decide, by decide⟩
  dtStrings := ⟨by decide, by decide⟩
  structSize := by decide
  stringsSize := by decide

theorem reversedBlob_fits : Fits (Memory.ofBytes reversedBlob) 0 40 120 reversedBlocks :=
  ⟨fun ho => absurd ho.dtStruct (by decide), fun _ => ⟨by decide, by decide⟩⟩

/-- The buffer begins in the middle of the old tree. -/
theorem Stored.openInto_iff_reversed : ∃ m',
    fdtOpenInto (Memory.ofBytes reversedBlob) 0 40 (120 : Nat) = some (0, m') ∧
      Opened m' 40 120 reversedBlocks := by
  obtain ⟨m', heq, hopen, -⟩ := (reversedBlob_stored.openInto_iff (by decide) (by decide) (by decide)
    (by decide)).2 reversedBlob_fits
  exact ⟨m', heq, hopen⟩

/-- The blocks of an opened blob are moved down one after the other, and none over one that is still to be
moved. -/
theorem Opened.packblocks (h : Opened m buf bufsize b) (hbuf : buf.toNat + bufsize < 2 ^ 32)
    (hsmall : bufsize < 2 ^ 31) :
    Packed (fdtPackblocks m buf buf (UInt32.ofNat b.rsv.length) (UInt32.ofNat b.dtStruct.length)) buf b ∧
      Within m (fdtPackblocks m buf buf (UInt32.ofNat b.rsv.length) (UInt32.ofNat b.dtStruct.length)) buf
        b.packedSize ∧
      ∀ f : HdrField, ¬f.ofBlocks → fdtGetHeader (fdtPackblocks m buf buf (UInt32.ofNat b.rsv.length)
        (UInt32.ofNat b.dtStruct.length)) buf f = fdtGetHeader m buf f := by
  have ho := h.ordered
  have ho₁ := ho.rsv
  have ho₂ := ho.dtStruct
  have ho₃ := ho.dtStrings
  have ht := h.totalsize
  have hle₁ := h.stored.rsv.le
  have hle₂ := h.stored.dtStruct.le
  have hle₃ := h.stored.dtStrings.le
  have hfits := h.stored.fits
  have hst := h.stored.small
  have hpacked : b.packedSize = 40 + b.rsv.length + b.dtStruct.length + b.dtStrings.length := rfl
  have hbuf40 : buf.toNat + 40 ≤ 2 ^ 32 := by omega
  have hforty : (40 : UInt32).toNat = 40 := rfl
  have hto₂ : (UInt32.ofNat (40 + b.rsv.length)).toNat = 40 + b.rsv.length :=
    toNat_ofNat_of_lt (by omega)
  have hto₃ : (UInt32.ofNat (40 + b.rsv.length + b.dtStruct.length)).toNat =
      40 + b.rsv.length + b.dtStruct.length := toNat_ofNat_of_lt (by omega)
  have hoff₂ : (40 : UInt32) + UInt32.ofNat b.rsv.length = UInt32.ofNat (40 + b.rsv.length) :=
    (UInt32.ofNat_add _ _).symm
  have hoff₃ : UInt32.ofNat (40 + b.rsv.length) + UInt32.ofNat b.dtStruct.length =
      UInt32.ofNat (40 + b.rsv.length + b.dtStruct.length) := (UInt32.ofNat_add _ _).symm
  simp only [fdtPackblocks, hoff₂, hoff₃]
  -- the reserve map
  have P₁ := packBlock_placed buf 40 h.stored.rsv hfits hst
    (toNat_ofNat_of_lt (show b.rsv.length < 2 ^ 32 by omega)) (Nat.le_of_eq hforty.symm) (by omega)
  generalize packBlock m buf buf .offMemRsvmap 40 (UInt32.ofNat b.rsv.length) = m₁ at P₁ ⊢
  have W₁ : Within m m₁ buf (40 + b.rsv.length) := P₁.within
  -- the structure block lies behind it
  have hstruct : BlockAt m₁ buf (fdtGetHeader m₁ buf .offDtStruct)
      (fdtGetHeader m buf .totalsize).toNat b.dtStruct := by
    rw [P₁.header, if_neg (by decide)]
    exact h.stored.dtStruct.within hfits W₁ (by omega)
  have P₂ := packBlock_placed buf (UInt32.ofNat (40 + b.rsv.length)) hstruct hfits hst
    (toNat_ofNat_of_lt (show b.dtStruct.length < 2 ^ 32 by omega)) (by omega) (by omega)
  generalize packBlock m₁ buf buf .offDtStruct (UInt32.ofNat (40 + b.rsv.length))
    (UInt32.ofNat b.dtStruct.length) = m₂ at P₂ ⊢
  have W₂ : Within m m₂ buf (40 + b.rsv.length + b.dtStruct.length) :=
    (W₁.mono (Nat.le_refl _) (by omega)).trans (P₂.within.mono (Nat.le_refl _) (by omega))
  have W₃ : Within m (fdtSetHdr m₂ buf .sizeDtStruct (UInt32.ofNat b.dtStruct.length)) buf
      (40 + b.rsv.length + b.dtStruct.length) :=
    W₂.trans ((within_setHdr_40 hbuf40 m₂ _ _).mono (Nat.le_refl _) (by omega))
  -- and the strings block behind both
  have hget : ∀ f : HdrField, f ≠ .offMemRsvmap → f ≠ .offDtStruct → f ≠ .sizeDtStruct →
      fdtGetHeader (fdtSetHdr m₂ buf .sizeDtStruct (UInt32.ofNat b.dtStruct.length)) buf f =
        fdtGetHeader m buf f := fun f h₁ h₂ h₃ => by
    rw [getHeader_set_ne hbuf40 _ (Ne.symm h₃), P₂.header, if_neg (Ne.symm h₂), P₁.header,
      if_neg (Ne.symm h₁)]
  have hstrings : BlockAt (fdtSetHdr m₂ buf .sizeDtStruct (UInt32.ofNat b.dtStruct.length)) buf
      (fdtGetHeader (fdtSetHdr m₂ buf .sizeDtStruct (UInt32.ofNat b.dtStruct.length)) buf .offDtStrings)
      (fdtGetHeader m buf .totalsize).toNat b.dtStrings := by
    rw [hget _ (by decide) (by decide) (by decide)]
    exact h.stored.dtStrings.within hfits W₃ (by omega)
  have P₃ := packBlock_placed buf (UInt32.ofNat (40 + b.rsv.length + b.dtStruct.length)) hstrings hfits hst
    ((congrArg UInt32.toNat (hget .sizeDtStrings (by decide) (by decide) (by decide))).trans
      h.stored.stringsSize) (by omega) (by omega)
  generalize packBlock (fdtSetHdr m₂ buf .sizeDtStruct (UInt32.ofNat b.dtStruct.length)) buf buf
    .offDtStrings (UInt32.ofNat (40 + b.rsv.length + b.dtStruct.length)) _ = m₃ at P₃ ⊢
  have W₄ : Within m m₃ buf b.packedSize :=
    (W₃.mono (Nat.le_refl _) (by omega)).trans (P₃.within.mono (Nat.le_refl _) (by omega))
  have hkeep : ∀ f : HdrField, f ≠ .offMemRsvmap → f ≠ .offDtStruct → f ≠ .sizeDtStruct →
      f ≠ .offDtStrings → fdtGetHeader m₃ buf f = fdtGetHeader m buf f := fun f h₁ h₂ h₃ h₄ => by
    rw [P₃.header, if_neg (Ne.symm h₄), hget f h₁ h₂ h₃]
  have hsize : fdtGetHeader m₃ buf .sizeDtStrings = UInt32.ofNat b.dtStrings.length := by
    rw [hkeep _ (by decide) (by decide) (by decide) (by decide), ← h.stored.stringsSize, UInt32.ofNat_toNat]
  rw [hsize]
  refine ⟨packed_of_placed (by omega) P₁ P₂ P₃,
    W₄.trans ((within_setHdr_40 hbuf40 m₃ _ _).mono (Nat.le_refl _) (by omega)), fun f hf => ?_⟩
  simp only [HdrField.ofBlocks, not_or] at hf
  rw [getHeader_set_ne hbuf40 _ (Ne.symm hf.2.2.2.2)]
  exact hkeep f hf.1 hf.2.1 hf.2.2.2.1 hf.2.2.1

theorem Opened.pack (h : Opened m buf bufsize b) (hbuf : buf.toNat + bufsize < 2 ^ 32)
    (hsmall : bufsize < 2 ^ 31) : ∃ m', fdtPack m buf = some (0, m') ∧ Opened m' buf b.packedSize b ∧
      Contiguous m' buf ∧ Within m m' buf b.packedSize ∧
      fdtGetHeader m' buf .offDtStrings = UInt32.ofNat (40 + b.rsv.length + b.dtStruct.length) := by
  obtain ⟨n, hnum, hn⟩ := h.stored.num
  obtain ⟨P, W, hkeep⟩ := h.packblocks hbuf hsmall
  have ho := h.ordered
  have ho₁ := ho.rsv
  have ho₂ := ho.dtStruct
  have ho₃ := ho.dtStrings
  have ht := h.totalsize
  have hle₃ := h.stored.dtStrings.le
  have hpacked : b.packedSize = 40 + b.rsv.length + b.dtStruct.length + b.dtStrings.length := rfl
  have hbuf40 : buf.toNat + 40 ≤ 2 ^ 32 := by omega
  have hsize : fdtGetHeader m buf .sizeDtStruct = UInt32.ofNat b.dtStruct.length := by
    rw [← h.stored.structSize, UInt32.ofNat_toNat]
  have heq : fdtPack m buf = some (0, fdtSetHdr (fdtPackblocks m buf buf (UInt32.ofNat b.rsv.length)
      (UInt32.ofNat b.dtStruct.length)) buf .totalsize (UInt32.ofNat b.packedSize)) := by
    unfold fdtPack
    rw [h.rwCheck]
    simp only [ne_eq, not_true_eq_false, if_false, hnum, Option.map_some, hn, hsize, P.offStrings,
      P.sizeStrings, hpacked, UInt32.ofNat_add]
  generalize fdtPackblocks m buf buf (UInt32.ofNat b.rsv.length) (UInt32.ofNat b.dtStruct.length) = m₁
    at P W hkeep heq
  have hset := within_setHdr_40 hbuf40 m₁ .totalsize (UInt32.ofNat b.packedSize)
  have hne : ∀ f : HdrField, f ≠ .totalsize → fdtGetHeader
      (fdtSetHdr m₁ buf .totalsize (UInt32.ofNat b.packedSize)) buf f = fdtGetHeader m₁ buf f :=
    fun f hf => getHeader_set_ne hbuf40 m₁ (Ne.symm hf) _
  obtain ⟨hopen, hcont⟩ := P.opened hset (fun f hf => hne f (by rintro rfl; simp [HdrField.ofBlocks] at hf))
    h.stored.entries (Nat.le_refl _) (by omega) (by omega)
    (by rw [hne _ (by decide), hkeep _ (by simp [HdrField.ofBlocks])]; exact h.stored.magic)
    (by rw [hne _ (by decide), hkeep _ (by simp [HdrField.ofBlocks])]; exact h.version)
    (by rw [hne _ (by decide), hkeep _ (by simp [HdrField.ofBlocks])]; exact h.stored.lastComp)
    (by rw [getHeader_set_self]; exact toNat_ofNat_of_lt (by omega))
  exact ⟨_, heq, hopen, hcont, W.trans (hset.mono (Nat.le_refl _) (by omega)),
    (hne _ (by decide)).trans P.offStrings⟩

/-- An opened blob is packed: it keeps its blocks, its reserve map and its tree, is just as large as they
are with the header, has nothing left behind them, and packing it again changes nothing that is read. -/
theorem Opened.pack_tight (h : Opened m buf bufsize b) (hbuf : buf.toNat + bufsize < 2 ^ 32)
    (hsmall : bufsize < 2 ^ 31) : ∃ m', fdtPack m buf = some (0, m') ∧ Opened m' buf b.packedSize b ∧
      fdtView m' buf = ⟨b.dtStruct, b.dtStrings, []⟩ ∧ fdtNumMemRsv m' buf = fdtNumMemRsv m buf ∧
      Within m m' buf bufsize ∧ ∃ m'', fdtPack m' buf = some (0, m'') ∧ fdtView m'' buf = fdtView m' buf := by
  have hle := h.stored.dtStrings.le
  have ho := h.ordered
  have ho₁ := ho.rsv
  have ho₂ := ho.dtStruct
  have ho₃ := ho.dtStrings
  have ht := h.totalsize
  have hpacked : b.packedSize = 40 + b.rsv.length + b.dtStruct.length + b.dtStrings.length := rfl
  have hview : ∀ {m₁ : Memory}, Opened m₁ buf b.packedSize b →
      fdtGetHeader m₁ buf .offDtStrings = UInt32.ofNat (40 + b.rsv.length + b.dtStruct.length) →
      fdtView m₁ buf = ⟨b.dtStruct, b.dtStrings, []⟩ := fun h₁ hoff => by
    obtain ⟨free, hv, hlen⟩ := h₁.view_eq
    rw [hoff, toNat_ofNat_of_lt (by omega)] at hlen
    have hfree : free = [] := List.eq_nil_of_length_eq_zero (by omega)
    rw [hv, hfree]
  obtain ⟨m', heq, hopen, -, hw, hoff⟩ := h.pack hbuf hsmall
  obtain ⟨m'', heq', hopen', -, -, hoff'⟩ := hopen.pack (by omega) (by omega)
  exact ⟨m', heq, hopen, hview hopen hoff, h.stored.num_eq hopen.stored, hw.mono (Nat.le_refl _) (by omega),
    m'', heq', (hview hopen' hoff').trans (hview hopen hoff).symm⟩

def gapBlob : Bytes :=
  [0xd00dfeed, 100, 64, 84, 44, 17, 16, 0, 4, 16].flatMap be32 ++ List.replicate 24 0 ++
    [1, 0, 2, 9].flatMap be32 ++ List.replicate 4 0 ++ (ofString "reg" ++ [0]) ++ List.replicate 12 0

theorem gapBlob_opened : Opened (Memory.ofBytes gapBlob) 0 100 reversedBlocks where
  stored := {
    magic := by decide
    version := by decide
    lastComp := by decide
    fits := by decide
    small := by decide
    header := by decide
    entries := ⟨0, by decide, by decide, by decide⟩
    rsv := ⟨by decide, by decide⟩
    dtStruct := ⟨by decide, by decide⟩
    dtStrings := ⟨by decide, by decide⟩
    structSize := by decide
    stringsSize := by decide }
  ordered := ⟨by decide, by decide, by decide⟩
  version := by decide
  totalsize := by decide

theorem Opened.pack_tight_gap : ∃ m', fdtPack (Memory.ofBytes gapBlob) 0 = some (0, m') ∧
    Opened m' 0 76 reversedBlocks := by
  obtain ⟨m', heq, hopen, -⟩ := gapBlob_opened.pack_tight (by decide) (by decide)
  exact ⟨m', heq, hopen⟩

end Babelfish.Libfdt
