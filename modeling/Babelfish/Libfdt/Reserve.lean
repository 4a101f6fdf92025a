import Babelfish.Libfdt.Opening
import Babelfish.Strings.Splice

/-! The memory reserve map of an opened blob: `fdt_add_mem_rsv` and `fdt_del_mem_rsv` of `fdt_rw.c`, which
move everything behind an entry. -/

namespace Babelfish.Libfdt

open Bytes Strings Memory

def be64 (n : Nat) : Bytes := be32 (n / 4294967296) ++ be32 n

def fdtDataSize (m : Memory) (fdt : Addr) : UInt32 :=
  fdtGetHeader m fdt .offDtStrings + fdtGetHeader m fdt .sizeDtStrings

def fdtSpliceMemRsv (m : Memory) (fdt p : Addr) (oldn newn : Nat) : Int × Memory :=
  let delta := UInt32.ofNat (16 * newn) - UInt32.ofNat (16 * oldn)
  let r := fdtSplice m (fdt + fdtDataSize m fdt) (fdt + fdtGetHeader m fdt .totalsize) p
    (UInt32.ofNat (16 * oldn)) (UInt32.ofNat (16 * newn))
  if r.1 ≠ 0 then r
  else
    let m := fdtSetHdr r.2 fdt .offDtStruct (fdtGetHeader r.2 fdt .offDtStruct + delta)
    (0, fdtSetHdr m fdt .offDtStrings (fdtGetHeader m fdt .offDtStrings + delta))

def fdtAddMemRsv (m : Memory) (fdt : Addr) (address size : UInt64) : Option (Int × Memory) :=
  let r := fdtRwCheckHeader m fdt
  if r.1 ≠ 0 then some r
  else
    (fdtNumMemRsv r.2 fdt).map fun n =>
      let re := fdtMemRsv r.2 fdt n
      let s := fdtSpliceMemRsv r.2 fdt re 0 1
      if s.1 ≠ 0 then s
      else (0, (s.2.store re (be64 address.toNat)).store (re + 8) (be64 size.toNat))

/-- `_fdt_mem_rsv_w`; a negative index leads in front of the map. -/
def fdtMemRsvW (m : Memory) (fdt : Addr) (n : Int) : Addr :=
  fdt + fdtGetHeader m fdt .offMemRsvmap + UInt32.ofInt (16 * n)

def fdtDelMemRsv (m : Memory) (fdt : Addr) (n : Int) : Option (Int × Memory) :=
  let re := fdtMemRsvW m fdt n
  let r := fdtRwCheckHeader m fdt
  if r.1 ≠ 0 then some r
  else
    (fdtNumMemRsv r.2 fdt).map fun (num : Nat) =>
      if (num : Int) ≤ n then (errNotFound, r.2) else fdtSpliceMemRsv r.2 fdt re 1 0

theorem fdtMemRsvW_natCast (m : Memory) (fdt : Addr) (n : Nat) : fdtMemRsvW m fdt n = fdtMemRsv m fdt n := by
  have hcast : UInt32.ofInt (16 * n) = UInt32.ofNat (16 * n) := by
    apply UInt32.toNat_inj.mp
    rw [UInt32.ofInt, UInt32.toNat_ofNat', UInt32.toNat_ofNat']
    omega
  rw [fdtMemRsvW, fdtMemRsv, hcast]

variable {m m' : Memory} {buf : Addr} {b : Blocks} {bufsize : Nat}

theorem splice_moved {size limit p old new : Nat} (hspace : buf.toNat + limit < 2 ^ 31)
    (hle : size ≤ limit) (hin : p + old ≤ size) (hnew : new < 2 ^ 31) (hroom : size + new ≤ limit + old) :
    ∃ m₁, fdtSplice m (buf + UInt32.ofNat size) (buf + UInt32.ofNat limit) (buf + UInt32.ofNat p)
        (UInt32.ofNat old) (UInt32.ofNat new) = (0, m₁) ∧
      (∀ k l, p + old ≤ k → k + l ≤ size →
        m₁.read (buf + UInt32.ofNat (k - old + new)) l = m.read (buf + UInt32.ofNat k) l) ∧
      Within m m₁ (buf + UInt32.ofNat (p + new)) (size - (p + old)) := by
  have hbad := badOffset_iff (show buf.toNat + size < 2 ^ 31 by omega) (show p < 2 ^ 31 by omega)
    (show old < 2 ^ 31 by omega)
  have hfull := noSpace_iff hspace hle (show old ≤ size by omega) hnew
  have hdest : (buf + UInt32.ofNat (p + new)).toNat = buf.toNat + (p + new) := toNat_add_ofNat (by omega)
  have hsrc : (buf + UInt32.ofNat (p + old)).toNat = buf.toNat + (p + old) := toNat_add_ofNat (by omega)
  have hcount := toNat_moved (show buf.toNat + size < 2 ^ 31 by omega) hin
  have hmoved := (@memmove_spec m (buf + UInt32.ofNat (p + new)) (buf + UInt32.ofNat (p + old)) _
    (by rw [hcount]; omega) (by rw [hcount, hdest]; omega) (by rw [hcount, hsrc]; omega)).2
  rw [hcount] at hmoved
  obtain ⟨hread, hw⟩ := hmoved.outside (by rw [hdest]; omega)
  unfold fdtSplice
  rw [if_neg (mt hbad.mp (by omega)), if_neg (mt hfull.mp (by omega)), add_ofNat_add, add_ofNat_add]
  refine ⟨_, rfl, fun k l hk hkl => ?_, hw⟩
  have hpart := read_part (i := k - (p + old)) (k := l) hread (by omega)
  rw [add_ofNat_add, add_ofNat_add] at hpart
  rwa [show p + new + (k - (p + old)) = k - old + new by omega,
    show p + old + (k - (p + old)) = k by omega] at hpart

theorem toNat_moved_off {x : UInt32} {old new : Nat} (hold : old ≤ x.toNat)
    (hnew : x.toNat + new < 2 ^ 32) :
    (x + (UInt32.ofNat new - UInt32.ofNat old)).toNat = x.toNat - old + new := by
  rw [UInt32.toNat_add, UInt32.toNat_sub, toNat_ofNat_of_lt (by omega), toNat_ofNat_of_lt (by omega)]
  omega

theorem Opened.spliceMemRsv (h : Opened m buf bufsize b) (hspace : buf.toNat + bufsize < 2 ^ 31)
    {p oldn newn : Nat} (hp : (fdtGetHeader m buf .offMemRsvmap).toNat ≤ p)
    (hin : p + 16 * oldn ≤ (fdtGetHeader m buf .offDtStruct).toNat) (hnew : newn ≤ 1)
    (hroom : (fdtGetHeader m buf .offDtStrings).toNat + b.dtStrings.length + 16 * newn ≤
      bufsize + 16 * oldn) :
    ∃ m₂, fdtSpliceMemRsv m buf (buf + UInt32.ofNat p) oldn newn = (0, m₂) ∧
      (∀ f, fdtGetHeader m₂ buf f =
        if f = .offDtStruct ∨ f = .offDtStrings then
          fdtGetHeader m buf f + (UInt32.ofNat (16 * newn) - UInt32.ofNat (16 * oldn))
        else fdtGetHeader m buf f) ∧
      (∀ k l, 40 ≤ k → k + l ≤ p + 16 * newn →
        m₂.read (buf + UInt32.ofNat k) l = m.read (buf + UInt32.ofNat k) l) ∧
      (∀ k l, p + 16 * oldn ≤ k →
        k + l ≤ (fdtGetHeader m buf .offDtStrings).toNat + b.dtStrings.length →
        m₂.read (buf + UInt32.ofNat (k - 16 * oldn + 16 * newn)) l = m.read (buf + UInt32.ofNat k) l) ∧
      Within m m₂ buf bufsize := by
  have ho := h.ordered
  have ho₁ := ho.rsv
  have ho₂ := ho.dtStruct
  have ho₃ := ho.dtStrings
  have ht := h.totalsize
  have hle := h.stored.dtStrings.le
  have hbuf40 : buf.toNat + 40 ≤ 2 ^ 32 := by omega
  have hdata : buf + fdtDataSize m buf = buf +
      UInt32.ofNat ((fdtGetHeader m buf .offDtStrings).toNat + b.dtStrings.length) := by
    rw [fdtDataSize, UInt32.ofNat_add, UInt32.ofNat_toNat, ← h.stored.stringsSize, UInt32.ofNat_toNat]
  have hlimit : buf + fdtGetHeader m buf .totalsize = buf + UInt32.ofNat bufsize := by
    rw [← ht, UInt32.ofNat_toNat]
  obtain ⟨m₁, heq, hmoved, hw⟩ := @splice_moved m buf
    ((fdtGetHeader m buf .offDtStrings).toNat + b.dtStrings.length) bufsize p (16 * oldn) (16 * newn) hspace
    (by omega) (by omega) (by omega) hroom
  have hdest : (buf + UInt32.ofNat (p + 16 * newn)).toNat = buf.toNat + (p + 16 * newn) :=
    toNat_add_ofNat (by omega)
  have hget : ∀ f, fdtGetHeader m₁ buf f = fdtGetHeader m buf f :=
    getHeader_within hbuf40 hw (by omega)
  unfold fdtSpliceMemRsv
  simp only [hdata, hlimit, heq, ne_eq, not_true_eq_false, if_false]
  refine ⟨_, rfl, fun f => ?_, fun k l hk hkl => ?_, fun k l hk hkl => ?_, ?_⟩
  · simp only [getHeader_set hbuf40, reduceCtorEq, if_false, hget]
    cases f <;> simp
  · have haddr : (buf + UInt32.ofNat k).toNat = buf.toNat + k := toNat_add_ofNat (by omega)
    rw [read_setHdr hk (by omega), read_setHdr hk (by omega), hw.read_eq (by omega) (by omega)]
  · rw [read_setHdr (by omega) (by omega), read_setHdr (by omega) (by omega), hmoved k l hk hkl]
  · exact (hw.mono (by omega) (by omega)).trans
      (((within_setHdr_40 hbuf40 m₁ _ _).trans (within_setHdr_40 hbuf40 _ _ _)).mono (Nat.le_refl _)
        (by omega))

theorem Opened.spliceMemRsv_full (h : Opened m buf bufsize b) (hspace : buf.toNat + bufsize < 2 ^ 31)
    {p : Nat} (hin : p ≤ (fdtGetHeader m buf .offDtStruct).toNat)
    (hfull : bufsize < (fdtGetHeader m buf .offDtStrings).toNat + b.dtStrings.length + 16) :
    fdtSpliceMemRsv m buf (buf + UInt32.ofNat p) 0 1 = (errNoSpace, m) := by
  have ho₃ := h.ordered.dtStrings
  have ht := h.totalsize
  have hle := h.stored.dtStrings.le
  have hdata : buf + fdtDataSize m buf = buf +
      UInt32.ofNat ((fdtGetHeader m buf .offDtStrings).toNat + b.dtStrings.length) := by
    rw [fdtDataSize, UInt32.ofNat_add, UInt32.ofNat_toNat, ← h.stored.stringsSize, UInt32.ofNat_toNat]
  have hlimit : buf + fdtGetHeader m buf .totalsize = buf + UInt32.ofNat bufsize := by
    rw [← ht, UInt32.ofNat_toNat]
  have hbad := badOffset_iff (show buf.toNat +
    ((fdtGetHeader m buf .offDtStrings).toNat + b.dtStrings.length) < 2 ^ 31 by omega)
    (show p < 2 ^ 31 by omega) (show 16 * 0 < 2 ^ 31 by omega)
  have hno := noSpace_iff hspace
    (show (fdtGetHeader m buf .offDtStrings).toNat + b.dtStrings.length ≤ bufsize by omega)
    (show 16 * 0 ≤ (fdtGetHeader m buf .offDtStrings).toNat + b.dtStrings.length by omega)
    (show 16 * 1 < 2 ^ 31 by omega)
  have heq : fdtSplice m (buf + fdtDataSize m buf) (buf + fdtGetHeader m buf .totalsize)
      (buf + UInt32.ofNat p) (UInt32.ofNat (16 * 0)) (UInt32.ofNat (16 * 1)) = (errNoSpace, m) := by
    unfold fdtSplice
    rw [hdata, hlimit, if_neg (mt hbad.mp (by omega)), if_pos (hno.mpr (by omega))]
  unfold fdtSpliceMemRsv
  simp only [heq, errNoSpace]
  rw [if_pos (by decide)]

theorem Opened.replaced {rsv rsv' st ss : Bytes} {o n : Nat} (h : Opened m buf bufsize ⟨rsv, st, ss⟩)
    (hspace : buf.toNat + bufsize < 2 ^ 31)
    (hget : ∀ f, fdtGetHeader m' buf f = if f = .offDtStruct ∨ f = .offDtStrings then
      fdtGetHeader m buf f + (UInt32.ofNat n - UInt32.ofNat o) else fdtGetHeader m buf f)
    (hread : m'.read (buf + fdtGetHeader m buf .offMemRsvmap) rsv'.length = rsv')
    (hmove : ∀ k l, (fdtGetHeader m buf .offDtStruct).toNat ≤ k →
      k + l ≤ (fdtGetHeader m buf .offDtStrings).toNat + ss.length →
      m'.read (buf + UInt32.ofNat (k - o + n)) l = m.read (buf + UInt32.ofNat k) l)
    (hlen : rsv'.length + o = rsv.length + n) (ho : o ≤ rsv.length) (hn : n ≤ 16)
    (hentries : ReserveMap rsv')
    (hroom : (fdtGetHeader m buf .offDtStrings).toNat + ss.length + n ≤ bufsize + o) :
    Opened m' buf bufsize ⟨rsv', st, ss⟩ := by
  have hd := h.ordered
  have hd₁ : 40 ≤ (fdtGetHeader m buf .offMemRsvmap).toNat := hd.rsv
  have hd₂ : (fdtGetHeader m buf .offMemRsvmap).toNat + rsv.length ≤
    (fdtGetHeader m buf .offDtStruct).toNat := hd.dtStruct
  have hd₃ : (fdtGetHeader m buf .offDtStruct).toNat + st.length ≤
    (fdtGetHeader m buf .offDtStrings).toNat := hd.dtStrings
  have hle : (fdtGetHeader m buf .offDtStrings).toNat + ss.length ≤
    (fdtGetHeader m buf .totalsize).toNat := h.stored.dtStrings.le
  have ht := h.totalsize
  have hkeep : ∀ f : HdrField, f ≠ .offDtStruct → f ≠ .offDtStrings →
      fdtGetHeader m' buf f = fdtGetHeader m buf f := fun f h₁ h₂ => by
    rw [hget, if_neg (not_or.mpr ⟨h₁, h₂⟩)]
  have hs : fdtGetHeader m' buf .offDtStruct =
      fdtGetHeader m buf .offDtStruct + (UInt32.ofNat n - UInt32.ofNat o) := by
    rw [hget, if_pos (Or.inl rfl)]
  have hss : fdtGetHeader m' buf .offDtStrings =
      fdtGetHeader m buf .offDtStrings + (UInt32.ofNat n - UInt32.ofNat o) := by
    rw [hget, if_pos (Or.inr rfl)]
  have hns := toNat_moved_off (x := fdtGetHeader m buf .offDtStruct) (show o ≤ _ by omega)
    (show _ + n < 2 ^ 32 by omega)
  have hnss := toNat_moved_off (x := fdtGetHeader m buf .offDtStrings) (show o ≤ _ by omega)
    (show _ + n < 2 ^ 32 by omega)
  have hblock : ∀ {x : UInt32} {bs : Bytes}, (fdtGetHeader m buf .offDtStruct).toNat ≤ x.toNat →
      x.toNat + bs.length ≤ (fdtGetHeader m buf .offDtStrings).toNat + ss.length →
      m.read (buf + x) bs.length = bs →
      (x + (UInt32.ofNat n - UInt32.ofNat o)).toNat = x.toNat - o + n →
      BlockAt m' buf (x + (UInt32.ofNat n - UInt32.ofNat o)) bufsize bs := fun hx hxl hxr hxn => by
    refine ⟨by omega, ?_⟩
    have hmoved := hmove _ _ hx hxl
    rw [← hxn, UInt32.ofNat_toNat, UInt32.ofNat_toNat, hxr] at hmoved
    exact hmoved
  refine Opened.of_within (Within.refl m' buf 40) (by omega) (by omega) hentries ?_ ?_ ?_ ⟨?_, ?_, ?_⟩
    ?_ ?_ ?_ ?_ ?_ ?_
  · rw [hkeep _ (by decide) (by decide)]
    exact ⟨by simp only; omega, hread⟩
  · rw [hs]
    change BlockAt m' buf _ bufsize st
    exact hblock (Nat.le_refl _) (by omega) h.stored.dtStruct.holds hns
  · rw [hss]
    change BlockAt m' buf _ bufsize ss
    exact hblock (by omega) (Nat.le_refl _) h.stored.dtStrings.holds hnss
  · rw [hkeep _ (by decide) (by decide)]
    exact hd₁
  · rw [hkeep _ (by decide) (by decide), hs, hns]
    change _ + rsv'.length ≤ _
    omega
  · rw [hs, hss, hns, hnss]
    change _ + st.length ≤ _
    omega
  · rw [hkeep _ (by decide) (by decide)]
    exact h.stored.magic
  · rw [hkeep _ (by decide) (by decide)]
    exact h.version
  · rw [hkeep _ (by decide) (by decide)]
    exact h.stored.lastComp
  · rw [hkeep _ (by decide) (by decide)]
    exact ht
  · rw [hkeep _ (by decide) (by decide)]
    exact h.stored.structSize
  · rw [hkeep _ (by decide) (by decide)]
    exact h.stored.stringsSize

/-- An address and a size. -/
abbrev RsvEntry := UInt64 × UInt64

def RsvEntry.bytes (e : RsvEntry) : Bytes := be64 e.1.toNat ++ be64 e.2.toNat

def rsvBytes (es : List RsvEntry) : Bytes := es.flatMap RsvEntry.bytes

def EndsMap (t : Bytes) : Prop := t.length = 16 ∧ readBe64 (t.drop 8) = 0

theorem length_rsvBytes (es : List RsvEntry) : (rsvBytes es).length = 16 * es.length := by
  induction es with
  | nil => rfl
  | cons e es ih =>
    have he : (RsvEntry.bytes e).length = 16 := rfl
    rw [rsvBytes, List.flatMap_cons, List.length_append, ← rsvBytes, ih, he, List.length_cons]
    omega

theorem rsvBytes_append (es es' : List RsvEntry) : rsvBytes (es ++ es') = rsvBytes es ++ rsvBytes es' :=
  List.flatMap_append

theorem rsvBytes_split {es : List RsvEntry} {i : Nat} (hi : i < es.length) :
    rsvBytes es = rsvBytes (es.take i) ++ (es[i].bytes ++ rsvBytes (es.drop (i + 1))) := by
  conv_lhs => rw [← List.take_append_drop i es, ← List.getElem_cons_drop hi]
  rw [rsvBytes_append]
  rfl

theorem readBe64_be64 {n : Nat} (h : n < 2 ^ 64) (bs : Bytes) : readBe64 (be64 n ++ bs) = n := by
  have hlow : be32 n = be32 (n % 4294967296) := by
    simp only [be32, List.cons.injEq, and_true]
    refine ⟨?_, ?_, ?_, ?_⟩ <;>
      exact UInt8.toNat_inj.mp (by simp only [UInt8.toNat_ofNat']; omega)
  have hdrop : (be64 n ++ bs).drop 4 = be32 n ++ bs := rfl
  rw [readBe64, hdrop, be64, List.append_assoc, readBe32_be32 (by omega), hlow, readBe32_be32 (by omega)]
  omega

theorem reserveMap_rsvBytes {es : List RsvEntry} {t : Bytes} (he : ∀ e ∈ es, e.2 ≠ 0) (ht : EndsMap t) :
    ReserveMap (rsvBytes es ++ t) := by
  have hlen := length_rsvBytes es
  refine ⟨es.length, by rw [List.length_append, hlen, ht.1]; omega, fun i hi => ?_, ?_⟩
  · have htake := length_rsvBytes (es.take i)
    rw [List.length_take, Nat.min_eq_left (Nat.le_of_lt hi)] at htake
    have hpre : (rsvBytes (es.take i) ++ be64 (es[i].1).toNat).length = 16 * i + 8 := by
      rw [List.length_append, htake]
      rfl
    rw [rsvBytes_split hi, RsvEntry.bytes, List.append_assoc, List.append_assoc, List.append_assoc,
      ← List.append_assoc (rsvBytes _), ← hpre, List.drop_left, readBe64_be64 (UInt64.toNat_lt _)]
    exact fun hz => he _ (List.getElem_mem hi) (UInt64.toNat_inj.mp hz)
  · rw [← hlen, List.drop_append, List.drop_eq_nil_of_le (Nat.le_add_right _ _), List.nil_append,
      Nat.add_sub_cancel_left]
    exact ht.2

theorem rsvBytes_eraseIdx (es : List RsvEntry) (i : Nat) :
    rsvBytes (es.eraseIdx i) = rsvBytes (es.take i) ++ rsvBytes (es.drop (i + 1)) := by
  rw [List.eraseIdx_eq_take_drop_succ, rsvBytes_append]

theorem memRsv_eq (m : Memory) (buf : Addr) (i : Nat) : fdtMemRsv m buf i =
    buf + UInt32.ofNat ((fdtGetHeader m buf .offMemRsvmap).toNat + 16 * i) := by
  rw [fdtMemRsv, UInt32.ofNat_add, UInt32.ofNat_toNat, UInt32.add_assoc]

/-- An opened blob with these entries, an end of the reserve map and some room behind the blocks. -/
structure MapAt (m : Memory) (buf : Addr) (bufsize : Nat) (t st ss : Bytes) (es : List RsvEntry)
    (room : Nat) : Prop where
  opened : Opened m buf bufsize ⟨rsvBytes es ++ t, st, ss⟩
  sized : ∀ e ∈ es, e.2 ≠ 0
  ends : EndsMap t
  room : (fdtGetHeader m buf .offDtStrings).toNat + ss.length + room = bufsize

namespace MapAt

variable {t st ss : Bytes} {es : List RsvEntry} {room : Nat} (h : MapAt m buf bufsize t st ss es room)

include h

theorem numMemRsv : fdtNumMemRsv m buf = some es.length := by
  obtain ⟨n, hn, hlen⟩ := h.opened.stored.num
  simp only [List.length_append, length_rsvBytes, h.ends.1] at hlen
  rw [hn, show n = es.length by omega]

theorem bounds : 40 ≤ (fdtGetHeader m buf .offMemRsvmap).toNat ∧
    (fdtGetHeader m buf .offMemRsvmap).toNat + (16 * es.length + 16) ≤
      (fdtGetHeader m buf .offDtStruct).toNat ∧
    (fdtGetHeader m buf .offDtStruct).toNat + st.length ≤ (fdtGetHeader m buf .offDtStrings).toNat := by
  have hrest := h.opened.ordered.dtStruct
  simp only [List.length_append, length_rsvBytes, h.ends.1] at hrest
  exact ⟨h.opened.ordered.rsv, hrest, h.opened.ordered.dtStrings⟩

variable (hspace : buf.toNat + bufsize < 2 ^ 31)

include hspace

theorem del {i : Nat} (hi : i < es.length) : ∃ m', fdtDelMemRsv m buf i = some (0, m') ∧
    MapAt m' buf bufsize t st ss (es.eraseIdx i) (room + 16) ∧ Within m m' buf bufsize := by
  obtain ⟨hd₁, hd₂, hd₃⟩ := h.bounds
  have hroom := h.room
  have hlen := length_rsvBytes es
  have htake := length_rsvBytes (es.take i)
  have hdrop := length_rsvBytes (es.drop (i + 1))
  have herase := length_rsvBytes (es.eraseIdx i)
  rw [List.length_take, Nat.min_eq_left (Nat.le_of_lt hi)] at htake
  rw [List.length_drop] at hdrop
  rw [List.length_eraseIdx_of_lt hi] at herase
  have hsized : ∀ e ∈ es.eraseIdx i, e.2 ≠ 0 := fun e he => h.sized e (List.mem_of_mem_eraseIdx he)
  obtain ⟨m₂, heq, hget, hfront, hback, hw⟩ := @Opened.spliceMemRsv m buf ⟨rsvBytes es ++ t, st, ss⟩ bufsize
    h.opened hspace ((fdtGetHeader m buf .offMemRsvmap).toNat + 16 * i) 1 0 (Nat.le_add_right _ _)
    (by omega) (by omega) (by simp only; omega)
  have hblock := h.opened.stored.rsv.holds
  simp only at hfront hback hblock
  have hread : m₂.read (buf + fdtGetHeader m buf .offMemRsvmap) (rsvBytes (es.eraseIdx i) ++ t).length =
      rsvBytes (es.eraseIdx i) ++ t := by
    rw [rsvBytes_split hi, List.append_assoc, List.append_assoc] at hblock
    obtain ⟨htakeAt, hrest⟩ := holds_append.mp hblock
    obtain ⟨-, hdropAt⟩ := holds_append.mp hrest
    have hentry : (es[i].bytes).length = 16 := rfl
    rw [htake, hentry, add_ofNat_add] at hdropAt
    have hkept := hfront (fdtGetHeader m buf .offMemRsvmap).toNat (16 * i) hd₁ (by omega)
    have hmoved := hback ((fdtGetHeader m buf .offMemRsvmap).toNat + 16 * i + 16)
      (rsvBytes (es.drop (i + 1)) ++ t).length (by omega)
      (by rw [List.length_append, hdrop, h.ends.1]; omega)
    rw [UInt32.ofNat_toNat, ← htake] at hkept
    rw [show (fdtGetHeader m buf .offMemRsvmap).toNat + 16 * i + 16 - 16 * 1 + 16 * 0 =
      (fdtGetHeader m buf .offMemRsvmap).toNat + 16 * i by omega, Nat.add_assoc, UInt32.ofNat_add,
      UInt32.ofNat_toNat, UInt32.ofNat_add, UInt32.ofNat_toNat, ← UInt32.add_assoc,
      ← UInt32.add_assoc] at hmoved
    rw [rsvBytes_eraseIdx, List.append_assoc]
    refine holds_append.mpr ⟨hkept.trans htakeAt, ?_⟩
    rw [htake]
    exact hmoved.trans hdropAt
  refine ⟨m₂, ?_, ⟨?_, hsized, h.ends, ?_⟩, hw⟩
  · unfold fdtDelMemRsv
    have hnot : ¬(es.length : Int) ≤ i := by omega
    simp only [h.opened.rwCheck, ne_eq, not_true_eq_false, if_false, h.numMemRsv, Option.map_some,
      if_neg hnot, fdtMemRsvW_natCast, memRsv_eq, heq]
  · refine @Opened.replaced m m₂ buf bufsize (rsvBytes es ++ t) (rsvBytes (es.eraseIdx i) ++ t) st ss
      (16 * 1) (16 * 0) h.opened hspace hget hread (fun k l hk hkl => hback k l (by omega) hkl) ?_ ?_ (by omega)
      (reserveMap_rsvBytes hsized h.ends) (by omega)
    · simp only [List.length_append, herase, hlen]
      omega
    · simp only [List.length_append, hlen, h.ends.1]
      omega
  · rw [hget, if_pos (Or.inr rfl), toNat_moved_off (by omega) (by omega)]
    omega

theorem add {address size : UInt64} (hsize : size ≠ 0) (hfits : 16 ≤ room) :
    ∃ m', fdtAddMemRsv m buf address size = some (0, m') ∧
      MapAt m' buf bufsize t st ss (es ++ [(address, size)]) (room - 16) ∧ Within m m' buf bufsize := by
  obtain ⟨hd₁, hd₂, hd₃⟩ := h.bounds
  have hroom := h.room
  have hlen := length_rsvBytes es
  have hlen' := length_rsvBytes (es ++ [(address, size)])
  rw [List.length_append, List.length_singleton] at hlen'
  have hsized : ∀ e ∈ es ++ [(address, size)], e.2 ≠ 0 := fun e he => by
    rcases List.mem_append.mp he with he | he
    · exact h.sized e he
    · rw [List.mem_singleton.mp he]
      exact hsize
  obtain ⟨m₂, heq, hget, hfront, hback, hw⟩ := @Opened.spliceMemRsv m buf ⟨rsvBytes es ++ t, st, ss⟩ bufsize
    h.opened hspace ((fdtGetHeader m buf .offMemRsvmap).toNat + 16 * es.length) 0 1 (Nat.le_add_right _ _)
    (by omega) (by omega) (by simp only; omega)
  have hblock := h.opened.stored.rsv.holds
  simp only at hfront hback hblock
  -- the new entry is written behind the others
  generalize hre :
    buf + UInt32.ofNat ((fdtGetHeader m buf .offMemRsvmap).toNat + 16 * es.length) = re at heq
  have hreNat : re.toNat = buf.toNat + ((fdtGetHeader m buf .offMemRsvmap).toNat + 16 * es.length) := by
    rw [← hre]
    exact toNat_add_ofNat (by omega)
  have height : (re + 8).toNat = re.toNat + 8 := @toNat_add_ofNat re 8 (by omega)
  generalize hm₃ : (m₂.store re (be64 address.toNat)).store (re + 8) (be64 size.toNat) = m₃
  have hw₁ : Within m₂ (m₂.store re (be64 address.toNat)) re 8 :=
    @within_store re (be64 address.toNat) m₂ (show re.toNat + 8 ≤ _ by omega)
  have hw₂ : Within (m₂.store re (be64 address.toNat)) m₃ (re + 8) 8 := by
    rw [← hm₃]
    exact @within_store (re + 8) (be64 size.toNat) _ (show (re + 8).toNat + 8 ≤ _ by omega)
  have hw₃ : Within m₂ m₃ re 16 :=
    (hw₁.mono (Nat.le_refl _) (by omega)).trans (hw₂.mono (by omega) (by omega))
  have hentry : m₃.read re 16 = RsvEntry.bytes (address, size) := by
    have hfirst : m₃.read re 8 = be64 address.toNat := by
      rw [hw₂.read_eq (by omega) (by omega)]
      exact @read_store (be64 address.toNat) m₂ re (show 8 ≤ _ by decide)
    have hsecond : m₃.read (re + UInt32.ofNat 8) 8 = be64 size.toNat := by
      rw [← hm₃]
      exact @read_store (be64 size.toNat) _ (re + 8) (show 8 ≤ _ by decide)
    rw [show 16 = 8 + 8 from rfl, read_add, hfirst, hsecond]
    rfl
  have hget₃ : ∀ f, fdtGetHeader m₃ buf f = fdtGetHeader m₂ buf f :=
    getHeader_within (by omega) hw₃ (by omega)
  have hread : m₃.read (buf + fdtGetHeader m buf .offMemRsvmap)
      (rsvBytes (es ++ [(address, size)]) ++ t).length = rsvBytes (es ++ [(address, size)]) ++ t := by
    obtain ⟨hesAt, hendsAt⟩ := holds_append.mp hblock
    have hoff : buf + fdtGetHeader m buf .offMemRsvmap + UInt32.ofNat (rsvBytes es).length = re := by
      rw [hlen, ← hre, UInt32.ofNat_add, UInt32.ofNat_toNat, UInt32.add_assoc]
    have hkept := hfront (fdtGetHeader m buf .offMemRsvmap).toNat (16 * es.length) hd₁ (by omega)
    have hmoved := hback ((fdtGetHeader m buf .offMemRsvmap).toNat + 16 * es.length) 16 (by omega) (by omega)
    rw [UInt32.ofNat_toNat, ← hlen] at hkept
    rw [Nat.mul_zero, Nat.sub_zero, Nat.mul_one, ← add_ofNat_add, hre] at hmoved
    have haddr : (buf + fdtGetHeader m buf .offMemRsvmap).toNat =
        buf.toNat + (fdtGetHeader m buf .offMemRsvmap).toNat :=
      h.opened.stored.rsv.toNat_addr (by have := h.opened.totalsize; omega)
    have hbehind : (re + UInt32.ofNat 16).toNat = re.toNat + 16 := toNat_add_ofNat (by omega)
    rw [hoff, Memory.Holds, h.ends.1] at hendsAt
    rw [rsvBytes_append, List.append_assoc]
    refine holds_append.mpr ⟨?_, ?_⟩
    · rw [Memory.Holds, hw₃.read_eq (by omega) (by omega)]
      exact hkept.trans hesAt
    · rw [hoff]
      refine holds_append.mpr ⟨hentry, ?_⟩
      change m₃.read (re + UInt32.ofNat 16) t.length = t
      rw [h.ends.1, hw₃.read_eq (by omega) (by omega)]
      exact hmoved.trans hendsAt
  refine ⟨m₃, ?_, ⟨?_, hsized, h.ends, ?_⟩, ?_⟩
  · unfold fdtAddMemRsv
    simp only [h.opened.rwCheck, ne_eq, not_true_eq_false, if_false, h.numMemRsv, Option.map_some, memRsv_eq,
      hre, heq, hm₃]
  · refine @Opened.replaced m m₃ buf bufsize (rsvBytes es ++ t) (rsvBytes (es ++ [(address, size)]) ++ t)
      st ss (16 * 0) (16 * 1) h.opened hspace (fun f => (hget₃ f).trans (hget f)) hread
      (fun k l hk hkl => ?_) ?_ (Nat.zero_le _) (by omega) (reserveMap_rsvBytes hsized h.ends) (by omega)
    · have hk₃ : (buf + UInt32.ofNat (k - 16 * 0 + 16 * 1)).toNat = buf.toNat + (k - 16 * 0 + 16 * 1) :=
        toNat_add_ofNat (by omega)
      rw [hw₃.read_eq (by omega) (by omega)]
      exact hback k l (by omega) hkl
    · simp only [List.length_append, hlen, hlen']
      omega
  · rw [hget₃, hget, if_pos (Or.inr rfl), toNat_moved_off (by omega) (by omega)]
    omega
  · exact hw.trans (hw₃.mono (by omega) (by omega))

theorem add_full {address size : UInt64} (hfull : room < 16) :
    fdtAddMemRsv m buf address size = some (errNoSpace, m) := by
  obtain ⟨-, hd₂, -⟩ := h.bounds
  have hroom := h.room
  have hfails := @Opened.spliceMemRsv_full m buf ⟨rsvBytes es ++ t, st, ss⟩ bufsize h.opened hspace
    ((fdtGetHeader m buf .offMemRsvmap).toNat + 16 * es.length) (by omega) (by simp only; omega)
  unfold fdtAddMemRsv
  simp only [h.opened.rwCheck, ne_eq, not_true_eq_false, if_false, h.numMemRsv, Option.map_some, memRsv_eq,
    hfails]
  rfl

omit hspace

theorem del_notFound {i : Int} (hi : es.length ≤ i) : fdtDelMemRsv m buf i = some (errNotFound, m) := by
  unfold fdtDelMemRsv
  simp only [h.opened.rwCheck, ne_eq, not_true_eq_false, if_false, h.numMemRsv, Option.map_some, if_pos hi]

theorem get {i : Nat} (hi : i < es.length) :
    fdtGetMemRsv m buf i = .ok (es[i].1.toNat, es[i].2.toNat) := by
  have hblock := h.opened.stored.rsv.holds
  simp only at hblock
  rw [rsvBytes_split hi, List.append_assoc, List.append_assoc] at hblock
  obtain ⟨hentry, -⟩ := holds_append.mp (holds_append.mp hblock).2
  have htake := length_rsvBytes (es.take i)
  rw [List.length_take, Nat.min_eq_left (Nat.le_of_lt hi)] at htake
  obtain ⟨hfirst, hsecond⟩ := holds_append.mp hentry
  rw [htake] at hfirst hsecond
  have haddr := readBe64_be64 (UInt64.toNat_lt es[i].1) []
  have hsize := readBe64_be64 (UInt64.toNat_lt es[i].2) []
  rw [List.append_nil, ← hfirst] at haddr
  rw [List.append_nil, ← hsecond] at hsize
  unfold fdtGetMemRsv
  simp only [h.opened.stored.check, ne_eq, not_true_eq_false, if_false]
  exact congrArg Except.ok (Prod.ext haddr hsize)

end MapAt

/-- What the calls on the reserve map change: its entries and the room behind the blocks. -/
structure RsvMap where
  entries : List RsvEntry
  room : Nat

inductive RsvCall
  | add (address size : UInt64)
  | del (n : Int)

def RsvCall.call (m : Memory) (buf : Addr) : RsvCall → Option (Int × Memory)
  | .add address size => fdtAddMemRsv m buf address size
  | .del n => fdtDelMemRsv m buf n

/-- An entry of size zero would end the map, and a negative index takes out what stands in front of it. -/
def RsvCall.Proper : RsvCall → Prop
  | .add _ size => size ≠ 0
  | .del n => 0 ≤ n

def RsvMap.call (s : RsvMap) : RsvCall → Int × RsvMap
  | .add address size =>
    if s.room < 16 then (errNoSpace, s) else (0, ⟨s.entries ++ [(address, size)], s.room - 16⟩)
  | .del n =>
    if n < s.entries.length then (0, ⟨s.entries.eraseIdx n.toNat, s.room + 16⟩) else (errNotFound, s)

def rsvCalls (buf : Addr) : List RsvCall → Memory → Option (List Int × Memory)
  | [], m => some ([], m)
  | c :: cs, m => (c.call m buf).bind fun r => (rsvCalls buf cs r.2).map fun q => (r.1 :: q.1, q.2)

def RsvMap.calls : List RsvCall → RsvMap → List Int × RsvMap
  | [], s => ([], s)
  | c :: cs, s => ((s.call c).1 :: (RsvMap.calls cs (s.call c).2).1, (RsvMap.calls cs (s.call c).2).2)

variable {t st ss : Bytes} {s : RsvMap}

theorem MapAt.call (h : MapAt m buf bufsize t st ss s.entries s.room)
    (hspace : buf.toNat + bufsize < 2 ^ 31) {c : RsvCall} (hc : c.Proper) : ∃ m', c.call m buf = some ((s.call c).1, m') ∧
      MapAt m' buf bufsize t st ss (s.call c).2.entries (s.call c).2.room ∧ Within m m' buf bufsize := by
  cases c with
  | add address size =>
    rw [RsvMap.call, RsvCall.call]
    by_cases hfull : s.room < 16
    · rw [if_pos hfull]
      exact ⟨m, h.add_full hspace hfull, h, Within.refl m buf bufsize⟩
    · rw [if_neg hfull]
      exact h.add hspace hc (Nat.not_lt.mp hfull)
  | del n =>
    rw [RsvMap.call, RsvCall.call]
    obtain ⟨n, rfl⟩ := Int.eq_ofNat_of_zero_le hc
    by_cases hn : (n : Int) < s.entries.length
    · rw [if_pos hn]
      exact h.del hspace (Int.ofNat_lt.mp hn)
    · rw [if_neg hn]
      exact ⟨m, h.del_notFound (Int.not_lt.mp hn), h, Within.refl m buf bufsize⟩

theorem MapAt.calls (cs : List RsvCall) (h : MapAt m buf bufsize t st ss s.entries s.room)
    (hspace : buf.toNat + bufsize < 2 ^ 31) (hcs : ∀ c ∈ cs, c.Proper) :
    ∃ m', rsvCalls buf cs m = some ((RsvMap.calls cs s).1, m') ∧
      MapAt m' buf bufsize t st ss (RsvMap.calls cs s).2.entries (RsvMap.calls cs s).2.room ∧
      Within m m' buf bufsize := by
  induction cs generalizing m s with
  | nil => exact ⟨m, rfl, h, Within.refl m buf bufsize⟩
  | cons c cs ih =>
    obtain ⟨m₁, heq, h₁, hw⟩ := h.call hspace (hcs c List.mem_cons_self)
    obtain ⟨m₂, heq', h₂, hw'⟩ := ih h₁ fun c' hc' => hcs c' (List.mem_cons_of_mem c hc')
    refine ⟨m₂, ?_, h₂, hw.trans hw'⟩
    rw [rsvCalls, heq, Option.bind_some, heq', Option.map_some]
    rfl

/-- Whatever entries are added and deleted, the map is the list of those that are left, the calls fail
just for want of room or of an entry, and the tree is kept. -/
theorem MapAt.calls_exact (cs : List RsvCall) (h : MapAt m buf bufsize t st ss s.entries s.room)
    (hspace : buf.toNat + bufsize < 2 ^ 31) (hcs : ∀ c ∈ cs, c.Proper) :
    ∃ m', rsvCalls buf cs m = some ((RsvMap.calls cs s).1, m') ∧
      fdtNumMemRsv m' buf = some (RsvMap.calls cs s).2.entries.length ∧
      (∀ i (hi : i < (RsvMap.calls cs s).2.entries.length), fdtGetMemRsv m' buf i =
        .ok ((RsvMap.calls cs s).2.entries[i].1.toNat, (RsvMap.calls cs s).2.entries[i].2.toNat)) ∧
      fdtRwCheckHeader m' buf = (0, m') ∧
      (∀ T, Repr ⟨st, ss, []⟩ T → Repr (fdtView m' buf) T) ∧
      (fdtView m' buf).free.length = (RsvMap.calls cs s).2.room ∧ Within m m' buf bufsize := by
  obtain ⟨m', heq, h', hw⟩ := MapAt.calls cs h hspace hcs
  obtain ⟨free, hview, hfree⟩ := h'.opened.view_eq
  have hroom := h'.room
  simp only at hfree
  refine ⟨m', heq, h'.numMemRsv, fun i hi => h'.get hi, h'.opened.rwCheck,
    fun T hr => h'.opened.repr (by omega) hr, ?_, hw⟩
  rw [hview]
  simp only
  omega

def reservedBlob : Bytes :=
  [0xd00dfeed, 120, 72, 88, 40, 17, 16, 0, 4, 16].flatMap be32 ++ rsvBytes [(0x43000000, 0x10000)] ++
    List.replicate 16 0 ++ [1, 0, 2, 9].flatMap be32 ++ (ofString "reg" ++ [0]) ++ List.replicate 28 0

def reservedMap : RsvMap := ⟨[(0x43000000, 0x10000)], 28⟩

theorem reservedBlob_mapAt : MapAt (Memory.ofBytes reservedBlob) 0 120 (List.replicate 16 0)
    ([1, 0, 2, 9].flatMap be32) (ofString "reg" ++ [0]) reservedMap.entries reservedMap.room where
  opened := {
    stored := {
      magic := by decide
      version := by decide
      lastComp := by decide
      fits := by decide
      small := by decide
      header := by decide
      entries := ⟨1, by decide, by decide, by decide⟩
      rsv := ⟨by decide, by decide⟩
      dtStruct := ⟨by decide, by decide⟩
      dtStrings := ⟨by decide, by decide⟩
      structSize := by decide
      stringsSize := by decide }
    ordered := ⟨by decide, by decide, by decide⟩
    version := by decide
    totalsize := by decide }
  sized := fun e he => by
    rw [List.mem_singleton.mp he]
    decide
  ends := ⟨List.length_replicate, by decide⟩
  room := by decide

theorem MapAt.calls_exact_reserved : ∃ m',
    rsvCalls 0 [.add 0x50000000 0x1000, .add 1 1, .del 0, .del 1] (Memory.ofBytes reservedBlob) =
      some ([0, errNoSpace, 0, errNotFound], m') ∧
    fdtNumMemRsv m' 0 = some 1 ∧ fdtGetMemRsv m' 0 0 = .ok (0x50000000, 0x1000) := by
  obtain ⟨m', heq, hnum, hget, -⟩ := reservedBlob_mapAt.calls_exact
    [.add 0x50000000 0x1000, .add 1 1, .del 0, .del 1] (by decide) (by simp [RsvCall.Proper])
  exact ⟨m', heq, hnum, hget 0 (by decide)⟩

end Babelfish.Libfdt
