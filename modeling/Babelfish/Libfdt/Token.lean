import Babelfish.Libfdt.ReadWrite
import Babelfish.Lib.Flat

/-! The structure block as a sequence of tokens, and what the tag scanner reads from it. -/

namespace Babelfish.Libfdt

open Bytes

/-- A tag with what follows it up to the next one, the padding included. -/
inductive Tok
  | beginNode (name pad : Bytes)
  | prop (nameoff : Nat) (value pad : Bytes)
  | endNode
  | fend

namespace Tok

def tag : Tok → FdtTag
  | beginNode _ _ => .beginNode
  | prop _ _ _ => .prop
  | endNode => .endNode
  | fend => .fend

def bytes : Tok → Bytes
  | beginNode name pad => be32 FdtTag.beginNode.code ++ (name ++ 0 :: pad)
  | prop nameoff value pad =>
    be32 FdtTag.prop.code ++ (be32 value.length ++ (be32 nameoff ++ (value ++ pad)))
  | endNode => be32 FdtTag.endNode.code
  | fend => be32 FdtTag.fend.code

def Wf : Tok → Prop
  | beginNode name pad => 0 ∉ name ∧ pad.length = pad4 (name.length + 1)
  | prop nameoff value pad => nameoff < 4294967296 ∧ pad.length = pad4 value.length
  | endNode => True
  | fend => True

def size : Tok → Nat
  | beginNode name _ => 4 + align4 (name.length + 1)
  | prop _ value _ => 12 + align4 value.length
  | endNode => 4
  | fend => 4

theorem length_bytes {t : Tok} (h : t.Wf) : t.bytes.length = t.size := by
  cases t with
  | beginNode name pad =>
    have := add_pad4 (name.length + 1)
    simp only [bytes, size, List.length_append, length_be32, List.length_cons, h.2]
    omega
  | prop nameoff value pad =>
    have := add_pad4 value.length
    simp only [bytes, size, List.length_append, length_be32, h.2]
    omega
  | endNode => rfl
  | fend => rfl

theorem size_mod (t : Tok) : t.size % 4 = 0 := by
  cases t with
  | beginNode name pad =>
    have := align4_mod (name.length + 1)
    simp only [size]
    omega
  | prop nameoff value pad =>
    have := align4_mod value.length
    simp only [size]
    omega
  | endNode => rfl
  | fend => rfl

theorem four_le_size (t : Tok) : 4 ≤ t.size := by
  cases t with
  | beginNode name pad => exact Nat.le_add_right _ _
  | prop nameoff value pad => simp only [size]; omega
  | endNode => exact Nat.le_refl _
  | fend => exact Nat.le_refl _

theorem bytes_head (t : Tok) : ∃ bs, t.bytes = be32 t.tag.code ++ bs := by
  cases t with
  | beginNode name pad => exact ⟨_, rfl⟩
  | prop nameoff value pad => exact ⟨_, rfl⟩
  | endNode => exact ⟨[], by simp [bytes, tag]⟩
  | fend => exact ⟨[], by simp [bytes, tag]⟩

end Tok

def encode (ts : List Tok) : Bytes := ts.flatMap Tok.bytes

@[simp] theorem encode_nil : encode [] = [] := rfl

@[simp] theorem encode_cons (t : Tok) (ts : List Tok) : encode (t :: ts) = t.bytes ++ encode ts :=
  rfl

@[simp] theorem encode_append (ts us : List Tok) : encode (ts ++ us) = encode ts ++ encode us := by
  simp [encode]

theorem encode_head {ts : List Tok} (h : ts ≠ []) : ∃ rest, encode ts = 0 :: rest := by
  obtain ⟨t, us, rfl⟩ := List.exists_cons_of_ne_nil h
  obtain ⟨bs, hbs⟩ := t.bytes_head
  have hcode : t.tag.code / 16777216 = 0 := by cases t <;> simp [Tok.tag, FdtTag.code]
  rw [encode_cons, hbs, be32, hcode]
  exact ⟨_, rfl⟩

theorem length_encode {ts : List Tok} (h : ∀ t ∈ ts, t.Wf) :
    (encode ts).length = Forest.weight Tok.size ts := by
  induction ts with
  | nil => rfl
  | cons t ts ih =>
    rw [encode_cons, List.length_append, Tok.length_bytes (h t List.mem_cons_self),
      ih fun u hu => h u (List.mem_cons_of_mem _ hu), Forest.weight_cons]

/-- From `offset` on the structure block consists of the tokens `ts`. -/
structure At (fdt : Fdt) (offset : Nat) (ts : List Tok) : Prop where
  aligned : offset % 4 = 0
  le : offset ≤ fdt.dtStruct.length
  drop : fdt.dtStruct.drop offset = encode ts
  wf : ∀ t ∈ ts, t.Wf
  small : fdt.dtStruct.length < 2147483648

namespace At

variable {fdt : Fdt} {offset : Nat} {t : Tok} {ts us : List Tok}

theorem length_eq (h : At fdt offset ts) :
    offset + Forest.weight Tok.size ts = fdt.dtStruct.length := by
  have := congrArg List.length h.drop
  rw [List.length_drop, length_encode h.wf] at this
  have := h.le
  omega

theorem append (h : At fdt offset (ts ++ us)) :
    At fdt (offset + Forest.weight Tok.size ts) us := by
  have hts : ∀ t ∈ ts, t.Wf := fun t ht => h.wf t (List.mem_append_left _ ht)
  have hlen := h.length_eq
  rw [Forest.weight_append] at hlen
  refine ⟨?_, by omega, ?_, fun t ht => h.wf t (List.mem_append_right _ ht), h.small⟩
  · have hw : Forest.weight Tok.size ts % 4 = 0 := by
      clear h hts hlen
      induction ts with
      | nil => rfl
      | cons t ts ih =>
        have := t.size_mod
        rw [Forest.weight_cons]
        omega
    have := h.aligned
    omega
  · rw [← List.drop_drop, h.drop, encode_append, ← length_encode hts, List.drop_left]

theorem tail (h : At fdt offset (t :: ts)) : At fdt (offset + t.size) ts := by
  have h' : At fdt offset ([t] ++ ts) := h
  simpa using h'.append

theorem size_le (h : At fdt offset (t :: ts)) : offset + t.size ≤ fdt.dtStruct.length := by
  have := h.length_eq
  rw [Forest.weight_cons] at this
  omega

end At

theorem fdtOffsetPtr_eq_true {fdt : Fdt} (hs : fdt.dtStruct.length < 2147483648) {o l : Int}
    (ho : 0 ≤ o) (hl : 0 ≤ l) (h : o + l ≤ fdt.dtStruct.length) : fdtOffsetPtr fdt o l = true := by
  have h₁ : (o + l) % 4294967296 = o + l := by omega
  have h₂ : o % 4294967296 = o := by omega
  simp only [fdtOffsetPtr, h₁, h₂, Bool.and_eq_true, decide_eq_true_eq]
  omega

theorem fdtOffsetPtr_eq_false {fdt : Fdt} {o l : Int}
    (ho : 0 ≤ o + l) (hb : o + l < 4294967296) (h : fdt.dtStruct.length < o + l) :
    fdtOffsetPtr fdt o l = false := by
  have h₁ : (o + l) % 4294967296 = o + l := by omega
  simp only [fdtOffsetPtr, h₁, Bool.and_eq_false_iff, decide_eq_false_iff_not]
  omega

theorem fdtTagAlign_natCast (n : Nat) : fdtTagAlign n = (align4 n : Nat) := by
  simp only [fdtTagAlign, align4]
  omega

theorem fdt32At_add {fdt : Fdt} {offset k : Nat} {bs : Bytes}
    (h : fdt.dtStruct.drop (offset + k) = bs) : fdt32At fdt ((offset : Int) + (k : Int)) = readBe32 bs := by
  have : ((offset : Int) + (k : Int)).toNat = offset + k := by omega
  rw [fdt32At, this, h]

theorem At.tag_eq {fdt : Fdt} {offset : Nat} {t : Tok} {ts : List Tok} (h : At fdt offset (t :: ts)) :
    fdt32At fdt offset = t.tag.code := by
  obtain ⟨bs, hbs⟩ := t.bytes_head
  have hlt : t.tag.code < 4294967296 := by
    cases t <;> simp [Tok.tag, FdtTag.code]
  rw [fdt32At, Int.toNat_natCast, h.drop, encode_cons, hbs, List.append_assoc, readBe32_be32 hlt]

theorem At.prop_fields {fdt : Fdt} {offset nameoff : Nat} {value pad : Bytes} {ts : List Tok}
    (h : At fdt offset (.prop nameoff value pad :: ts)) :
    fdt32At fdt (offset + 4) = value.length ∧ fdt32At fdt (offset + 8) = nameoff ∧
      fdt.dtStruct.drop (offset + 12) = value ++ (pad ++ encode ts) := by
  have hwf := h.wf _ List.mem_cons_self
  have hlen : value.length < 4294967296 := by
    have h₁ := h.size_le
    have h₂ := h.small
    have h₃ := le_align4 value.length
    simp only [Tok.size] at h₁
    omega
  have hdrop := h.drop
  simp only [encode_cons, Tok.bytes] at hdrop
  have hk : ∀ k, fdt.dtStruct.drop (offset + k) =
      (be32 FdtTag.prop.code ++ (be32 value.length ++ (be32 nameoff ++ (value ++ pad))) ++
        encode ts).drop k := fun k => by rw [← List.drop_drop, hdrop]
  refine ⟨?_, ?_, ?_⟩
  · have h4 := fdt32At_add (hk 4)
    rw [show ((4 : Nat) : Int) = 4 from rfl] at h4
    rw [h4]
    simpa [be32] using readBe32_be32 hlen (be32 nameoff ++ (value ++ pad) ++ encode ts)
  · have h8 := fdt32At_add (hk 8)
    rw [show ((8 : Nat) : Int) = 8 from rfl] at h8
    rw [h8]
    simpa [be32] using readBe32_be32 hwf.1 ((value ++ pad) ++ encode ts)
  · rw [hk 12]
    simp [be32]

theorem At.nodeName {fdt : Fdt} {offset : Nat} {name pad : Bytes} {ts : List Tok}
    (h : At fdt offset (.beginNode name pad :: ts)) :
    fdt.dtStruct.drop (offset + 4) = name ++ 0 :: (pad ++ encode ts) := by
  rw [← List.drop_drop, h.drop]
  simp [encode_cons, Tok.bytes, be32]

theorem At.finish_eq {fdt : Fdt} {offset : Nat} {t : Tok} {ts : List Tok}
    (h : At fdt offset (t :: ts)) (tag : FdtTag) {stop : Nat} (hlo : offset ≤ stop)
    (hstop : align4 stop = offset + t.size) :
    fdtNextTag.finish fdt offset tag stop = (tag, ((offset + t.size : Nat) : Int)) := by
  have h₁ := h.size_le
  have h₂ := le_align4 stop
  have hp : fdtOffsetPtr fdt offset ((stop : Int) - offset) = true :=
    fdtOffsetPtr_eq_true h.small (by omega) (by omega) (by omega)
  simp [fdtNextTag.finish, hp, fdtTagAlign_natCast, hstop]

theorem At.nextTag {fdt : Fdt} {offset : Nat} {t : Tok} {ts : List Tok}
    (h : At fdt offset (t :: ts)) :
    fdtNextTag fdt offset = (t.tag, ((offset + t.size : Nat) : Int)) := by
  have hsize := h.size_le
  have hfour := t.four_le_size
  have hal := h.aligned
  have hsmall := h.small
  have hp : fdtOffsetPtr fdt offset 4 = true :=
    fdtOffsetPtr_eq_true h.small (by omega) (by omega) (by omega)
  simp only [fdtNextTag, hp, h.tag_eq, FdtTag.ofCode_code, Bool.not_true, Bool.false_eq_true,
    if_false]
  cases t with
  | beginNode name pad =>
    have hwf := h.wf _ List.mem_cons_self
    have hle := le_align4 (name.length + 1)
    simp only [Tok.size] at hsize
    have hname : cstrAt fdt ((offset : Int) + 4) = name := by
      have hn : ((offset : Int) + 4).toNat = offset + 4 := by omega
      rw [cstrAt, hn, h.nodeName, cstr_append hwf.1]
    have hq : fdtOffsetPtr fdt ((offset : Int) + 4 + name.length) 1 = true :=
      fdtOffsetPtr_eq_true hsmall (by omega) (by omega) (by omega)
    have hstop : (offset : Int) + 4 + name.length + 1 = ((offset + 4 + name.length + 1 : Nat) : Int) := by
      omega
    simp only [Tok.tag, hname, hq, Bool.not_true, Bool.false_eq_true, if_false]
    rw [hstop]
    refine h.finish_eq _ (by omega) ?_
    simp only [Tok.size, align4]
    omega
  | prop nameoff value pad =>
    have hle := le_align4 value.length
    simp only [Tok.size] at hsize
    have hq : fdtOffsetPtr fdt ((offset : Int) + 4) 4 = true :=
      fdtOffsetPtr_eq_true hsmall (by omega) (by omega) (by omega)
    have hstop : ((offset : Int) + 12 + (value.length : Nat)) % 4294967296 =
        ((offset + 12 + value.length : Nat) : Int) := by omega
    simp only [Tok.tag, hq, h.prop_fields.1, Bool.not_true, Bool.false_eq_true, if_false]
    rw [hstop]
    refine h.finish_eq _ (by omega) ?_
    simp only [Tok.size, align4]
    omega
  | endNode =>
    simp only [Tok.tag]
    exact h.finish_eq _ (show offset ≤ offset + 4 by omega) (by simp only [Tok.size, align4]; omega)
  | fend =>
    simp only [Tok.tag]
    exact h.finish_eq _ (show offset ≤ offset + 4 by omega) (by simp only [Tok.size, align4]; omega)

end Babelfish.Libfdt
