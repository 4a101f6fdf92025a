import Mathlib.Algebra.Order.Ring.Nat
import Mathlib.Data.List.Basic

/-! Byte strings as C programs see them: NUL-terminated strings, words of four bytes in either
order, and lengths rounded up to whole words. -/

namespace Babelfish

abbrev Bytes := List UInt8

namespace Bytes

def ofString (s : String) : Bytes := s.toList.map fun c => UInt8.ofNat c.toNat

/-- The C string that starts a buffer: the bytes in front of the first NUL. -/
def cstr : Bytes → Bytes
  | [] => []
  | b :: bs => if b = 0 then [] else b :: cstr bs

theorem zero_not_mem_cstr (bs : Bytes) : (0 : UInt8) ∉ cstr bs := by
  induction bs with
  | nil => simp [cstr]
  | cons b bs ih =>
    by_cases hb : b = 0
    · simp [cstr, hb]
    · simpa [cstr, hb, Ne.symm hb] using ih

theorem cstr_append {s : Bytes} (hs : 0 ∉ s) (bs : Bytes) : cstr (s ++ 0 :: bs) = s := by
  induction s with
  | nil => simp [cstr]
  | cons b s ih =>
    simp only [List.mem_cons, not_or] at hs
    simp [cstr, Ne.symm hs.1, ih hs.2]

theorem cstr_eq_self {s : Bytes} (hs : 0 ∉ s) : cstr s = s := by
  induction s with
  | nil => rfl
  | cons b s ih =>
    simp only [List.mem_cons, not_or] at hs
    simp [cstr, Ne.symm hs.1, ih hs.2]

theorem cstr_append_of_mem {bs : Bytes} (h : 0 ∈ bs) (more : Bytes) :
    cstr (bs ++ more) = cstr bs := by
  induction bs with
  | nil => simp at h
  | cons b bs ih =>
    by_cases hb : b = 0
    · simp [cstr, hb]
    · have h' : 0 ∈ bs := by simpa [Ne.symm hb] using h
      simp [cstr, hb, ih h']

theorem length_cstr_le (bs more : Bytes) : (cstr (bs ++ 0 :: more)).length ≤ bs.length := by
  induction bs with
  | nil => simp [cstr]
  | cons b bs ih =>
    by_cases hb : b = 0
    · simp [cstr, hb]
    · simpa [cstr, hb] using ih

def strings : Bytes → List Bytes
  | [] => []
  | b :: bs =>
    if b = 0 then [] :: strings bs
    else
      match strings bs with
      | [] => []
      | s :: ss => (b :: s) :: ss

theorem strings_cons {s : Bytes} (hs : 0 ∉ s) (bs : Bytes) :
    strings (s ++ 0 :: bs) = s :: strings bs := by
  induction s with
  | nil => simp [strings]
  | cons b s ih =>
    simp only [List.mem_cons, not_or] at hs
    simp [strings, Ne.symm hs.1, ih hs.2]

theorem strings_flatMap {ss : List Bytes} (hs : ∀ s ∈ ss, 0 ∉ s) :
    strings (ss.flatMap (· ++ [0])) = ss := by
  induction ss with
  | nil => rfl
  | cons s ss ih =>
    rw [List.flatMap_cons, List.append_assoc, List.singleton_append,
      strings_cons (hs s List.mem_cons_self), ih fun t ht => hs t (List.mem_cons_of_mem _ ht)]

def be32 (n : Nat) : Bytes :=
  [UInt8.ofNat (n / 16777216), UInt8.ofNat (n / 65536), UInt8.ofNat (n / 256), UInt8.ofNat n]

def readBe32 : Bytes → Nat
  | a :: b :: c :: d :: _ => a.toNat * 16777216 + b.toNat * 65536 + c.toNat * 256 + d.toNat
  | _ => 0

@[simp] theorem length_be32 (n : Nat) : (be32 n).length = 4 := rfl

theorem readBe32_be32 {n : Nat} (h : n < 4294967296) (bs : Bytes) :
    readBe32 (be32 n ++ bs) = n := by
  simp only [be32, List.cons_append, List.nil_append, readBe32, UInt8.toNat_ofNat']
  omega

theorem readBe32_lt (bs : Bytes) : readBe32 bs < 4294967296 := by
  unfold readBe32
  split
  · rename_i a b c d _
    have ha := a.toNat_lt
    have hb := b.toNat_lt
    have hc := c.toNat_lt
    have hd := d.toNat_lt
    omega
  · omega

theorem be32_injective {m n : Nat} (hm : m < 4294967296) (hn : n < 4294967296)
    (h : be32 m = be32 n) : m = n := by
  calc
    m = readBe32 (be32 m ++ []) := (readBe32_be32 hm []).symm
    _ = readBe32 (be32 n ++ []) := by rw [h]
    _ = n := readBe32_be32 hn []

def le32 (n : Nat) : Bytes :=
  [UInt8.ofNat n, UInt8.ofNat (n / 256), UInt8.ofNat (n / 65536), UInt8.ofNat (n / 16777216)]

@[simp] theorem length_le32 (n : Nat) : (le32 n).length = 4 := rfl

def align4 (n : Nat) : Nat := (n + 3) / 4 * 4

def pad4 (n : Nat) : Nat := align4 n - n

theorem le_align4 (n : Nat) : n ≤ align4 n := by unfold align4; omega

@[simp] theorem align4_mod (n : Nat) : align4 n % 4 = 0 := by unfold align4; omega

@[simp] theorem add_pad4 (n : Nat) : n + pad4 n = align4 n := by
  have := le_align4 n
  unfold pad4
  omega

theorem align4_add_le (m n : Nat) : align4 (m + n) ≤ align4 m + align4 n := by
  unfold align4
  omega

theorem align4_mono {m n : Nat} (h : m ≤ n) : align4 m ≤ align4 n := by
  unfold align4
  omega

end Bytes

end Babelfish
