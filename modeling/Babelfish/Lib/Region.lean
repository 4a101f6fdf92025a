import Babelfish.Lib.Memory

/-! Ranges of addresses: bytes that are stored together, and what a change in one range leaves. -/

namespace Babelfish.Memory

variable {m m' m'' : Memory} {a b : UInt32} {i k n : Nat} {bs : Bytes}

def store (m : Memory) (a : UInt32) (bs : Bytes) : Memory := fun x => bs[(x - a).toNat]?.getD (m x)

def Within (m m' : Memory) (a : UInt32) (n : Nat) : Prop :=
  ∀ x : UInt32, ¬(a.toNat ≤ x.toNat ∧ x.toNat < a.toNat + n) → m' x = m x

namespace Within

theorem refl (m : Memory) (a : UInt32) (n : Nat) : Within m m a n := fun _ _ => rfl

theorem trans (h : Within m m' a n) (h' : Within m' m'' a n) : Within m m'' a n := fun x hx =>
  (h' x hx).trans (h x hx)

theorem mono (h : Within m m' a n) (hlo : b.toNat ≤ a.toNat) (hhi : a.toNat + n ≤ b.toNat + k) :
    Within m m' b k := fun x hx => h x fun hin => hx (by omega)

theorem read_eq (h : Within m m' a n) (hb : b.toNat + k ≤ 2 ^ 32)
    (hd : b.toNat + k ≤ a.toNat ∨ a.toNat + n ≤ b.toNat) : m'.read b k = m.read b k := by
  refine read_congr fun i hi => h _ fun hin => ?_
  rw [toNat_add_ofNat (by omega)] at hin
  omega

end Within

theorem sub_toNat (h : a.toNat ≤ b.toNat) : (b - a).toNat = b.toNat - a.toNat := by
  have hle : a ≤ b := UInt32.le_iff_toNat_le.mpr h
  exact UInt32.toNat_sub_of_le b a hle

theorem add_ofNat_sub (a : UInt32) (hi : i < 2 ^ 32) : (a + UInt32.ofNat i - a).toNat = i := by
  rw [UInt32.add_comm, UInt32.add_sub_cancel, UInt32.toNat_ofNat']
  omega

theorem within_store (m : Memory) (h : a.toNat + bs.length ≤ 2 ^ 32) :
    Within m (m.store a bs) a bs.length := fun x hx => by
  have hout : bs.length ≤ (x - a).toNat := by
    by_cases hle : a.toNat ≤ x.toNat
    · rw [sub_toNat hle]
      omega
    · have hsub := UInt32.toNat_sub x a
      have := x.toNat_lt
      omega
  rw [store, List.getElem?_eq_none hout, Option.getD_none]

theorem read_store (m : Memory) (a : UInt32) (h : bs.length ≤ 2 ^ 32) :
    (m.store a bs).read a bs.length = bs := by
  refine List.ext_getElem (length_read ..) fun i hi hi' => ?_
  simp only [read, List.getElem_map, List.getElem_range, store, add_ofNat_sub a (show i < 2 ^ 32 by omega),
    List.getElem?_eq_getElem hi', Option.getD_some]

theorem read_part (h : m'.read b n = m.read a n) (hk : i + k ≤ n) :
    m'.read (b + UInt32.ofNat i) k = m.read (a + UInt32.ofNat i) k := by
  rw [read_eq_iff] at h ⊢
  intro j hj
  rw [add_ofNat_add, add_ofNat_add]
  exact h (i + j) (by omega)

end Babelfish.Memory
