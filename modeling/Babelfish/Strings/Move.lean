import Babelfish.Lib.Memory
import Mathlib.Algebra.Order.Ring.Nat

/-! `memmove` of `string.c`. -/

namespace Babelfish.Strings

abbrev Addr := UInt32

/-- `for (i = 0; i < n; i++) out[i] = in[i];` with `rounds` rounds to go. -/
def moveUp (out src : Addr) : (rounds i : Nat) → Memory → Memory
  | 0, _, m => m
  | rounds + 1, i, m =>
    moveUp out src rounds (i + 1) (m.write (out + UInt32.ofNat i) (m (src + UInt32.ofNat i)))

/-- `for (; i >= 0; i--) out[i] = in[i];` from the index `i - 1` on. -/
def moveDown (out src : Addr) : (i : Nat) → Memory → Memory
  | 0, m => m
  | i + 1, m => moveDown out src i (m.write (out + UInt32.ofNat i) (m (src + UInt32.ofNat i)))

/-- What is returned, and the memory after it. The start `n - 1` of the loop that goes down is stored in
an `int`. -/
def memmove (m : Memory) (dest src : Addr) (n : UInt32) : Addr × Memory :=
  if dest < src then (dest, moveUp dest src n.toNat 0 m)
  else if src < dest then (dest, moveDown dest src ((n - 1).toInt32.toInt + 1).toNat m)
  else (dest, m)

variable {m m₀ : Memory} {dest src : Addr} {n lo hi : Nat}

/-- The bytes with an index from `lo` up to `hi` have been moved, and no others are touched. -/
structure Moved (m₀ : Memory) (dest src : Addr) (lo hi : Nat) (m : Memory) : Prop where
  moved : ∀ i, lo ≤ i → i < hi → m (dest + UInt32.ofNat i) = m₀ (src + UInt32.ofNat i)
  frame : ∀ a, (∀ i, lo ≤ i → i < hi → a ≠ dest + UInt32.ofNat i) → m a = m₀ a

theorem Moved.refl (m₀ : Memory) (dest src : Addr) (i : Nat) : Moved m₀ dest src i i m₀ where
  moved _ hlo hhi := absurd hhi (Nat.not_lt.mpr hlo)
  frame _ _ := rfl

theorem Moved.up (h : Moved m₀ dest src lo hi m) (hle : lo ≤ hi) (hlt : hi < 2 ^ 32)
    (hsrc : m (src + UInt32.ofNat hi) = m₀ (src + UInt32.ofNat hi)) :
    Moved m₀ dest src lo (hi + 1)
      (m.write (dest + UInt32.ofNat hi) (m (src + UInt32.ofNat hi))) := by
  constructor
  · intro i hlo hhi
    by_cases he : i = hi
    · rw [he, Memory.write_self, hsrc]
    · have hne : dest + UInt32.ofNat i ≠ dest + UInt32.ofNat hi := fun h' =>
        he ((Memory.add_ofNat_inj (by omega) hlt).mp h')
      rw [Memory.write_of_ne hne, h.moved i hlo (by omega)]
  · intro a ha
    rw [Memory.write_of_ne (ha hi hle (Nat.lt_succ_self hi))]
    exact h.frame a fun i hlo hhi => ha i hlo (Nat.lt_succ_of_lt hhi)

theorem Moved.down (h : Moved m₀ dest src (lo + 1) hi m) (hle : lo < hi) (hlt : hi ≤ 2 ^ 32)
    (hsrc : m (src + UInt32.ofNat lo) = m₀ (src + UInt32.ofNat lo)) :
    Moved m₀ dest src lo hi
      (m.write (dest + UInt32.ofNat lo) (m (src + UInt32.ofNat lo))) := by
  constructor
  · intro i hlo hhi
    by_cases he : i = lo
    · rw [he, Memory.write_self, hsrc]
    · have hne : dest + UInt32.ofNat i ≠ dest + UInt32.ofNat lo := fun h' =>
        he ((Memory.add_ofNat_inj (by omega) (by omega)).mp h')
      rw [Memory.write_of_ne hne, h.moved i (by omega) hhi]
  · intro a ha
    rw [Memory.write_of_ne (ha lo (Nat.le_refl lo) hle)]
    exact h.frame a fun i hlo hhi => ha i (by omega) hhi

section

variable (hdest : dest.toNat + n ≤ 2 ^ 32) (hsrc : src.toNat + n ≤ 2 ^ 32)

include hdest

/-- The bytes still to be read lie below those that have been written. -/
theorem moveDown_moved (hlt : src.toNat < dest.toNat) (i : Nat) (hi : i ≤ n)
    (h : Moved m₀ dest src i n m) : Moved m₀ dest src 0 n (moveDown dest src i m) := by
  induction i generalizing m with
  | zero => exact h
  | succ i ih =>
    refine ih (by omega) (h.down (by omega) (by omega) (h.frame _ fun j hj hj' => ?_))
    rw [Memory.add_ofNat_ne_iff (by omega), Memory.toNat_add_ofNat (by omega)]
    omega

include hsrc

theorem moveUp_moved (hlt : dest.toNat < src.toNat) (rounds i : Nat) (hn : i + rounds = n)
    (h : Moved m₀ dest src 0 i m) : Moved m₀ dest src 0 n (moveUp dest src rounds i m) := by
  induction rounds generalizing i m with
  | zero => exact hn ▸ h
  | succ rounds ih =>
    refine ih (i + 1) (by omega) (h.up (Nat.zero_le i) (by omega) (h.frame _ fun j _ hj => ?_))
    rw [Memory.add_ofNat_ne_iff (by omega), Memory.toNat_add_ofNat (by omega)]
    omega

end

theorem downRounds {n : UInt32} (h : n.toNat ≤ 2 ^ 31) : ((n - 1).toInt32.toInt + 1).toNat = n.toNat := by
  have hone : (1 : UInt32).toNat = 1 := rfl
  have hcond : (n - 1).toInt32.toInt =
      if 2 * (n - 1).toNat < 2 ^ 32 then ((n - 1).toNat : Int) else ((n - 1).toNat : Int) - 2 ^ 32 :=
    BitVec.toInt_eq_toNat_cond _
  have hsub := UInt32.toNat_sub n 1
  rw [hone] at hsub
  have hlt := n.toNat_lt
  rw [hcond]
  split <;> omega

theorem memmove_spec {n : UInt32} (hn : n.toNat < 2 ^ 31) (hdest : dest.toNat + n.toNat ≤ 2 ^ 32)
    (hsrc : src.toNat + n.toNat ≤ 2 ^ 32) :
    (memmove m dest src n).1 = dest ∧ Moved m dest src 0 n.toNat (memmove m dest src n).2 := by
  unfold memmove
  split
  · rename_i hlt
    exact ⟨rfl, moveUp_moved hdest hsrc (UInt32.lt_iff_toNat_lt.mp hlt) _ 0 (Nat.zero_add _)
      (Moved.refl m dest src 0)⟩
  · split
    · rename_i hlt
      rw [downRounds (by omega)]
      exact ⟨rfl, moveDown_moved hdest (UInt32.lt_iff_toNat_lt.mp hlt) _ (Nat.le_refl _)
        (Moved.refl m dest src n.toNat)⟩
    · rename_i hle hge
      obtain rfl : dest = src := UInt32.le_antisymm (UInt32.not_lt.mp hge) (UInt32.not_lt.mp hle)
      exact ⟨rfl, fun _ _ _ => rfl, fun _ _ => rfl⟩

theorem Moved.outside {n : Nat} (h : Moved m₀ dest src 0 n m) (hdest : dest.toNat + n ≤ 2 ^ 32) :
    m.read dest n = m₀.read src n ∧
      ∀ a : Addr, ¬(dest.toNat ≤ a.toNat ∧ a.toNat < dest.toNat + n) → m a = m₀ a := by
  refine ⟨Memory.read_congr fun i hi => h.moved i (Nat.zero_le i) hi, fun a ha => ?_⟩
  refine h.frame a fun i _ hi he => ha ?_
  rw [he, Memory.toNat_add_ofNat (by omega)]
  omega

/-- The bytes are moved, whichever way the ranges overlap, and no others change. -/
theorem memmove_moved (m : Memory) (dest src : Addr) (n : UInt32) (hn : n.toNat < 2 ^ 31)
    (hdest : dest.toNat + n.toNat ≤ 2 ^ 32) (hsrc : src.toNat + n.toNat ≤ 2 ^ 32) :
    (memmove m dest src n).1 = dest ∧
      (memmove m dest src n).2.read dest n.toNat = m.read src n.toNat ∧
      ∀ a : Addr, ¬(dest.toNat ≤ a.toNat ∧ a.toNat < dest.toNat + n.toNat) →
        (memmove m dest src n).2 a = m a := by
  obtain ⟨hret, hmoved⟩ := @memmove_spec m dest src n hn hdest hsrc
  exact ⟨hret, hmoved.outside hdest⟩

/-- Two bytes up, in a range that overlaps. -/
theorem memmove_moved_overlap :
    (memmove (fun a => a.toUInt8) 12 10 5).1 = 12 ∧
      (memmove (fun a => a.toUInt8) 12 10 5).2.read 12 5 = Memory.read (fun a => a.toUInt8) 10 5 ∧
      ∀ a : Addr, ¬(12 ≤ a.toNat ∧ a.toNat < 12 + 5) →
        (memmove (fun a => a.toUInt8) 12 10 5).2 a = a.toUInt8 :=
  memmove_moved (fun a => a.toUInt8) 12 10 5 (by decide) (by decide) (by decide)

end Babelfish.Strings
