import Babelfish.Lib.Bytes
import Mathlib.Logic.Function.Basic

/-! The memory of a machine with 32-bit addresses: a byte at each of them. -/

namespace Babelfish

abbrev Memory := UInt32 → UInt8

namespace Memory

variable {m m' : Memory} {a b : UInt32} {i j n : Nat} {bs cs : Bytes}

def read (m : Memory) (a : UInt32) (n : Nat) : Bytes :=
  (List.range n).map fun i => m (a + UInt32.ofNat i)

def write (m : Memory) (a : UInt32) (b : UInt8) : Memory := Function.update m a b

def ofBytes (bs : Bytes) : Memory := fun a => bs[a.toNat]?.getD 0

theorem add_ofNat_add (a : UInt32) (i j : Nat) :
    a + UInt32.ofNat i + UInt32.ofNat j = a + UInt32.ofNat (i + j) := by
  rw [UInt32.ofNat_add, UInt32.add_assoc]

theorem toNat_add_ofNat (h : a.toNat + i < 2 ^ 32) : (a + UInt32.ofNat i).toNat = a.toNat + i := by
  rw [UInt32.toNat_add, UInt32.toNat_ofNat']
  omega

theorem add_ofNat_inj (hi : i < 2 ^ 32) (hj : j < 2 ^ 32) :
    a + UInt32.ofNat i = a + UInt32.ofNat j ↔ i = j := by
  constructor
  · intro h
    have hnat := congrArg UInt32.toNat ((UInt32.add_right_inj _).mp h)
    rw [UInt32.toNat_ofNat', UInt32.toNat_ofNat'] at hnat
    omega
  · rintro rfl
    rfl

theorem add_ofNat_ne_iff (h : a.toNat + i < 2 ^ 32) : a + UInt32.ofNat i ≠ b ↔ a.toNat + i ≠ b.toNat := by
  rw [← toNat_add_ofNat h, Ne, Ne, UInt32.toNat_inj]

@[simp] theorem length_read (m : Memory) (a : UInt32) (n : Nat) : (m.read a n).length = n := by
  simp [read]

@[simp] theorem read_zero (m : Memory) (a : UInt32) : m.read a 0 = [] := rfl

theorem getElem?_read (h : i < n) : (m.read a n)[i]? = some (m (a + UInt32.ofNat i)) := by
  rw [read, List.getElem?_map, List.getElem?_range h, Option.map_some]

theorem read_add (m : Memory) (a : UInt32) (i j : Nat) :
    m.read a (i + j) = m.read a i ++ m.read (a + UInt32.ofNat i) j := by
  unfold read
  rw [List.range_add, List.map_append, List.map_map]
  exact congrArg _ (List.map_congr_left fun k _ => congrArg m (add_ofNat_add a i k).symm)

theorem read_succ (m : Memory) (a : UInt32) (n : Nat) : m.read a (n + 1) = m a :: m.read (a + 1) n := by
  have hone := read_add m a 1 n
  have hzero : a + UInt32.ofNat 0 = a := UInt32.add_zero a
  rw [Nat.add_comm n 1, hone, read, List.range_one, List.map_singleton, hzero]
  rfl

theorem read_congr (h : ∀ i < n, m (a + UInt32.ofNat i) = m' (b + UInt32.ofNat i)) :
    m.read a n = m'.read b n :=
  List.map_congr_left fun i hi => h i (List.mem_range.mp hi)

theorem read_eq_iff : m.read a n = m'.read b n ↔
    ∀ i < n, m (a + UInt32.ofNat i) = m' (b + UInt32.ofNat i) := by
  refine ⟨fun h i hi => ?_, read_congr⟩
  have hget := congrArg (·[i]?) h
  simp only [getElem?_read hi, Option.some.injEq] at hget
  exact hget

theorem mem_read {c : UInt8} : c ∈ m.read a n ↔ ∃ i < n, m (a + UInt32.ofNat i) = c := by
  simp [read]

def Holds (m : Memory) (a : UInt32) (bs : Bytes) : Prop := m.read a bs.length = bs

instance (m : Memory) (a : UInt32) (bs : Bytes) : Decidable (m.Holds a bs) :=
  inferInstanceAs (Decidable (_ = _))

theorem holds_append : m.Holds a (bs ++ cs) ↔ m.Holds a bs ∧ m.Holds (a + UInt32.ofNat bs.length) cs := by
  unfold Holds
  rw [List.length_append, read_add]
  exact ⟨fun h => List.append_inj h (length_read ..), fun h => by rw [h.1, h.2]⟩

theorem Holds.getElem? (h : m.Holds a bs) (hi : i < bs.length) :
    bs[i]? = some (m (a + UInt32.ofNat i)) := by
  rw [← h]
  exact getElem?_read hi

theorem Holds.take (h : m.Holds a bs) (n : Nat) : m.Holds a (bs.take n) := by
  rw [← List.take_append_drop n bs] at h
  exact (holds_append.mp h).1

theorem Holds.drop (h : m.Holds a bs) (hn : n ≤ bs.length) :
    m.Holds (a + UInt32.ofNat n) (bs.drop n) := by
  rw [← List.take_append_drop n bs] at h
  have hrest := (holds_append.mp h).2
  rwa [List.length_take, Nat.min_eq_left hn] at hrest

theorem Holds.congr (h : m.Holds a bs)
    (heq : ∀ i < bs.length, m' (a + UInt32.ofNat i) = m (a + UInt32.ofNat i)) : m'.Holds a bs :=
  (read_congr heq).trans h

theorem holds_ofBytes (h : bs.length ≤ 2 ^ 32) : (ofBytes bs).Holds 0 bs := by
  refine List.ext_getElem (length_read ..) fun i hi hi' => ?_
  have hnat : ((0 : UInt32) + UInt32.ofNat i).toNat = i := by
    rw [UInt32.zero_add, UInt32.toNat_ofNat']
    omega
  simp only [read, List.getElem_map, List.getElem_range, ofBytes, hnat, List.getElem?_eq_getElem hi',
    Option.getD_some]

@[simp] theorem write_self (m : Memory) (a : UInt32) (b : UInt8) : m.write a b a = b :=
  Function.update_self ..

theorem write_of_ne {c : UInt32} {v : UInt8} (h : c ≠ a) : m.write a v c = m c :=
  Function.update_of_ne h ..

end Memory

end Babelfish
