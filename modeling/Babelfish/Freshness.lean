import Babelfish.Handles

/-! What `fdt_alloc_phandle` returns over the full range of phandles. -/

namespace Babelfish

open Libfdt Bytes Forest DeviceTree

structure FreshHandle (T : DeviceTree) (ph : UInt32) : Prop where
  ne_zero : ph ≠ 0
  ne_ones : ph ≠ 0xffffffff
  unused : ∀ j n, T.get? j = some n → n.phandle ≠ ph.toNat

def Uses (T : DeviceTree) (p : Nat) : Prop := ∃ j n, T.get? j = some n ∧ n.phandle = p

variable {fdt : Fdt} {T : DeviceTree}

theorem toInt32_of_le {n : Nat} (h : 2147483648 ≤ n) (h' : n < 4294967296) :
    toInt32 n = (n : Int) - 4294967296 := by
  have h₁ : n % 4294967296 = n := Nat.mod_eq_of_lt h'
  have h₂ : ¬n < 2147483648 := by omega
  simp only [toInt32, h₁, if_neg h₂]

theorem toInt32_le (n : Nat) : toInt32 n ≤ 2147483647 := by
  by_cases h : n % 4294967296 < 2147483648
  · simp only [toInt32, if_pos h]
    omega
  · simp only [toInt32, if_neg h]
    omega

/-- Behind the largest phandle there is a word, also where there is no larger `int`. -/
theorem toNat_successor {m : Int} (h₀ : 0 ≤ m)
    (hex : m = 0 ∨ ∃ i n, T.get? i = some n ∧ toInt32 n.phandle = m) :
    m ≤ 2147483647 ∧ ((UInt32.ofInt (m + 1)).toNat : Int) = m + 1 := by
  have hle : m ≤ 2147483647 := by
    rcases hex with rfl | ⟨j, n, -, rfl⟩
    · omega
    · exact toInt32_le _
  exact ⟨hle, toNat_ofInt (by omega) (by omega)⟩

/-- The value is fresh unless both the largest positive `int` and the word behind it are taken. -/
theorem fdtAllocPhandle_fresh_iff (h : Repr fdt T) :
    FreshHandle T (UInt32.ofInt (fdtAllocPhandle fdt)) ↔
      ¬(Uses T 0x7fffffff ∧ Uses T 0x80000000) := by
  obtain ⟨m, hm, h₀, hall, hex⟩ := fdtAllocPhandle_spec h
  obtain ⟨hle, hnat⟩ := toNat_successor h₀ hex
  rw [hm]
  constructor
  · rintro hfresh ⟨⟨i, n, hi, hn⟩, ⟨j, k, hj, hk⟩⟩
    have hmax := hall i n hi
    rw [hn, toInt32_of_lt (by omega)] at hmax
    exact hfresh.unused j k hj (by omega)
  · intro hno
    refine ⟨fun he => ?_, fun he => ?_, fun j n hj he => ?_⟩
    · rw [he] at hnat
      have hz : (0 : UInt32).toNat = 0 := rfl
      omega
    · rw [he] at hnat
      have hones : (0xffffffff : UInt32).toNat = 4294967295 := rfl
      omega
    · have hmax := hall j n hj
      by_cases hlt : n.phandle < 2147483648
      · rw [toInt32_of_lt hlt] at hmax
        omega
      · rcases hex with rfl | ⟨i, k, hi, hk⟩
        · omega
        · refine hno ⟨⟨i, k, hi, ?_⟩, ⟨j, n, hj, by omega⟩⟩
          have hklt := phandle_lt k
          by_cases hk' : k.phandle < 2147483648
          · rw [toInt32_of_lt hk'] at hk
            omega
          · rw [toInt32_of_le (by omega) hklt] at hk
            omega

def rimTree : DeviceTree :=
  .node 0 ⟨[], []⟩ (.node 1 ⟨Bytes.ofString "a", [(strPhandle, be32 0x7fffffff)]⟩ .nil
    (.node 2 ⟨Bytes.ofString "b", [(strPhandle, be32 0x80000000)]⟩ .nil .nil)) .nil

theorem rimTree_repr : Repr (rimTree.blob 0) rimTree :=
  DeviceTree.repr_blob (by decide) (by decide) ⟨0, _, _, rfl⟩ (by decide)

theorem fdtAllocPhandle_fresh_iff_rim :
    FreshHandle rimTree (UInt32.ofInt (fdtAllocPhandle (rimTree.blob 0))) ↔
      ¬(Uses rimTree 0x7fffffff ∧ Uses rimTree 0x80000000) :=
  fdtAllocPhandle_fresh_iff rimTree_repr

/-- The phandle of the second node is handed out again. -/
theorem rimTree_taken :
    ∃ j n, rimTree.get? j = some n ∧
      n.phandle = (UInt32.ofInt (fdtAllocPhandle (rimTree.blob 0))).toNat := by
  obtain ⟨m, hm, h₀, hall, hex⟩ := fdtAllocPhandle_spec rimTree_repr
  have hone := hall 1 _ rfl
  have hp : DtNode.phandle ⟨Bytes.ofString "a", [(strPhandle, be32 0x7fffffff)]⟩ = 2147483647 := rfl
  rw [hp, toInt32_of_lt (by omega)] at hone
  obtain ⟨hle, hnat⟩ := toNat_successor h₀ hex
  refine ⟨2, _, rfl, ?_⟩
  have hq : DtNode.phandle ⟨Bytes.ofString "b", [(strPhandle, be32 0x80000000)]⟩ = 2147483648 := rfl
  rw [hq, hm]
  omega

end Babelfish
