import Babelfish.Lib.Bytes

/-! Decimal numerals. -/

namespace Babelfish.Bytes

def decimal (n : Nat) : Bytes := (Nat.toDigits 10 n).map fun c => UInt8.ofNat c.toNat

def digit (n : Nat) : UInt8 := UInt8.ofNat (48 + n)

theorem toNat_digit {n : Nat} (h : n < 10) : (digit n).toNat = 48 + n := by
  rw [digit, UInt8.toNat_ofNat']
  omega

theorem digitChar_toNat {n : Nat} (h : n < 10) : n.digitChar.toNat = 48 + n := by
  have hall : ∀ d < 10, Char.toNat (Nat.digitChar d) = 48 + d := by decide
  exact hall n h

theorem decimal_of_lt {n : Nat} (h : n < 10) : decimal n = [digit n] := by
  rw [decimal, Nat.toDigits_of_lt_base h, List.map_singleton, digitChar_toNat h, digit]

theorem decimal_of_le {n : Nat} (h : 10 ≤ n) :
    decimal n = decimal (n / 10) ++ [digit (n % 10)] := by
  have hmod : n % 10 < 10 := Nat.mod_lt _ (by decide)
  rw [decimal, Nat.toDigits_of_base_le (by decide) h, List.map_append, List.map_singleton,
    digitChar_toNat hmod, decimal, digit]

theorem length_decimal_le {n k : Nat} (hk : 0 < k) : (decimal n).length ≤ k ↔ n < 10 ^ k := by
  rw [decimal, List.length_map, Nat.length_toDigits_le_iff (by decide) hk]

theorem decimal_injective : Function.Injective decimal := by
  intro n m h
  induction n using Nat.strong_induction_on generalizing m with
  | _ n ih =>
    by_cases hn : n < 10
    · by_cases hm : m < 10
      · have hdigit := congrArg UInt8.toNat (List.cons.inj (decimal_of_lt hn ▸ decimal_of_lt hm ▸ h)).1
        rw [toNat_digit hn, toNat_digit hm] at hdigit
        omega
      · have hlen := (length_decimal_le Nat.one_pos).mp (h ▸ (length_decimal_le Nat.one_pos).mpr hn)
        omega
    · by_cases hm : m < 10
      · have hlen := (length_decimal_le Nat.one_pos).mp (h ▸ (length_decimal_le Nat.one_pos).mpr hm)
        omega
      · rw [decimal_of_le (Nat.le_of_not_lt hn), decimal_of_le (Nat.le_of_not_lt hm)] at h
        obtain ⟨hdiv, hlast⟩ := List.append_inj' h rfl
        have hdigit := congrArg UInt8.toNat (List.cons.inj hlast).1
        rw [toNat_digit (Nat.mod_lt _ (by decide)), toNat_digit (Nat.mod_lt _ (by decide))] at hdigit
        have hquot := ih (n / 10) (by omega) hdiv
        omega

end Babelfish.Bytes
