import Babelfish.Lib.Bytes

/-! The functions of `string.c` on buffers. -/

namespace Babelfish

open Bytes

def strlen (s : Bytes) : Nat := (cstr s).length

def strcpy (dest src : Bytes) : Bytes := cstr src ++ 0 :: dest.drop (strlen src + 1)

def strcat (dest src : Bytes) : Bytes :=
  dest.take (strlen dest) ++ strcpy (dest.drop (strlen dest)) src

def strcmpLoop : Bytes → Bytes → Int
  | a :: s, b :: t =>
    let res : Int := a.toNat - b.toNat
    if res ≠ 0 then res else strcmpLoop s t
  | _, _ => 0

def strcmp (s₁ s₂ : Bytes) : Int :=
  if strlen s₁ < strlen s₂ then -1
  else if strlen s₂ < strlen s₁ then 1
  else strcmpLoop (cstr s₁) (cstr s₂)

/-- The bump allocator never fails; nothing depends on what a new buffer holds. -/
def malloc (size : Nat) : Bytes := List.replicate size 0

theorem take_strlen (s : Bytes) : s.take (strlen s) = cstr s := by
  unfold strlen
  induction s with
  | nil => rfl
  | cons b s ih =>
    by_cases hb : b = 0
    · simp [cstr, hb]
    · simp [cstr, hb, ih]

theorem cstr_strcpy (dest src : Bytes) : cstr (strcpy dest src) = cstr src :=
  cstr_append (zero_not_mem_cstr src) _

theorem cstr_strcat (dest src : Bytes) : cstr (strcat dest src) = cstr dest ++ cstr src := by
  have hz : 0 ∉ cstr dest ++ cstr src := by
    rw [List.mem_append, not_or]
    exact ⟨zero_not_mem_cstr dest, zero_not_mem_cstr src⟩
  rw [strcat, strcpy, take_strlen, ← List.append_assoc, cstr_append hz]

theorem length_strcpy {dest src : Bytes} (h : strlen src < dest.length) :
    (strcpy dest src).length = dest.length := by
  unfold strlen at h
  simp only [strcpy, strlen, List.length_append, List.length_cons, List.length_drop]
  omega

theorem length_strcat {dest src : Bytes} (h : strlen dest + strlen src < dest.length) :
    (strcat dest src).length = dest.length := by
  have hd : strlen src < (dest.drop (strlen dest)).length := by
    rw [List.length_drop]
    omega
  rw [strcat, List.length_append, length_strcpy hd, List.length_take, List.length_drop]
  omega

theorem strcmpLoop_eq_zero {s t : Bytes} (h : s.length = t.length) : strcmpLoop s t = 0 ↔ s = t := by
  induction s generalizing t with
  | nil =>
    have : t = [] := List.length_eq_zero_iff.mp h.symm
    simp [this, strcmpLoop]
  | cons a s ih =>
    cases t with
    | nil => simp at h
    | cons b t =>
      have hlen : s.length = t.length := by simpa using h
      have hab : (a.toNat : Int) - b.toNat = 0 ↔ a = b := by
        rw [← UInt8.toNat_inj]
        omega
      simp only [strcmpLoop, List.cons.injEq, ne_eq, hab]
      by_cases he : a = b
      · simp [he, ih hlen]
      · simp only [he, not_false_eq_true, if_true, false_and, iff_false]
        exact fun h0 => he (hab.mp h0)

theorem strcmp_eq_zero (s t : Bytes) : strcmp s t = 0 ↔ cstr s = cstr t := by
  unfold strcmp
  split
  · rename_i h
    refine ⟨fun h0 => by omega, fun he => ?_⟩
    simp [strlen, he] at h
  · split
    · rename_i h
      refine ⟨fun h0 => by omega, fun he => ?_⟩
      simp [strlen, he] at h
    · rename_i h₁ h₂
      exact strcmpLoop_eq_zero (by unfold strlen at h₁ h₂; omega)

end Babelfish
