import Babelfish.Strings.Search
import Babelfish.FdtTools

/-! `strncat` of `string.c`, which measures its source at every step. -/

namespace Babelfish.Strings

open Bytes

/-- `for (; i < strlen(src) && i < n; i++) out[i] = src[i];` with `left` indices below `n` to go, and the
NUL behind it. The last argument counts the bytes of `src` examined so far. -/
def strncatLoop (out src : Addr) : (left i : Nat) → Memory → (examined : Nat) → Option (Memory × Nat)
  | 0, i, m, examined => do
    let l ← strlen m src
    return (m.write (out + UInt32.ofNat i) 0, max examined (l + 1))
  | left + 1, i, m, examined => do
    let l ← strlen m src
    if i < l then
      strncatLoop out src left (i + 1) (m.write (out + UInt32.ofNat i) (m (src + UInt32.ofNat i)))
        (max examined (l + 1))
    else return (m.write (out + UInt32.ofNat i) 0, max examined (l + 1))

/-- The memory behind the call, which returns `dest`, and the number of bytes of `src` examined; `none` is
a call that does not return. -/
def strncat (m : Memory) (dest src : Addr) (n : UInt32) : Option (Memory × Nat) := do
  let destlen ← strlen m dest
  strncatLoop (dest + UInt32.ofNat destlen) src n.toNat 0 m 0

/-- The call returns, appends what `src` holds in its first `n` bytes and changes nothing else, and no
other byte of `src` is examined or matters. -/
def StrncatExact (m : Memory) (dest src : Addr) (n : UInt32) (d : Nat) : Prop :=
  let t := cstr (m.read src n.toNat)
  ∃ m' examined, strncat m dest src n = some (m', examined) ∧
    m'.Holds dest (m.read dest d ++ (t ++ [0])) ∧
    (∀ a, (∀ i ≤ t.length, a ≠ dest + UInt32.ofNat (d + i)) → m' a = m a) ∧
    examined ≤ n.toNat ∧
    ∀ m₂ : Memory, m₂.read dest (d + 1) = m.read dest (d + 1) →
      m₂.read src n.toNat = m.read src n.toNat →
      ∃ m₂' examined, strncat m₂ dest src n = some (m₂', examined) ∧
        m₂'.Holds dest (m.read dest d ++ (t ++ [0]))

section

variable {m m₀ : Memory} {dest src out : Addr} {l n d : Nat}

theorem isStr_of_mem (hn : n < addresses) (h : 0 ∈ m.read src n) : ∃ l < n, IsStr m src l := by
  obtain ⟨l, hl, hp, hbefore, -⟩ | ⟨hno, -⟩ := first_or_none (fun i => m (src + UInt32.ofNat i) = 0) n
  · exact ⟨l, hl, by omega, fun i hi => by simpa using hbefore i hi, by simpa using hp⟩
  · obtain ⟨i, hi, hz⟩ := Memory.mem_read.mp h
    exact absurd (by simpa using hz) (hno i hi)

theorem IsStr.mem_read (h : IsStr m src l) (hl : l < n) : 0 ∈ m.read src n :=
  Memory.mem_read.mpr ⟨l, hl, h.nul⟩

theorem IsStr.not_mem (h : IsStr m src l) : 0 ∉ m.read src l := fun hz => by
  obtain ⟨i, hi, he⟩ := Memory.mem_read.mp hz
  exact h.ne i hi he

theorem IsStr.cstr_read (h : IsStr m src l) (hl : l < n) : cstr (m.read src n) = m.read src l := by
  obtain ⟨k, rfl⟩ : ∃ k, n = l + (k + 1) := ⟨n - l - 1, by omega⟩
  rw [Memory.read_add, Memory.read_succ, h.nul]
  exact cstr_append h.not_mem _

theorem IsStr.congr {m₂ : Memory} (h : IsStr m src l)
    (hm : ∀ i ≤ l, m₂ (src + UInt32.ofNat i) = m (src + UInt32.ofNat i)) : IsStr m₂ src l where
  lt := h.lt
  ne i hi := hm i (Nat.le_of_lt hi) ▸ h.ne i hi
  nul := (hm l (Nat.le_refl l)).trans h.nul

theorem strncatLoop_isStr (hsrc : IsStr m₀ src l)
    (hapart : ∀ i ≤ l, ∀ j ≤ l, out + UInt32.ofNat i ≠ src + UInt32.ofNat j) (left : Nat) {i : Nat}
    (examined : Nat) (h : Moved m₀ out src 0 i m) (hi : i ≤ l) (hl : l ≤ i + left) :
    ∃ m', Moved m₀ out src 0 l m' ∧ strncatLoop out src left i m examined =
      some (m'.write (out + UInt32.ofNat l) 0, max examined (l + 1)) := by
  have hlt := hsrc.lt
  unfold addresses at hlt
  have hkept : ∀ j ≤ l, m (src + UInt32.ofNat j) = m₀ (src + UInt32.ofNat j) := fun j hj =>
    h.frame _ fun k _ hk => (hapart k (by omega) j hj).symm
  induction left generalizing i m examined with
  | zero =>
    obtain rfl : i = l := by omega
    refine ⟨m, h, ?_⟩
    rw [strncatLoop, (hsrc.congr hkept).strlen]
    rfl
  | succ left ih =>
    rw [strncatLoop, (hsrc.congr hkept).strlen]
    by_cases he : i < l
    · have hup := h.up (Nat.zero_le i) (by omega) (hkept i hi)
      obtain ⟨m', hm', hrun⟩ := ih (max examined (l + 1)) hup he (by omega) fun j hj =>
        hup.frame _ fun k _ hk => (hapart k (by omega) j hj).symm
      refine ⟨m', hm', ?_⟩
      rw [Option.bind_eq_bind, Option.bind_some, if_pos he, hrun, Nat.max_assoc, Nat.max_self]
    · obtain rfl : i = l := by omega
      refine ⟨m, h, ?_⟩
      rw [Option.bind_eq_bind, Option.bind_some, if_neg he]
      rfl

theorem lt_strncatLoop {left i examined e : Nat} {m' : Memory}
    (h : strncatLoop out src left i m examined = some (m', e)) :
    examined ≤ e ∧ ∃ l, strlen m src = some l ∧ l < e := by
  induction left generalizing i m examined with
  | zero =>
    rw [strncatLoop, Option.bind_eq_bind, Option.bind_eq_some_iff] at h
    obtain ⟨l, hl, he⟩ := h
    obtain ⟨-, rfl⟩ := Prod.mk.inj (Option.some.inj he)
    exact ⟨Nat.le_max_left .., l, hl, Nat.le_max_right ..⟩
  | succ left ih =>
    rw [strncatLoop, Option.bind_eq_bind, Option.bind_eq_some_iff] at h
    obtain ⟨l, hl, he⟩ := h
    split at he
    · obtain ⟨hle, -⟩ := ih he
      exact ⟨by omega, l, hl, by omega⟩
    · obtain ⟨-, rfl⟩ := Prod.mk.inj (Option.some.inj he)
      exact ⟨Nat.le_max_left .., l, hl, Nat.le_max_right ..⟩

theorem strncat_isStr {n : UInt32} (hdest : IsStr m dest d) (hsrc : IsStr m src l) (hl : l < n.toNat)
    (hroom : dest.toNat + d + l + 1 ≤ 2 ^ 32)
    (hapart : ∀ i ≤ l, ∀ j < n.toNat, dest + UInt32.ofNat (d + i) ≠ src + UInt32.ofNat j) :
    ∃ m', strncat m dest src n = some (m', l + 1) ∧
      m'.Holds dest (m.read dest d ++ (m.read src l ++ [0])) ∧
      ∀ a, (∀ i ≤ l, a ≠ dest + UInt32.ofNat (d + i)) → m' a = m a := by
  obtain ⟨m', hm', hrun⟩ := strncatLoop_isStr hsrc
    (fun i hi j hj => by rw [Memory.add_ofNat_add]; exact hapart i hi j (by omega))
    n.toNat 0 (Moved.refl m (dest + UInt32.ofNat d) src 0) (Nat.zero_le l) (by omega)
  rw [Memory.add_ofNat_add, Nat.zero_max] at hrun
  have hframe : ∀ a, (∀ i ≤ l, a ≠ dest + UInt32.ofNat (d + i)) →
      (m'.write (dest + UInt32.ofNat (d + l)) 0) a = m a := fun a ha => by
    rw [Memory.write_of_ne (ha l (Nat.le_refl l))]
    exact hm'.frame a fun i _ hi => by rw [Memory.add_ofNat_add]; exact ha i (Nat.le_of_lt hi)
  refine ⟨_, by rw [strncat, hdest.strlen]; exact hrun, ?_, hframe⟩
  rw [Memory.holds_append, Memory.holds_append]
  unfold Memory.Holds
  rw [Memory.length_read, Memory.length_read]
  refine ⟨Memory.read_congr fun i hi => ?_, Memory.read_congr fun i hi => ?_, ?_⟩
  · refine hframe _ fun j hj => ?_
    rw [Memory.add_ofNat_ne_iff (by omega), Memory.toNat_add_ofNat (by omega)]
    omega
  · rw [Memory.write_of_ne, hm'.moved i (Nat.zero_le i) hi]
    rw [Memory.add_ofNat_add, Memory.add_ofNat_ne_iff (by omega), Memory.toNat_add_ofNat (by omega)]
    omega
  · rw [Memory.add_ofNat_add, List.length_singleton, Memory.read_succ, Memory.write_self,
      Memory.read_zero]

end

/-- `strncat` respects its bound just if there is a NUL within it: it measures the source before it
compares the index with `n`. -/
theorem strncat_exact_iff (m : Memory) (dest src : Addr) (n : UInt32) {d : Nat} (hdest : IsStr m dest d)
    (hroom : dest.toNat + d + (cstr (m.read src n.toNat)).length + 1 ≤ 2 ^ 32)
    (hapart : ∀ i ≤ (cstr (m.read src n.toNat)).length, ∀ j < n.toNat,
      dest + UInt32.ofNat (d + i) ≠ src + UInt32.ofNat j) :
    StrncatExact m dest src n d ↔ 0 ∈ m.read src n.toNat := by
  have hn : n.toNat < addresses := n.toNat_lt
  constructor
  · rintro ⟨m', examined, hrun, -, -, hle, -⟩
    rw [strncat, hdest.strlen, Option.bind_eq_bind, Option.bind_some] at hrun
    obtain ⟨-, l, hl, hlt⟩ := lt_strncatLoop hrun
    exact (isStr_of_strlen hl).mem_read (by omega)
  · intro hz
    obtain ⟨l, hl, hsrc⟩ := isStr_of_mem hn hz
    rw [hsrc.cstr_read hl, Memory.length_read] at hroom hapart
    simp only [StrncatExact, hsrc.cstr_read hl, Memory.length_read]
    obtain ⟨m', hrun, hholds, hframe⟩ := strncat_isStr hdest hsrc hl hroom hapart
    refine ⟨m', l + 1, hrun, hholds, hframe, hl, fun m₂ hd hs => ?_⟩
    have hd' := Memory.read_eq_iff.mp hd
    have hs' := Memory.read_eq_iff.mp hs
    obtain ⟨m₂', hrun₂, hholds₂, -⟩ := strncat_isStr (hdest.congr fun i hi => hd' i (by omega))
      (hsrc.congr fun i hi => hs' i (by omega)) hl hroom hapart
    refine ⟨m₂', l + 1, hrun₂, ?_⟩
    rwa [Memory.read_congr fun i hi => hd' i (by omega),
      Memory.read_congr fun i hi => hs' i (by omega)] at hholds₂

def pairMemory : Memory := Memory.ofBytes [97, 0, 0, 0, 0, 0, 0, 0, 98, 0]

theorem pairMemory_isStr : IsStr pairMemory 0 1 where
  lt := by decide
  ne i hi := by
    obtain rfl : i = 0 := by omega
    exact (by decide : (97 : UInt8) ≠ 0)
  nul := rfl

theorem strncat_exact_iff_nul : StrncatExact pairMemory 0 8 2 1 :=
  (strncat_exact_iff pairMemory 0 8 2 pairMemory_isStr (by decide) (by decide)).mpr (by decide)

def charMemory (c : UInt8) : Memory := Memory.ofBytes [97, 0, 0, 0, 0, 0, 0, 0, c, 99, 0]

/-- The two bytes behind a character other than NUL are examined. -/
theorem charMemory_examined : (strncat (charMemory 98) 0 8 1).map Prod.snd = some 3 ∧
    ¬StrncatExact (charMemory 98) 0 8 1 1 := by
  have hthree : (strncat (charMemory 98) 0 8 1).map Prod.snd = some 3 := by decide
  refine ⟨hthree, fun ⟨m', examined, hrun, _, _, hle, _⟩ => ?_⟩
  rw [hrun, Option.map_some, Option.some.injEq] at hthree
  simp only at hthree
  exact absurd (hthree ▸ hle) (by decide)

theorem read_write_end {m : Memory} {dest : Addr} {d k : Nat} (hroom : dest.toNat + k < 2 ^ 32)
    (hk : d ≤ k) (v : UInt8) : (m.write (dest + UInt32.ofNat k) v).read dest d = m.read dest d :=
  Memory.read_congr fun i hi => Memory.write_of_ne fun he => by
    have := (Memory.add_ofNat_inj (by omega) (by omega)).mp he
    omega

theorem strncat_char {m m' : Memory} {dest src : Addr} {d examined : Nat} (hdest : IsStr m dest d)
    (hroom : dest.toNat + d + 2 ≤ 2 ^ 32) (h : strncat m dest src 1 = some (m', examined)) :
    m'.Holds dest (catChar (m.read dest d) (m src) ++ [0]) := by
  have hone : (1 : UInt32).toNat = 1 := rfl
  have hzero : ∀ a : Addr, a + UInt32.ofNat 0 = a := UInt32.add_zero
  rw [strncat, hdest.strlen, Option.bind_eq_bind, Option.bind_some, hone, strncatLoop,
    Option.bind_eq_bind, Option.bind_eq_some_iff] at h
  obtain ⟨l, hl, hrun⟩ := h
  have hstr := isStr_of_strlen hl
  rw [hzero, hzero] at hrun
  by_cases hc : m src = 0
  · have hnone : ¬0 < l := fun hpos => hstr.ne 0 hpos (by rw [hzero, hc])
    rw [if_neg hnone] at hrun
    obtain ⟨rfl, -⟩ := Prod.mk.inj (Option.some.inj hrun)
    rw [catChar, if_pos hc, Memory.holds_append, Memory.length_read]
    unfold Memory.Holds
    rw [Memory.length_read, read_write_end (by omega) (Nat.le_refl d), List.length_singleton,
      Memory.read_succ, Memory.write_self]
    exact ⟨rfl, rfl⟩
  · have hpos : 0 < l := Nat.pos_of_ne_zero fun hz => by
      have hnul := hstr.nul
      rw [hz, hzero] at hnul
      exact hc hnul
    rw [if_pos hpos, strncatLoop, Option.bind_eq_bind, Option.bind_eq_some_iff] at hrun
    obtain ⟨l', -, hrun⟩ := hrun
    obtain ⟨rfl, -⟩ := Prod.mk.inj (Option.some.inj hrun)
    rw [Memory.add_ofNat_add, catChar, if_neg hc, Memory.holds_append, Memory.holds_append]
    unfold Memory.Holds
    have hne : dest + UInt32.ofNat d ≠ dest + UInt32.ofNat (d + 1) := fun he => by
      have := (Memory.add_ofNat_inj (by omega) (by omega)).mp he
      omega
    simp only [List.length_append, List.length_singleton, Memory.length_read]
    rw [read_write_end (by omega) (by omega), read_write_end (by omega) (Nat.le_refl d),
      Memory.read_succ, Memory.read_succ, Memory.write_of_ne hne, Memory.write_self, Memory.write_self]
    exact ⟨⟨rfl, rfl⟩, rfl⟩

end Babelfish.Strings
