import Babelfish.Strings.Move

/-! `memchr`, `memcmp`, `strlen` and `strchr` of `string.c`. Each loop counts the bytes that it examines,
from the start of the buffer on. -/

namespace Babelfish.Strings

/-- `while (!stop(i++) && --n);` where the next `--n` leaves `left`: the last `i` and `n`. -/
def countdown (stop : Nat → Bool) : (left i : Nat) → Nat × UInt32
  | 0, i => (i + 1, if stop i then 1 else 0)
  | left + 1, i =>
    if stop i then (i + 1, UInt32.ofNat (left + 2)) else countdown stop left (i + 1)

/-- The result, and the number of bytes examined. The first `--n` leaves `n - 1`, for `n = 0` too. -/
def memchr (m : Memory) (s : Addr) (c : UInt8) (n : UInt32) : Option Addr × Nat :=
  let (i, n) := countdown (fun i => m (s + UInt32.ofNat i) = c) (n - 1).toNat 0
  (if n ≠ 0 then some (s + UInt32.ofNat i) else none, i)

def memcmp (m : Memory) (s₁ s₂ : Addr) (n : UInt32) : Int × Nat :=
  let (i, _) := countdown (fun i => m (s₁ + UInt32.ofNat i) ≠ m (s₂ + UInt32.ofNat i)) (n - 1).toNat 0
  ((m (s₁ + UInt32.ofNat i - 1)).toNat - (m (s₂ + UInt32.ofNat i - 1)).toNat, i)

/-- The loop of `strlen`, which does not end where there is no NUL. -/
def strlenLoop (m : Memory) (s : Addr) : (fuel i : Nat) → Option Nat
  | 0, _ => none
  | fuel + 1, i => if m (s + UInt32.ofNat i) = 0 then some i else strlenLoop m s fuel (i + 1)

def addresses : Nat := 4294967296

def strlen (m : Memory) (s : Addr) : Option Nat := strlenLoop m s addresses 0

/-- `while ((*s++ != c) && *s);` with what `--s` comes to behind it, and the number of bytes examined. -/
def strchrLoop (m : Memory) (s : Addr) (c : UInt8) : (fuel i : Nat) → Option (Nat × Nat)
  | 0, _ => none
  | fuel + 1, i =>
    if m (s + UInt32.ofNat i) = c then some (i, i + 1)
    else if m (s + UInt32.ofNat (i + 1)) = 0 then some (i, i + 2)
    else strchrLoop m s c fuel (i + 1)

def strchr (m : Memory) (s : Addr) (c : UInt8) : Option (Option Addr × Nat) :=
  (strchrLoop m s c addresses 0).map fun (i, examined) =>
    (if m (s + UInt32.ofNat i) = c then some (s + UInt32.ofNat i) else none, examined)

section

variable {d : Nat}

theorem countdown_of_stop (stop : Nat → Bool) (left i : Nat) (h : stop (i + d))
    (hbefore : ∀ e < d, ¬stop (i + e)) (hd : d ≤ left) :
    countdown stop left i = (i + d + 1, UInt32.ofNat (left - d + 1)) := by
  induction left generalizing i d with
  | zero =>
    obtain rfl : d = 0 := by omega
    rw [Nat.add_zero] at h
    simp [countdown, h]
  | succ left ih =>
    cases d with
    | zero =>
      rw [Nat.add_zero] at h
      rw [countdown, if_pos h]
      rfl
    | succ d =>
      have hno : ¬stop i := hbefore 0 (Nat.succ_pos d)
      have harg : i + (d + 1) = i + 1 + d := by omega
      have hsub : left + 1 - (d + 1) = left - d := by omega
      rw [countdown, if_neg hno, harg, hsub]
      refine ih (i + 1) (harg ▸ h) (fun e he => ?_) (by omega)
      have hnext := hbefore (e + 1) (by omega)
      rwa [← Nat.add_assoc, Nat.add_right_comm] at hnext

theorem countdown_of_none (stop : Nat → Bool) (left i : Nat) (h : ∀ e ≤ left, ¬stop (i + e)) :
    countdown stop left i = (i + left + 1, 0) := by
  induction left generalizing i with
  | zero =>
    have hno : ¬stop i := h 0 (Nat.le_refl 0)
    simp [countdown, hno]
  | succ left ih =>
    have hno : ¬stop i := h 0 (Nat.zero_le _)
    have harg : i + (left + 1) = i + 1 + left := by omega
    rw [countdown, if_neg hno, harg]
    refine ih (i + 1) fun e he => ?_
    have hnext := h (e + 1) (by omega)
    rwa [← Nat.add_assoc, Nat.add_right_comm] at hnext

theorem lt_countdown (stop : Nat → Bool) (left i : Nat) : i < (countdown stop left i).1 := by
  induction left generalizing i with
  | zero => exact Nat.lt_succ_self i
  | succ left ih =>
    rw [countdown]
    split
    · exact Nat.lt_succ_self i
    · exact Nat.lt_trans (Nat.lt_succ_self i) (ih (i + 1))

theorem first_or_none (p : Nat → Bool) (n : Nat) :
    (∃ d < n, p d ∧ (∀ e < d, ¬p e) ∧ (List.range n).find? p = some d) ∨
      (∀ d < n, ¬p d) ∧ (List.range n).find? p = none := by
  cases hfind : (List.range n).find? p with
  | none =>
    refine Or.inr ⟨fun d hd => ?_, rfl⟩
    exact List.find?_eq_none.mp hfind d (List.mem_range.mpr hd)
  | some d =>
    obtain ⟨hp, hd, hbefore⟩ := List.find?_range_eq_some.mp hfind
    rw [List.mem_range] at hd
    exact Or.inl ⟨d, hd, hp, fun e he => by simpa using hbefore e he, rfl⟩

end

theorem toNat_pred {n : UInt32} (h : 0 < n.toNat) : (n - 1).toNat = n.toNat - 1 := by
  have hone : (1 : UInt32).toNat = 1 := rfl
  have hsub := UInt32.toNat_sub n 1
  have hlt := n.toNat_lt
  omega

theorem pred_succ (s : Addr) (i : Nat) : s + UInt32.ofNat (i + 1) - 1 = s + UInt32.ofNat i := by
  rw [UInt32.ofNat_add, ← UInt32.add_assoc]
  exact UInt32.add_sub_cancel _ 1

section

variable {m : Memory} {s s₁ s₂ : Addr} {c : UInt8} {n : UInt32} {d : Nat}

theorem memchr_of_first (hd : d < n.toNat) (hc : m (s + UInt32.ofNat d) = c)
    (hbefore : ∀ e < d, m (s + UInt32.ofNat e) ≠ c) :
    memchr m s c n = (some (s + UInt32.ofNat (d + 1)), d + 1) := by
  have hlt := n.toNat_lt
  have hcount := countdown_of_stop (fun i => m (s + UInt32.ofNat i) = c) (n - 1).toNat 0
    (d := d) (by simpa using hc) (fun e he => by simpa using hbefore e he)
    (by rw [toNat_pred (by omega)]; omega)
  have hne : UInt32.ofNat ((n - 1).toNat - d + 1) ≠ 0 := by
    rw [Ne, ← UInt32.toNat_inj, UInt32.toNat_ofNat', toNat_pred (by omega)]
    have hzero : (0 : UInt32).toNat = 0 := rfl
    omega
  rw [memchr, hcount, Nat.zero_add]
  simp only [if_pos hne]

theorem memchr_of_not_mem (hn : 0 < n.toNat) (hc : c ∉ m.read s n.toNat) :
    memchr m s c n = (none, n.toNat) := by
  have hcount := countdown_of_none (fun i => m (s + UInt32.ofNat i) = c) (n - 1).toNat 0
    (fun e he => by
      rw [toNat_pred hn] at he
      simpa using fun h => hc (Memory.mem_read.mpr ⟨e, by omega, h⟩))
  have hlast : 0 + (n.toNat - 1) + 1 = n.toNat := by omega
  rw [memchr, hcount, toNat_pred hn, hlast]
  simp

/-- What `memchr` is to return, and that it looks at no more than `n` bytes. -/
def MemchrExact (m : Memory) (s : Addr) (c : UInt8) (n : UInt32) : Prop :=
  (memchr m s c n).1 =
      ((List.range n.toNat).find? fun i => m (s + UInt32.ofNat i) = c).map (s + UInt32.ofNat ·) ∧
    (memchr m s c n).2 ≤ n.toNat

theorem memchrExact_iff (m : Memory) (s : Addr) (c : UInt8) (n : UInt32) :
    MemchrExact m s c n ↔ 0 < n.toNat ∧ c ∉ m.read s n.toNat := by
  constructor
  · rintro ⟨hret, hexamined⟩
    have hn : 0 < n.toNat := Nat.lt_of_lt_of_le (lt_countdown _ _ _) hexamined
    refine ⟨hn, fun hmem => ?_⟩
    obtain ⟨d, hd, hp, hbefore, hfind⟩ | ⟨hno, -⟩ :=
      first_or_none (fun i => m (s + UInt32.ofNat i) = c) n.toNat
    · have hlt := n.toNat_lt
      rw [memchr_of_first hd (by simpa using hp) (fun e he => by simpa using hbefore e he), hfind,
        Option.map_some, Option.some.injEq] at hret
      have hne := (Memory.add_ofNat_inj (by omega) (by omega)).mp hret
      omega
    · obtain ⟨d, hd, hc⟩ := Memory.mem_read.mp hmem
      exact hno d hd (by simpa using hc)
  · rintro ⟨hn, hc⟩
    obtain ⟨d, hd, hp, -, -⟩ | ⟨-, hfind⟩ := first_or_none (fun i => m (s + UInt32.ofNat i) = c) n.toNat
    · exact absurd (Memory.mem_read.mpr ⟨d, hd, by simpa using hp⟩) hc
    · rw [MemchrExact, memchr_of_not_mem hn hc, hfind]
      exact ⟨rfl, Nat.le_refl _⟩

theorem memcmp_of_first (hd : d < n.toNat) (hne : m (s₁ + UInt32.ofNat d) ≠ m (s₂ + UInt32.ofNat d))
    (hbefore : ∀ e < d, m (s₁ + UInt32.ofNat e) = m (s₂ + UInt32.ofNat e)) :
    memcmp m s₁ s₂ n =
      (((m (s₁ + UInt32.ofNat d)).toNat - (m (s₂ + UInt32.ofNat d)).toNat : Int), d + 1) := by
  have hcount := countdown_of_stop
    (fun i => m (s₁ + UInt32.ofNat i) ≠ m (s₂ + UInt32.ofNat i)) (n - 1).toNat 0 (d := d)
    (by simpa using hne) (fun e he => by simpa using hbefore e he)
    (by rw [toNat_pred (by omega)]; omega)
  rw [memcmp, hcount, Nat.zero_add]
  simp only [pred_succ]

theorem memcmp_of_eq (hn : 0 < n.toNat) (h : m.read s₁ n.toNat = m.read s₂ n.toNat) :
    memcmp m s₁ s₂ n = (0, n.toNat) := by
  have hall := Memory.read_eq_iff.mp h
  have hcount := countdown_of_none
    (fun i => m (s₁ + UInt32.ofNat i) ≠ m (s₂ + UInt32.ofNat i)) (n - 1).toNat 0 (fun e he => by
      rw [toNat_pred hn] at he
      simpa using hall e (by omega))
  have hlast : (n - 1).toNat + 1 = n.toNat := by
    rw [toNat_pred hn, Nat.sub_add_cancel hn]
  rw [memcmp, hcount, Nat.zero_add]
  simp only [pred_succ, hall (n - 1).toNat (by omega), Int.sub_self]
  rw [hlast]

def MemcmpExact (m : Memory) (s₁ s₂ : Addr) (n : UInt32) : Prop :=
  ((memcmp m s₁ s₂ n).1 = 0 ↔ m.read s₁ n.toNat = m.read s₂ n.toNat) ∧
    (∀ d < n.toNat, m (s₁ + UInt32.ofNat d) ≠ m (s₂ + UInt32.ofNat d) →
      (∀ e < d, m (s₁ + UInt32.ofNat e) = m (s₂ + UInt32.ofNat e)) →
      (memcmp m s₁ s₂ n).1.sign =
        ((m (s₁ + UInt32.ofNat d)).toNat - (m (s₂ + UInt32.ofNat d)).toNat : Int).sign) ∧
    (memcmp m s₁ s₂ n).2 ≤ n.toNat

theorem memcmpExact_iff (m : Memory) (s₁ s₂ : Addr) (n : UInt32) :
    MemcmpExact m s₁ s₂ n ↔ 0 < n.toNat := by
  constructor
  · rintro ⟨-, -, hexamined⟩
    exact Nat.lt_of_lt_of_le (lt_countdown _ _ _) hexamined
  · intro hn
    obtain ⟨d, hd, hp, hbefore, -⟩ | ⟨hno, -⟩ :=
      first_or_none (fun i => m (s₁ + UInt32.ofNat i) ≠ m (s₂ + UInt32.ofNat i)) n.toNat
    · have hne : m (s₁ + UInt32.ofNat d) ≠ m (s₂ + UInt32.ofNat d) := by simpa using hp
      have heq : ∀ e < d, m (s₁ + UInt32.ofNat e) = m (s₂ + UInt32.ofNat e) := fun e he => by
        simpa using hbefore e he
      have hread : m.read s₁ n.toNat ≠ m.read s₂ n.toNat := fun h =>
        hne (Memory.read_eq_iff.mp h d hd)
      have hnat : (m (s₁ + UInt32.ofNat d)).toNat ≠ (m (s₂ + UInt32.ofNat d)).toNat := fun h =>
        hne (UInt8.toNat_inj.mp h)
      unfold MemcmpExact
      rw [memcmp_of_first hd hne heq]
      refine ⟨⟨fun h => ?_, fun h => absurd h hread⟩, fun d' hd' hne' heq' => ?_, hd⟩
      · simp only at h
        omega
      · obtain hlt | rfl | hlt := Nat.lt_trichotomy d d'
        · exact absurd (heq' d hlt) hne
        · rfl
        · exact absurd (heq d' hlt) hne'
    · have hall : ∀ e < n.toNat, m (s₁ + UInt32.ofNat e) = m (s₂ + UInt32.ofNat e) := fun e he => by
        simpa using hno e he
      unfold MemcmpExact
      rw [memcmp_of_eq hn (Memory.read_congr hall)]
      exact ⟨⟨fun _ => Memory.read_congr hall, fun _ => rfl⟩, fun d hd hne _ => absurd (hall d hd) hne,
        Nat.le_refl _⟩

end

structure IsStr (m : Memory) (s : Addr) (l : Nat) : Prop where
  lt : l < addresses
  ne : ∀ i < l, m (s + UInt32.ofNat i) ≠ 0
  nul : m (s + UInt32.ofNat l) = 0

section

variable {m : Memory} {s : Addr} {c : UInt8} {l : Nat}

theorem strlenLoop_eq (hne : ∀ i < l, m (s + UInt32.ofNat i) ≠ 0) (hnul : m (s + UInt32.ofNat l) = 0)
    (fuel i : Nat) (hi : i ≤ l) (hfuel : l < i + fuel) : strlenLoop m s fuel i = some l := by
  induction fuel generalizing i with
  | zero => omega
  | succ fuel ih =>
    rw [strlenLoop]
    by_cases he : i = l
    · rw [he, if_pos hnul]
    · rw [if_neg (hne i (by omega))]
      exact ih (i + 1) (by omega) (by omega)

theorem IsStr.strlen (h : IsStr m s l) : strlen m s = some l :=
  strlenLoop_eq h.ne h.nul addresses 0 (Nat.zero_le l) (by have := h.lt; omega)

theorem strlenLoop_some {fuel i : Nat} (h : strlenLoop m s fuel i = some l) :
    i ≤ l ∧ l < i + fuel ∧ m (s + UInt32.ofNat l) = 0 ∧
      ∀ j, i ≤ j → j < l → m (s + UInt32.ofNat j) ≠ 0 := by
  induction fuel generalizing i with
  | zero => cases h
  | succ fuel ih =>
    rw [strlenLoop] at h
    split at h
    · rename_i hz
      obtain rfl := Option.some.inj h
      exact ⟨Nat.le_refl i, by omega, hz, fun j hj hj' => by omega⟩
    · rename_i hz
      obtain ⟨hle, hlt, hnul, hne⟩ := ih h
      refine ⟨by omega, by omega, hnul, fun j hj hj' => ?_⟩
      by_cases he : j = i
      · exact he ▸ hz
      · exact hne j (by omega) hj'

theorem isStr_of_strlen (h : Strings.strlen m s = some l) : IsStr m s l := by
  obtain ⟨-, hlt, hnul, hne⟩ := strlenLoop_some h
  exact ⟨by omega, fun i hi => hne i (Nat.zero_le i) hi, hnul⟩

theorem strchrLoop_skip {k : Nat} (hc : ∀ i < k, m (s + UInt32.ofNat i) ≠ c)
    (hne : ∀ i < k, m (s + UInt32.ofNat (i + 1)) ≠ 0) (fuel i : Nat) (hi : i ≤ k)
    (hfuel : k ≤ i + fuel) : strchrLoop m s c fuel i = strchrLoop m s c (fuel - (k - i)) k := by
  induction fuel generalizing i with
  | zero =>
    obtain rfl : i = k := by omega
    rw [Nat.sub_self]
  | succ fuel ih =>
    by_cases he : i = k
    · rw [he, Nat.sub_self, Nat.sub_zero]
    · rw [strchrLoop, if_neg (hc i (by omega)), if_neg (hne i (by omega)),
        ih (i + 1) (by omega) (by omega)]
      congr 1
      omega

/-- What `strchr` is to return, and that it looks at no byte behind the terminator. -/
def StrchrExact (m : Memory) (s : Addr) (c : UInt8) (l : Nat) : Prop :=
  ∃ examined, strchr m s c = some (((List.range (l + 1)).find? fun i =>
    m (s + UInt32.ofNat i) = c).map (s + UInt32.ofNat ·), examined) ∧ examined ≤ l + 1

theorem lt_strchrLoop {fuel i k examined : Nat} (h : strchrLoop m s c fuel i = some (k, examined)) :
    i < examined := by
  induction fuel generalizing i with
  | zero => cases h
  | succ fuel ih =>
    rw [strchrLoop] at h
    split at h
    · obtain ⟨rfl, rfl⟩ := Prod.mk.inj (Option.some.inj h)
      exact Nat.lt_succ_self i
    · split at h
      · obtain ⟨rfl, rfl⟩ := Prod.mk.inj (Option.some.inj h)
        omega
      · exact Nat.lt_trans (Nat.lt_succ_self i) (ih h)

theorem strchr_of_loop {k examined : Nat} (h : strchrLoop m s c addresses 0 = some (k, examined)) :
    strchr m s c = some (if m (s + UInt32.ofNat k) = c then some (s + UInt32.ofNat k) else none,
      examined) := by
  rw [strchr, h, Option.map_some]

theorem IsStr.strchrLoop_last (h : IsStr m s (l + 1)) (hc : ∀ i < l + 1, m (s + UInt32.ofNat i) ≠ c) :
    strchrLoop m s c addresses 0 = some (l, l + 2) := by
  have hlt := h.lt
  obtain ⟨fuel, hfuel⟩ : ∃ fuel, addresses - (l - 0) = fuel + 1 := ⟨addresses - l - 1, by omega⟩
  rw [strchrLoop_skip (fun i hi => hc i (by omega)) (fun i hi => h.ne (i + 1) (by omega)) addresses 0
    (Nat.zero_le l) (by omega), hfuel, strchrLoop, if_neg (hc l (Nat.lt_succ_self l)), if_pos h.nul]

theorem IsStr.strchrLoop_first {d : Nat} (h : IsStr m s l) (hd : d < l)
    (hc : m (s + UInt32.ofNat d) = c) (hbefore : ∀ e < d, m (s + UInt32.ofNat e) ≠ c) :
    strchrLoop m s c addresses 0 = some (d, d + 1) := by
  have hlt := h.lt
  obtain ⟨fuel, hfuel⟩ : ∃ fuel, addresses - (d - 0) = fuel + 1 := ⟨addresses - d - 1, by omega⟩
  rw [strchrLoop_skip hbefore (fun i hi => h.ne (i + 1) (by omega)) addresses 0 (Nat.zero_le d)
    (by omega), hfuel, strchrLoop, if_pos hc]

theorem strchrExact_nul (h : IsStr m s 0) (c : UInt8) : StrchrExact m s c 0 ↔ c = 0 := by
  have hnul := h.nul
  constructor
  · rintro ⟨examined, hret, hle⟩
    by_contra hc
    rw [strchr, Option.map_eq_some_iff] at hret
    obtain ⟨⟨k, e⟩, hloop, he⟩ := hret
    obtain ⟨-, rfl⟩ := Prod.mk.inj he
    have hfuel : addresses = 4294967295 + 1 := rfl
    rw [hfuel, strchrLoop, if_neg (fun h' => hc (h'.symm.trans hnul))] at hloop
    split at hloop
    · cases hloop
      omega
    · have := lt_strchrLoop hloop
      omega
  · rintro rfl
    have hfuel : addresses = 4294967295 + 1 := rfl
    have hloop : strchrLoop m s 0 addresses 0 = some (0, 1) := by
      rw [hfuel, strchrLoop, if_pos hnul]
    refine ⟨1, ?_, Nat.le_refl 1⟩
    rw [strchr_of_loop hloop, if_pos hnul, List.range_one, List.find?_singleton,
      if_pos (by simpa using hnul)]
    rfl

theorem strchrExact_succ (h : IsStr m s (l + 1)) (c : UInt8) : StrchrExact m s c (l + 1) ↔ c ≠ 0 := by
  obtain ⟨d, hd, hp, hbefore, hfind⟩ | ⟨hno, hfind⟩ :=
    first_or_none (fun i => m (s + UInt32.ofNat i) = c) (l + 1 + 1)
  · have hc : m (s + UInt32.ofNat d) = c := by simpa using hp
    have hne : ∀ e < d, m (s + UInt32.ofNat e) ≠ c := fun e he => by simpa using hbefore e he
    unfold StrchrExact
    rw [hfind, Option.map_some]
    by_cases hlast : d = l + 1
    · -- The character is the terminator, and the loop stops in front of it.
      subst hlast
      have hstop := h.strchrLoop_last hne
      rw [strchr_of_loop hstop, if_neg (hne l (Nat.lt_succ_self l))]
      refine iff_of_false (fun ⟨_, he, _⟩ => ?_) (not_not.mpr (hc.symm.trans h.nul))
      cases (Prod.mk.inj (Option.some.inj he)).1
    · have hstop := h.strchrLoop_first (by omega) hc hne
      rw [strchr_of_loop hstop, if_pos hc]
      exact iff_of_true ⟨d + 1, rfl, by omega⟩ fun hz => h.ne d (by omega) (hc.trans hz)
  · have hne : ∀ e < l + 1 + 1, m (s + UInt32.ofNat e) ≠ c := fun e he => by simpa using hno e he
    have hstop := h.strchrLoop_last fun i hi => hne i (by omega)
    unfold StrchrExact
    rw [hfind, Option.map_none, strchr_of_loop hstop, if_neg (hne l (by omega))]
    exact iff_of_true ⟨l + 2, rfl, by omega⟩ fun hz => hne (l + 1) (by omega) (h.nul.trans hz.symm)

theorem strchrExact_iff (h : IsStr m s l) (c : UInt8) : StrchrExact m s c l ↔ (l = 0 ↔ c = 0) := by
  cases l with
  | zero => rw [strchrExact_nul h, eq_self_iff_true, true_iff]
  | succ l => simp [strchrExact_succ h]

end

/-- `memcmp` is exact just if it is to compare something, and `strchr` just if it looks for the
terminator of the empty string or for a character in another string. -/
theorem memcmp_strchr_exact_iff (m : Memory) (s₁ s₂ s : Addr) (n : UInt32) (c : UInt8) {l : Nat}
    (h : IsStr m s l) :
    (MemcmpExact m s₁ s₂ n ↔ 0 < n.toNat) ∧ (StrchrExact m s c l ↔ (l = 0 ↔ c = 0)) :=
  ⟨memcmpExact_iff m s₁ s₂ n, strchrExact_iff h c⟩

def abMemory : Memory := fun a => if a = 0 then 97 else if a = 1 then 98 else 0

theorem abMemory_isStr : IsStr abMemory 0 2 := ⟨by decide, by decide, by decide⟩

theorem memcmp_strchr_exact_iff_ab :
    (MemcmpExact abMemory 0 1 1 ↔ 0 < 1) ∧ (StrchrExact abMemory 0 98 2 ↔ (2 = 0 ↔ (98 : UInt8) = 0)) :=
  memcmp_strchr_exact_iff abMemory 0 1 0 1 98 abMemory_isStr

/-- Nothing is to be compared, and the bytes differ; the terminator is not found. -/
theorem abMemory_not_exact : (memcmp abMemory 0 1 0).1 = -1 ∧ ¬MemcmpExact abMemory 0 1 0 ∧
    strchr abMemory 0 0 = some (none, 3) ∧ ¬StrchrExact abMemory 0 0 2 := by
  have hcmp : memcmp abMemory 0 1 0 = (-1, 1) := by decide
  have hchr : strchr abMemory 0 0 = some (none, 3) := by decide
  refine ⟨congrArg Prod.fst hcmp, fun h => ?_, hchr, fun ⟨_, h, _⟩ => ?_⟩
  · exact absurd (h.1.mpr rfl) (by rw [hcmp]; decide)
  · rw [hchr] at h
    exact absurd (Prod.mk.inj (Option.some.inj h)).1 (by decide)

end Babelfish.Strings
