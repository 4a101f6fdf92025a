import Babelfish.Strings.Search

/-! `fdt_stringlist_contains` of `fdt_ro.c`, which walks a list of strings by what `memchr` returns. -/

namespace Babelfish.Strings

open Bytes

/-- The loop, in which every round takes a byte at least. -/
def stringlistLoop (m : Memory) (str : Addr) (len : Nat) :
    (fuel : Nat) → (strlist : Addr) → (listlen : Int) → Option Int
  | 0, _, _ => none
  | fuel + 1, strlist, listlen =>
    if len ≤ listlen then
      if (memcmp m str strlist (UInt32.ofNat (len + 1))).1 = 0 then some 1
      else
        match (memchr m strlist 0 (UInt32.ofNat listlen.toNat)).1 with
        | none => some 0
        | some p => stringlistLoop m str len fuel (p + 1) (listlen - ((p - strlist).toNat + 1))
    else some 0

def fdtStringlistContains (m : Memory) (strlist : Addr) (listlen : Int) (str : Addr) : Option Int := do
  let len ← strlen m str
  stringlistLoop m str len (listlen.toNat + 2) strlist listlen

def flat (es : List Bytes) : Bytes := es.flatMap (· ++ [0])

/-- What the walk compares with: the first string, the strings behind it without their first byte, and
again whole the string behind an empty one; `none` is the place behind the list. -/
def landings : (skip : Bool) → List Bytes → List (Option Bytes)
  | false, [] => [none]
  | true, [] => []
  | false, e :: es => some e :: landings true es
  | true, [] :: es => landings false es
  | true, (_ :: e) :: es => some e :: landings true es

/-- The walk comes to the string, or behind the list to a NUL. -/
def Landed (t : Bytes) (behind : UInt8) (ls : List (Option Bytes)) : Prop :=
  some t ∈ ls ∨ none ∈ ls ∧ t = [] ∧ behind = 0

instance (t : Bytes) (behind : UInt8) (ls : List (Option Bytes)) : Decidable (Landed t behind ls) :=
  inferInstanceAs (Decidable (_ ∨ _))

theorem landed_cons {t e : Bytes} {behind : UInt8} {ls : List (Option Bytes)} :
    Landed t behind (some e :: ls) ↔ e = t ∨ Landed t behind ls := by
  simp [Landed, or_assoc, eq_comm]

theorem flat_cons (e : Bytes) (es : List Bytes) : flat (e :: es) = e ++ 0 :: flat es := by
  simp [flat]

theorem read_terminated {m : Memory} {a : Addr} {e t : Bytes} (he : 0 ∉ e) (ht : 0 ∉ t)
    (h : m.Holds a (e ++ [0])) : m.read a (t.length + 1) = t ++ [0] ↔ e = t := by
  have hcstr : ∀ {s : Bytes} (k : Nat), 0 ∉ s → m.read a (s.length + 1) = s ++ [0] →
      cstr (m.read a (s.length + 1 + k)) = s := fun {s} k hs hr => by
    rw [Memory.read_add, hr, List.append_assoc]
    exact cstr_append hs _
  have hread : m.read a (e.length + 1) = e ++ [0] := by
    have hall := h
    rwa [Memory.Holds, List.length_append, List.length_singleton] at hall
  constructor
  · intro hr
    have h₁ := hcstr (t.length + 1) he hread
    rwa [Nat.add_comm, hcstr (e.length + 1) ht hr, eq_comm] at h₁
  · rintro rfl
    exact hread

section

variable {m : Memory} {str : Addr} {t : Bytes}

theorem memcmp_terminated {a : Addr} {e : Bytes} (hstr : m.Holds str (t ++ [0])) (ht : 0 ∉ t)
    (hlen : t.length < 2 ^ 31) (he : 0 ∉ e) (h : m.Holds a (e ++ [0])) :
    (memcmp m str a (UInt32.ofNat (t.length + 1))).1 = 0 ↔ e = t := by
  have hn : (UInt32.ofNat (t.length + 1)).toNat = t.length + 1 := by
    rw [UInt32.toNat_ofNat']
    omega
  have hread : m.read str (t.length + 1) = t ++ [0] := by
    have hall := hstr
    rwa [Memory.Holds, List.length_append, List.length_singleton] at hall
  have hexact := (memcmpExact_iff m str a (UInt32.ofNat (t.length + 1))).mpr (by omega)
  rw [hexact.1, hn, hread, eq_comm]
  exact read_terminated he ht h

theorem stringlistLoop_of_lt {fuel len : Nat} {strlist : Addr} {listlen : Int} (hfuel : 0 < fuel)
    (h : listlen < len) : stringlistLoop m str len fuel strlist listlen = some 0 := by
  obtain ⟨fuel, rfl⟩ : ∃ f, fuel = f + 1 := ⟨fuel - 1, by omega⟩
  rw [stringlistLoop, if_neg (by omega)]

variable (hstr : m.Holds str (t ++ [0])) (ht : 0 ∉ t) (hlen : t.length < 2 ^ 31)

include hstr ht hlen

theorem stringlistLoop_string (fuel : Nat) {a : Addr} {e rest : Bytes} (he : 0 ∉ e)
    (h : m.Holds a (e ++ 0 :: rest)) (hrest : e.length + 1 + rest.length < 2 ^ 31) (hfuel : 0 < fuel) :
    stringlistLoop m str t.length (fuel + 1) a (e ++ 0 :: rest).length =
      if e = t then some 1
      else stringlistLoop m str t.length fuel (a + UInt32.ofNat (e.length + 1) + 1)
        ((rest.length : Int) - 1) := by
  have hsplit : m.Holds a (e ++ [0]) := by
    rw [← List.singleton_append, ← List.append_assoc] at h
    exact (Memory.holds_append.mp h).1
  have hcmp := memcmp_terminated hstr ht hlen he hsplit
  have htotal : (e ++ 0 :: rest).length = e.length + 1 + rest.length := by
    simp only [List.length_append, List.length_cons]
    omega
  rw [htotal]
  by_cases hle : t.length ≤ e.length + 1 + rest.length
  · rw [stringlistLoop, if_pos (by omega)]
    by_cases het : e = t
    · rw [if_pos (hcmp.mpr het), if_pos het]
    · rw [if_neg (mt hcmp.mp het), if_neg het]
      have hn : (UInt32.ofNat ((e.length + 1 + rest.length : Nat) : Int).toNat).toNat =
          e.length + 1 + rest.length := by
        rw [Int.toNat_natCast, UInt32.toNat_ofNat']
        omega
      have hbyte : ∀ i < e.length, m (a + UInt32.ofNat i) ≠ 0 := fun i hi hz => by
        have hget := Memory.Holds.getElem? hsplit (i := i) (by simp; omega)
        rw [List.getElem?_append_left hi, hz] at hget
        exact he (List.mem_of_getElem? hget)
      have hnul : m (a + UInt32.ofNat e.length) = 0 := by
        have hget := Memory.Holds.getElem? hsplit (i := e.length) (by simp)
        simpa [eq_comm] using hget
      rw [memchr_of_first (by omega) hnul hbyte]
      have hdiff : (a + UInt32.ofNat (e.length + 1) - a).toNat = e.length + 1 := by
        rw [UInt32.add_comm, UInt32.add_sub_cancel, UInt32.toNat_ofNat']
        omega
      simp only [hdiff]
      congr 1
      omega
  · have hne : e ≠ t := by
      rintro rfl
      omega
    rw [stringlistLoop_of_lt (Nat.succ_pos fuel) (by omega), if_neg hne,
      stringlistLoop_of_lt hfuel (by omega)]

theorem stringlistLoop_landed {fuel : Nat} {a : Addr} {e rest : Bytes} {behind : UInt8}
    {ls : List (Option Bytes)} (he : 0 ∉ e) (h : m.Holds a (e ++ 0 :: rest))
    (hrest : e.length + 1 + rest.length < 2 ^ 31) (hfuel : 0 < fuel)
    (hnext : stringlistLoop m str t.length fuel (a + UInt32.ofNat (e.length + 1) + 1)
      ((rest.length : Int) - 1) = some (if Landed t behind ls then 1 else 0)) :
    stringlistLoop m str t.length (fuel + 1) a (e ++ 0 :: rest).length =
      some (if Landed t behind (some e :: ls) then 1 else 0) := by
  rw [stringlistLoop_string hstr ht hlen fuel he h hrest hfuel, hnext]
  simp only [landed_cons]
  by_cases het : e = t
  · simp [het]
  · simp [het]

/-- Behind the list only the empty string is compared. -/
theorem stringlistLoop_behind (fuel : Nat) (hfuel : 0 < fuel) (a : Addr) :
    stringlistLoop m str t.length (fuel + 1) a 0 = some (if t = [] ∧ m a = 0 then 1 else 0) := by
  by_cases hempty : t = []
  · subst hempty
    have hzero : (UInt32.ofNat ([] : Bytes).length.succ).toNat = 1 := rfl
    have hexact := (memcmpExact_iff m str a (UInt32.ofNat (([] : Bytes).length + 1))).mpr (by decide)
    have hcmp : (memcmp m str a (UInt32.ofNat (([] : Bytes).length + 1))).1 = 0 ↔ m a = 0 := by
      have hread : ∀ b : Addr, m.read b 1 = [m b] := fun b => Memory.read_succ m b 0
      have hone : m.read str 1 = [0] := hstr
      rw [hexact.1, ← Nat.succ_eq_add_one, hzero, hone, hread, List.singleton_inj, eq_comm]
    rw [stringlistLoop, if_pos (by simp)]
    by_cases hz : m a = 0
    · rw [if_pos (hcmp.mpr hz), if_pos ⟨rfl, hz⟩]
    · rw [if_neg (mt hcmp.mp hz), if_neg fun h => hz h.2]
      split
      · rfl
      · exact stringlistLoop_of_lt hfuel (by simp; omega)
  · have hpos : 0 < t.length := List.length_pos_of_ne_nil hempty
    rw [stringlistLoop_of_lt (Nat.succ_pos fuel) (by omega), if_neg fun h => hempty h.1]

theorem stringlistLoop_landings {es : List Bytes} (hes : ∀ e ∈ es, 0 ∉ e) (fuel : Nat) {a : Addr}
    (h : m.Holds a (flat es)) (hsize : (flat es).length < 2 ^ 31) :
    ((flat es).length + 1 < fuel → stringlistLoop m str t.length fuel a (flat es).length = some
      (if Landed t (m (a + UInt32.ofNat (flat es).length)) (landings false es) then 1 else 0)) ∧
    ((flat es).length < fuel → stringlistLoop m str t.length fuel (a + 1)
      (((flat es).length : Int) - 1) = some
      (if Landed t (m (a + UInt32.ofNat (flat es).length)) (landings true es) then 1 else 0)) := by
  induction es generalizing fuel a with
  | nil =>
    have hbehind : a + UInt32.ofNat (flat []).length = a := UInt32.add_zero a
    refine ⟨fun hfuel => ?_, fun hfuel => ?_⟩
    · obtain ⟨fuel, rfl⟩ : ∃ f, fuel = f + 1 := ⟨fuel - 1, by omega⟩
      have hloop := stringlistLoop_behind hstr ht hlen fuel (by omega) a
      rw [hbehind]
      simpa [Landed, landings, flat] using hloop
    · rw [stringlistLoop_of_lt (by omega) (by simp [flat]; omega)]
      simp [Landed, landings]
  | cons e es ih =>
    obtain ⟨he, htl⟩ := List.forall_mem_cons.mp hes
    rw [flat_cons] at h hsize ⊢
    have htotal : (e ++ 0 :: flat es).length = e.length + 1 + (flat es).length := by
      simp only [List.length_append, List.length_cons]
      omega
    rw [htotal] at hsize
    -- Where the strings behind the first one stand.
    have hrest : m.Holds (a + UInt32.ofNat (e.length + 1)) (flat es) := by
      have hall := h
      rw [← List.singleton_append, ← List.append_assoc] at hall
      simpa using (Memory.holds_append.mp hall).2
    have hbehind : a + UInt32.ofNat (e ++ 0 :: flat es).length =
        a + UInt32.ofNat (e.length + 1) + UInt32.ofNat (flat es).length := by
      rw [Memory.add_ofNat_add, htotal]
    rw [hbehind]
    refine ⟨fun hfuel => ?_, fun hfuel => ?_⟩
    · obtain ⟨fuel, rfl⟩ : ∃ f, fuel = f + 1 := ⟨fuel - 1, by omega⟩
      have hnext := (@ih htl fuel _ hrest (by omega)).2 (by omega)
      exact stringlistLoop_landed hstr ht hlen he h hsize (by omega) hnext
    · cases e with
      | nil =>
        have hlast : (((([] : Bytes) ++ 0 :: flat es).length : Nat) : Int) - 1 = (flat es).length := by
          simp
        rw [hlast, landings]
        exact (@ih htl fuel _ hrest (by omega)).1 (by simpa using hfuel)
      | cons b e =>
        obtain ⟨fuel, rfl⟩ : ∃ f, fuel = f + 1 := ⟨fuel - 1, by omega⟩
        have htail : m.Holds (a + 1) (e ++ 0 :: flat es) := by
          rw [List.cons_append, ← List.singleton_append] at h
          exact (Memory.holds_append.mp h).2
        have hlast : (((b :: e ++ 0 :: flat es).length : Nat) : Int) - 1 =
            (e ++ 0 :: flat es).length := by
          rw [List.cons_append, List.length_cons]
          omega
        rw [List.length_cons] at hsize
        have haddr : a + 1 + UInt32.ofNat (e.length + 1) = a + UInt32.ofNat ((b :: e).length + 1) := by
          have hadd := Memory.add_ofNat_add a 1 (e.length + 1)
          rw [Nat.add_comm 1] at hadd
          exact hadd
        have hnext := (@ih htl fuel _ hrest (by omega)).2 (by omega)
        rw [← haddr] at hnext
        rw [hlast, ← haddr]
        exact stringlistLoop_landed hstr ht hlen (List.not_mem_of_not_mem_cons he) htail (by omega)
          (by omega) hnext

end

def ContainsExact (m : Memory) (strlist str : Addr) (es : List Bytes) (t : Bytes) : Prop :=
  fdtStringlistContains m strlist (flat es).length str = some (if t ∈ es then 1 else 0)

/-- `memchr` is exact just if the byte is not there and there is something to examine, and the list is
searched rightly just if what the walk compares with holds the string when the list does. -/
theorem memchr_stringlist_exact_iff (m : Memory) (s : Addr) (c : UInt8) (n : UInt32)
    (strlist str : Addr) (es : List Bytes) (t : Bytes) (hes : ∀ e ∈ es, 0 ∉ e) (ht : 0 ∉ t)
    (hlist : m.Holds strlist (flat es)) (hstr : m.Holds str (t ++ [0]))
    (hsize : (flat es).length < 2 ^ 31) (hlen : t.length < 2 ^ 31) :
    (MemchrExact m s c n ↔ 0 < n.toNat ∧ c ∉ m.read s n.toNat) ∧
      (ContainsExact m strlist str es t ↔
        (t ∈ es ↔ Landed t (m (strlist + UInt32.ofNat (flat es).length)) (landings false es))) := by
  refine ⟨memchrExact_iff m s c n, ?_⟩
  have hisStr : IsStr m str t.length := by
    refine ⟨by unfold addresses; omega, fun i hi hz => ?_, ?_⟩
    · have hget := hstr.getElem? (i := i) (by simp; omega)
      rw [List.getElem?_append_left hi, hz] at hget
      exact ht (List.mem_of_getElem? hget)
    · have hget := hstr.getElem? (i := t.length) (by simp)
      simpa [eq_comm] using hget
  have hwalk := (stringlistLoop_landings hstr ht hlen hes ((flat es).length + 2) hlist hsize).1 (by omega)
  rw [ContainsExact, fdtStringlistContains, hisStr.strlen, Option.bind_eq_bind, Option.bind_some,
    Int.toNat_natCast, hwalk]
  by_cases hin : t ∈ es
  · simp [hin]
  · simp [hin]

def listMemory : Memory := Memory.ofBytes [97, 0, 98, 99, 0, 98, 99, 0]

def bcList : List Bytes := [[97], [98, 99]]

theorem memchr_stringlist_exact_iff_bc :
    (MemchrExact listMemory 0 0 5 ↔ 0 < 5 ∧ (0 : UInt8) ∉ listMemory.read 0 5) ∧
      (ContainsExact listMemory 0 5 bcList [98, 99] ↔
        (([98, 99] : Bytes) ∈ bcList ↔ Landed [98, 99] (listMemory (0 + UInt32.ofNat 5))
          (landings false bcList))) :=
  memchr_stringlist_exact_iff listMemory 0 0 5 0 5 bcList [98, 99] (by decide) (by decide)
    (by decide) (by decide) (by decide) (by decide)

/-- The address behind the NUL is returned, and the string `"bc"` is not found in the list. -/
theorem listMemory_not_exact : memchr listMemory 0 0 5 = (some 2, 2) ∧ ¬MemchrExact listMemory 0 0 5 ∧
    fdtStringlistContains listMemory 0 5 5 = some 0 ∧
    ¬ContainsExact listMemory 0 5 bcList [98, 99] := by
  have hchr : memchr listMemory 0 0 5 = (some 2, 2) := by decide
  have hlist : fdtStringlistContains listMemory 0 5 5 = some 0 := by decide
  refine ⟨hchr, fun h => ?_, hlist, fun h => ?_⟩
  · have hret := h.1
    rw [hchr] at hret
    exact absurd hret (by decide)
  · exact absurd (hlist.symm.trans h) (by decide)

end Babelfish.Strings
