import Babelfish.Heap
import Babelfish.Lookups
import Babelfish.Steps
import Babelfish.Libfdt.Flatten

/-! The arrays that `fdt_fixup_uarts` allocates for the pins, one for each enabled UART, before it looks
at the type. -/

namespace Babelfish

open Libfdt Bytes

def arrayRequest (script : Script) (i : Nat) : Fixup (Option UInt32) := do
  let para := scriptFindSection script (catChar strUartPara (uartIdx i))
  let entry ← scriptFindEntry para strUartUsed
  let used ← entryValue entry
  if used ≠ 1 then pure none
  else
    let serial := catChar strSerial (uartIdx i)
    let offset ← pathOffset serial
    let ret ← setpropString (.path serial) offset strStatus strOkay
    if ret ≠ 0 then pure none
    else
      let entry ← scriptFindEntry para strUartType
      let type ← entryValue entry
      pure (some type)

/-- The types that arrays are allocated for in the loop, up to a fault if there is one. -/
def arrayTypes (script : Script) : List Nat → World → List UInt32
  | [], _ => []
  | i :: is, w =>
    let requests := match (arrayRequest script i).run w with
      | .ok (some type, _) => [type]
      | _ => []
    match (fixupUart script i).run w with
    | .ok (ret, w') => if ret = 0 then requests ++ arrayTypes script is w' else requests
    | .error _ => requests

def sizeofGpio : UInt32 := 16

/-- `entry->value * sizeof(*gpios)` -/
def arraySize (type : UInt32) : UInt32 := type * sizeofGpio

def arraySizes (types : List UInt32) : List UInt32 := types.map arraySize

def arrayBytes (types : List UInt32) : Nat := (types.map fun type => type.toNat * 16 % 2 ^ 32).sum

/-- `heap_base` never moves back, no array shares a byte with a block handed out before, and an array that
is filled has room for all elements. `blocks` are the blocks from before the loop. -/
structure ArraysSafe (base : UInt32) (blocks : List (Nat × Nat)) (types : List UInt32) : Prop where
  forwards : ∀ pre type post, types = pre ++ type :: post →
    (Heap.baseAfter base (arraySizes pre)).toNat ≤
      (Heap.baseAfter base (arraySizes (pre ++ [type]))).toNat
  blocks : ∀ pre type post, types = pre ++ type :: post → ∀ b ∈ blocks,
    b.1 + b.2 ≤ (Heap.address base (arraySizes pre) (arraySize type)).toNat
  arrays : ∀ pre type mid type' post, types = pre ++ type :: (mid ++ type' :: post) →
    (Heap.address base (arraySizes pre) (arraySize type)).toNat + (arraySize type).toNat ≤
      (Heap.address base (arraySizes (pre ++ type :: mid)) (arraySize type')).toNat
  room : ∀ type ∈ types, uartKeys type ≠ [] →
    (uartKeys type).length = type.toNat ∧ type.toNat * 16 ≤ (arraySize type).toNat

variable {base type : UInt32} {types pre post : List UInt32} {blocks : List (Nat × Nat)}

theorem arraySize_toNat (type : UInt32) : (arraySize type).toNat = type.toNat * 16 % 2 ^ 32 := by
  rw [arraySize, UInt32.toNat_mul]
  rfl

theorem aligned_arraySize (type : UInt32) : Heap.aligned (arraySize type) = arraySize type := by
  have hs := arraySize_toNat type
  have hle : (arraySize type).toNat ≤ 0xfffffffc := by omega
  rw [← UInt32.toNat_inj, Heap.aligned_toNat hle, Heap.roundUp]
  omega

theorem arrayBytes_concat (pre : List UInt32) (type : UInt32) :
    arrayBytes (pre ++ [type]) = arrayBytes pre + (arraySize type).toNat := by
  rw [arraySize_toNat]
  simp [arrayBytes]

theorem arrayBytes_append (types types' : List UInt32) :
    arrayBytes (types ++ types') = arrayBytes types + arrayBytes types' := by
  simp [arrayBytes]

theorem baseAfter_arrays (base : UInt32) (pre : List UInt32) (type : UInt32) :
    Heap.baseAfter base (arraySizes (pre ++ [type])) =
      Heap.baseAfter base (arraySizes pre) + arraySize type := by
  rw [arraySizes, List.map_append, List.map_singleton, Heap.baseAfter_concat, aligned_arraySize]
  rfl

theorem baseAfter_arrays_toNat (h : base.toNat + arrayBytes types < 2 ^ 32) :
    (Heap.baseAfter base (arraySizes types)).toNat = base.toNat + arrayBytes types := by
  induction types using List.reverseRecOn with
  | nil => rfl
  | append_singleton pre type ih =>
    rw [arrayBytes_concat] at h ⊢
    rw [baseAfter_arrays, UInt32.toNat_add, ih (by omega)]
    omega

theorem uartKeys_cases (h : uartKeys type ≠ []) : type = 8 ∨ type = 4 ∨ type = 2 := by
  unfold uartKeys at h
  split at h
  · exact Or.inl ‹_›
  · split at h
    · exact Or.inr (Or.inl ‹_›)
    · split at h
      · exact Or.inr (Or.inr ‹_›)
      · exact absurd rfl h

theorem array_room (h : uartKeys type ≠ []) :
    (uartKeys type).length = type.toNat ∧ type.toNat * 16 ≤ (arraySize type).toNat := by
  obtain rfl | rfl | rfl := uartKeys_cases h <;> decide

theorem arraysSafe_iff (hblocks : ∀ b ∈ blocks, b.1 + b.2 ≤ base.toNat) :
    ArraysSafe base blocks types ↔ base.toNat + arrayBytes types < 2 ^ 32 := by
  constructor
  · intro hsafe
    -- The first array that does not end below 2³² takes `heap_base` back.
    have hforw := hsafe.forwards
    clear hsafe
    induction types using List.reverseRecOn with
    | nil => exact base.toNat_lt
    | append_singleton pre type ih =>
      have hpre := ih fun pre' type' post he =>
        hforw pre' type' (post ++ [type]) (by rw [he, List.append_assoc, List.cons_append])
      have hstep := hforw pre type [] rfl
      rw [baseAfter_arrays, UInt32.toNat_add, baseAfter_arrays_toNat hpre] at hstep
      have hlt := (arraySize type).toNat_lt
      rw [arrayBytes_concat]
      omega
  · intro hend
    have hbase : ∀ {pre post : List UInt32}, types = pre ++ post →
        (Heap.baseAfter base (arraySizes pre)).toNat = base.toNat + arrayBytes pre := by
      intro pre post he
      refine baseAfter_arrays_toNat ?_
      rw [he, arrayBytes_append] at hend
      omega
    refine ⟨fun pre type post he => ?_, fun pre type post he b hb => ?_,
      fun pre type mid type' post he => ?_, fun type _ hk => array_room hk⟩
    · rw [hbase he, hbase (he.trans (List.append_cons _ _ _)), arrayBytes_concat]
      omega
    · have haddr : (Heap.address base (arraySizes pre) (arraySize type)).toNat = _ := hbase he
      have hb' := hblocks b hb
      omega
    · have haddr : (Heap.address base (arraySizes pre) (arraySize type)).toNat = _ := hbase he
      have he' : types = (pre ++ type :: mid) ++ type' :: post := by
        rw [he, List.append_assoc, List.cons_append]
      have haddr' : (Heap.address base (arraySizes (pre ++ type :: mid)) (arraySize type')).toNat = _ :=
        hbase he'
      have hbytes : arrayBytes (pre ++ type :: mid) =
          arrayBytes pre + (arraySize type).toNat + arrayBytes mid := by
        rw [List.append_cons, arrayBytes_append, arrayBytes_concat]
      omega

def Script.EnabledType (script : Script) (i : Nat) (type : UInt32) : Prop :=
  script.single (uartPara i) strUartUsed = some 1 ∧ script.single (uartPara i) strUartType = some type

theorem Reads.of_run {α β : Type} {m : Fixup α} {v : Option α} {f : α → Fixup β} {b : β}
    {w w' : World} (h : Reads m v) (hrun : (m >>= f).run w = .ok (b, w')) :
    ∃ a, v = some a ∧ (f a).run w = .ok (b, w') := by
  have hm := h w
  rw [StateT.run_bind] at hrun
  cases v with
  | none =>
    obtain ⟨e, he⟩ := hm
    rw [show m.run w = .error e from he] at hrun
    cases hrun
  | some a =>
    simp only at hm
    rw [hm] at hrun
    exact ⟨a, rfl, hrun⟩

theorem run_bind_ok {α β : Type} {m : Fixup α} {f : α → Fixup β} {b : β} {w w' : World}
    (hrun : (m >>= f).run w = .ok (b, w')) : ∃ a w₁, m.run w = .ok (a, w₁) ∧ (f a).run w₁ = .ok (b, w') := by
  rw [StateT.run_bind] at hrun
  cases hm : m.run w with
  | error e =>
    rw [hm] at hrun
    cases hrun
  | ok r =>
    rw [hm] at hrun
    exact ⟨r.1, r.2, rfl, hrun⟩

theorem enabledType_of_request {script : Script} {i : Nat} {w w' : World} {type : UInt32}
    (h : (arrayRequest script i).run w = .ok (some type, w')) : script.EnabledType i type := by
  unfold arrayRequest at h
  rw [← bind_assoc] at h
  obtain ⟨used, hused, h⟩ := (reads_single script (uartPara i) strUartUsed).of_run h
  split at h
  · cases h
  · rename_i h1
    obtain ⟨offset, w₁, -, h⟩ := run_bind_ok h
    obtain ⟨ret, w₂, -, h⟩ := run_bind_ok h
    split at h
    · cases h
    · rw [← bind_assoc] at h
      obtain ⟨type', htype, h⟩ := (reads_single script (uartPara i) strUartType).of_run h
      cases h
      rw [not_not.mp h1] at hused
      exact ⟨hused, htype⟩

theorem mem_arrayTypes {script : Script} {is : List Nat} {w : World}
    (h : type ∈ arrayTypes script is w) : ∃ i ∈ is, script.EnabledType i type := by
  induction is generalizing w with
  | nil => cases h
  | cons i is ih =>
    have hhere : ∀ {types : List UInt32}, (types = match (arrayRequest script i).run w with
        | .ok (some type, _) => [type]
        | _ => []) → type ∈ types → ∃ j ∈ i :: is, script.EnabledType j type := by
      rintro types rfl hm
      split at hm
      · rw [List.mem_singleton.mp hm]
        exact ⟨i, List.mem_cons_self, enabledType_of_request ‹_›⟩
      · cases hm
    rw [arrayTypes] at h
    split at h
    · split at h
      · obtain h | h := List.mem_append.mp h
        · exact hhere rfl h
        · obtain ⟨j, hj, he⟩ := ih h
          exact ⟨j, List.mem_cons_of_mem i hj, he⟩
      · exact hhere rfl h
    · exact hhere rfl h

/-- The requests for the arrays do no harm just if the arrays, each of 16 times the type modulo 2³² bytes,
end below 2³². -/
theorem arrayTypes_safe_iff (script : Script) (w : World) (base : UInt32) (blocks : List (Nat × Nat))
    (hblocks : ∀ b ∈ blocks, b.1 + b.2 ≤ base.toNat) :
    (∀ type ∈ arrayTypes script (List.range sunxiMaxUarts) w,
      ∃ i < sunxiMaxUarts, script.EnabledType i type) ∧
    (ArraysSafe base blocks (arrayTypes script (List.range sunxiMaxUarts) w) ↔
      base.toNat + arrayBytes (arrayTypes script (List.range sunxiMaxUarts) w) < 2 ^ 32) := by
  refine ⟨fun type hm => ?_, arraysSafe_iff hblocks⟩
  obtain ⟨i, hi, he⟩ := mem_arrayTypes hm
  exact ⟨i, List.mem_range.mp hi, he⟩

def uartTree : DeviceTree :=
  .node 0 ⟨[], []⟩
    (.node 1 ⟨ofString "aliases", [(ofString "serial0", ofString "/uart" ++ [0])]⟩ .nil
      (.node 2 ⟨ofString "uart", [(strStatus, strOkay ++ [0])]⟩ .nil .nil)) .nil

theorem uartTree_repr : Repr (uartTree.blob 16) uartTree :=
  DeviceTree.repr_blob (by decide) (by decide) ⟨0, _, _, rfl⟩ (by decide)

def hugeScript : Script where
  sections := [⟨uartPara 0, [⟨strUartUsed, .single 1⟩, ⟨strUartType, .single 0x0fffffff⟩]⟩]

theorem arrayTypes_safe_iff_huge :
    (∀ type ∈ arrayTypes hugeScript (List.range sunxiMaxUarts) ⟨uartTree.blob 16, []⟩,
      ∃ i < sunxiMaxUarts, hugeScript.EnabledType i type) ∧
    (ArraysSafe 4096 [(4000, 96)] (arrayTypes hugeScript (List.range sunxiMaxUarts)
        ⟨uartTree.blob 16, []⟩) ↔
      (4096 : UInt32).toNat + arrayBytes (arrayTypes hugeScript (List.range sunxiMaxUarts)
        ⟨uartTree.blob 16, []⟩) < 2 ^ 32) :=
  arrayTypes_safe_iff hugeScript ⟨uartTree.blob 16, []⟩ 4096 [(4000, 96)] (by decide)

/-- `heap_base` moves back by 16 bytes. -/
theorem hugeScript_back :
    ¬ArraysSafe 4096 [(4000, 96)] (arrayTypes hugeScript (List.range sunxiMaxUarts)
      ⟨uartTree.blob 16, []⟩) := by
  have hrun : Runs (arrayRequest hugeScript 0) ⟨uartTree.blob 16, []⟩ fun r _ =>
      r = some 0x0fffffff := by
    have hz : 0 ∉ catChar strSerial (uartIdx 0) := by decide
    have hres : uartTree.resolve (catChar strSerial (uartIdx 0)) = some 2 := by decide
    have hget : uartTree.get? 2 = some ⟨ofString "uart", [(strStatus, strOkay ++ [0])]⟩ := rfl
    have hoff : DeviceTree.offset uartTree 2 = some 44 := by decide
    have hused : hugeScript.single (uartPara 0) strUartUsed = some 1 := by decide
    have htype : hugeScript.single (uartPara 0) strUartType = some 0x0fffffff := by decide
    unfold arrayRequest
    rw [← bind_assoc]
    refine (reads_single hugeScript (uartPara 0) strUartUsed).runs hused ?_
    rw [if_neg (not_not.mpr rfl)]
    have hroom : setRoom ⟨ofString "uart", [(strStatus, strOkay ++ [0])]⟩ strStatus
        (strOkay ++ [0]).length ≤ (uartTree.blob 16).free.length := by
      have hlen : (uartTree.blob 16).free.length = 16 := List.length_replicate
      rw [hlen]
      decide
    refine Runs.bind (runs_pathOffset uartTree_repr hz hres hoff ?_)
    refine Runs.bind (runs_setprop uartTree_repr hget hoff (by decide) hroom fun _ => ?_)
    rw [if_neg (not_not.mpr rfl), ← bind_assoc]
    exact (reads_single hugeScript (uartPara 0) strUartType).runs htype (Runs.pure rfl)
  obtain ⟨r, w', hr, rfl⟩ := hrun
  obtain ⟨rest, hrest⟩ : ∃ rest, arrayTypes hugeScript (List.range sunxiMaxUarts)
      ⟨uartTree.blob 16, []⟩ = 0x0fffffff :: rest := by
    rw [show List.range sunxiMaxUarts = 0 :: [1, 2, 3, 4, 5, 6, 7] from rfl, arrayTypes, hr]
    split
    · split
      · exact ⟨_, rfl⟩
      · exact ⟨_, rfl⟩
    · exact ⟨_, rfl⟩
  intro hsafe
  exact absurd (hsafe.forwards [] 0x0fffffff rest hrest) (by decide)

end Babelfish
