import Mathlib.Algebra.Order.Ring.Nat
import Mathlib.Data.List.Induction

/-! The allocator of `memory.c`. Its state is `heap_base`; the area it takes memory from is that of the
`.heap` section, whose start is `heap`. -/

namespace Babelfish.Heap

def aligned (size : UInt32) : UInt32 := ((size - 1) / 4 + 1) * 4

def malloc (heapBase size : UInt32) : UInt32 × UInt32 := (heapBase, heapBase + aligned size)

def baseAfter (heapBase : UInt32) (sizes : List UInt32) : UInt32 :=
  sizes.foldl (fun base size => (malloc base size).2) heapBase

def address (heap : UInt32) (pre : List UInt32) (size : UInt32) : UInt32 :=
  (malloc (baseAfter heap pre) size).1

def Granted : UInt32 → List UInt32 → Prop
  | _, [] => True
  | base, size :: sizes => (malloc base size).1 ≠ 0 ∧ Granted (malloc base size).2 sizes

instance decidableGranted : (base : UInt32) → (sizes : List UInt32) → Decidable (Granted base sizes)
  | _, [] => isTrue trivial
  | base, size :: sizes =>
    have := decidableGranted (malloc base size).2 sizes
    inferInstanceAs (Decidable (_ ∧ _))

theorem granted_append {base : UInt32} {sizes sizes' : List UInt32} :
    Granted base (sizes ++ sizes') ↔ Granted base sizes ∧ Granted (baseAfter base sizes) sizes' := by
  induction sizes generalizing base with
  | nil => exact (and_iff_right trivial).symm
  | cons size sizes ih =>
    rw [List.cons_append, Granted, Granted, ih, and_assoc]
    rfl

theorem baseAfter_append (base : UInt32) (sizes sizes' : List UInt32) :
    baseAfter base (sizes ++ sizes') = baseAfter (baseAfter base sizes) sizes' :=
  List.foldl_append ..

/-- `.space 4096` -/
def heapSize : Nat := 4096

def roundUp (size : Nat) : Nat := (size + 3) / 4 * 4

def taken (sizes : List UInt32) : Nat := (sizes.map fun size => roundUp size.toNat).sum

theorem aligned_toNat {size : UInt32} (h : size.toNat ≤ 0xfffffffc) :
    (aligned size).toNat = roundUp size.toNat := by
  have h1 : (1 : UInt32).toNat = 1 := rfl
  have h4 : (4 : UInt32).toNat = 4 := rfl
  simp only [aligned, roundUp, UInt32.toNat_mul, UInt32.toNat_add, UInt32.toNat_div, UInt32.toNat_sub,
    h1, h4]
  omega

theorem aligned_of_lt {size : UInt32} (h : 0xfffffffc < size.toNat) : aligned size = 0 := by
  have h0 : (0 : UInt32).toNat = 0 := rfl
  have h1 : (1 : UInt32).toNat = 1 := rfl
  have h4 : (4 : UInt32).toNat = 4 := rfl
  have hlt := size.toNat_lt
  rw [← UInt32.toNat_inj]
  simp only [aligned, UInt32.toNat_mul, UInt32.toNat_add, UInt32.toNat_div, UInt32.toNat_sub, h0, h1, h4]
  omega

theorem baseAfter_concat (base : UInt32) (sizes : List UInt32) (size : UInt32) :
    baseAfter base (sizes ++ [size]) = baseAfter base sizes + aligned size := by
  rw [baseAfter, List.foldl_append]
  rfl

theorem taken_append (sizes sizes' : List UInt32) : taken (sizes ++ sizes') = taken sizes + taken sizes' := by
  simp [taken]

theorem taken_cons (size : UInt32) (sizes : List UInt32) :
    taken (size :: sizes) = roundUp size.toNat + taken sizes := by
  simp [taken]

theorem le_roundUp (n : Nat) : n ≤ roundUp n := by
  unfold roundUp
  omega

theorem four_dvd_taken (sizes : List UInt32) : 4 ∣ taken sizes := by
  induction sizes with
  | nil => exact ⟨0, rfl⟩
  | cons size sizes ih =>
    rw [taken_cons]
    exact Nat.dvd_add ⟨_, Nat.mul_comm _ _⟩ ih

section

variable {heap size size' : UInt32} {sizes pre post : List UInt32}

theorem baseAfter_toNat (hend : heap.toNat + heapSize < 2 ^ 32) (hfit : taken sizes ≤ heapSize) :
    (baseAfter heap sizes).toNat = heap.toNat + taken sizes := by
  induction sizes using List.reverseRecOn with
  | nil => rfl
  | append_singleton sizes size ih =>
    rw [taken_append, taken_cons] at hfit ⊢
    have hle := le_roundUp size.toNat
    have hsize : (aligned size).toNat = roundUp size.toNat := aligned_toNat (by
      unfold heapSize at hfit
      omega)
    rw [baseAfter_concat, UInt32.toNat_add, ih (by omega), hsize]
    simp only [taken, List.map_nil, List.sum_nil, Nat.add_zero] at hfit ⊢
    omega

/-- The block of a request is in the area, on a word boundary, and shares no byte with the blocks of the
requests before it. -/
def Block (heap : UInt32) (pre : List UInt32) (size : UInt32) : Prop :=
  let a := address heap pre size
  4 ∣ a.toNat ∧ heap.toNat ≤ a.toNat ∧ a.toNat + size.toNat ≤ heap.toNat + heapSize ∧
    ∀ pre' size' post', pre = pre' ++ size' :: post' →
      (address heap pre' size').toNat + size'.toNat ≤ a.toNat ∨
        a.toNat + size.toNat ≤ (address heap pre' size').toNat

/-- The bytes of the area behind the blocks handed out are enough for the request. -/
def Fits (pre : List UInt32) (size : UInt32) : Prop := taken pre + size.toNat ≤ heapSize

/-- Each request is answered by `NULL` or by a block of its own, and by `NULL` if it does not fit. -/
def WellAllocated (heap : UInt32) (sizes : List UInt32) : Prop :=
  ∀ pre size post, sizes = pre ++ size :: post →
    (address heap pre size = 0 ∨ Block heap pre size) ∧
      (¬Fits pre size → address heap pre size = 0)

theorem block_of_fits (hw : 4 ∣ heap.toNat) (hend : heap.toNat + heapSize < 2 ^ 32)
    (hfit : taken (pre ++ [size]) ≤ heapSize) : Block heap pre size := by
  rw [taken_append, taken_cons] at hfit
  have hle := le_roundUp size.toNat
  have hpre : (address heap pre size).toNat = heap.toNat + taken pre :=
    baseAfter_toNat hend (by omega)
  have h4 := four_dvd_taken pre
  refine ⟨by omega, by omega, by omega, fun pre' size' post' he => Or.inl ?_⟩
  have hle' := le_roundUp size'.toNat
  have htaken := congrArg taken he
  rw [taken_append, taken_cons] at htaken
  have hpre' : (address heap pre' size').toNat = heap.toNat + taken pre' :=
    baseAfter_toNat hend (by omega)
  omega

/-- The blocks are in the area and disjoint just if all requests together, rounded up to words, fit
into it. -/
theorem malloc_wellAllocated_iff (heap : UInt32) (sizes : List UInt32) (hpos : heap ≠ 0)
    (hw : 4 ∣ heap.toNat) (hend : heap.toNat + heapSize < 2 ^ 32) :
    WellAllocated heap sizes ↔ taken sizes ≤ heapSize := by
  have hpos' : 0 < heap.toNat := Nat.pos_of_ne_zero fun hz => hpos (UInt32.toNat_inj.mp hz)
  have hzero : (0 : UInt32).toNat = 0 := rfl
  constructor
  · intro hall
    -- The first request that does not fit is answered by the address behind the blocks before it.
    induction sizes using List.reverseRecOn with
    | nil => exact Nat.zero_le _
    | append_singleton sizes size ih =>
      have hsizes : taken sizes ≤ heapSize := ih fun pre size' post he =>
        hall pre size' (post ++ [size]) (by rw [he, List.append_assoc, List.cons_append])
      by_contra hno
      have hfit : ¬Fits sizes size := fun hfits => hno (by
        have h4 := four_dvd_taken sizes
        rw [taken_append, taken_cons]
        unfold Fits heapSize at *
        simp only [roundUp, taken, List.map_nil, List.sum_nil] at *
        omega)
      have hnull := (hall sizes size [] rfl).2 hfit
      have hbase : (address heap sizes size).toNat = heap.toNat + taken sizes :=
        baseAfter_toNat hend hsizes
      rw [hnull] at hbase
      omega
  · intro hfit pre size post he
    rw [he, taken_append, taken_cons] at hfit
    have hle := le_roundUp size.toNat
    refine ⟨Or.inr (block_of_fits hw hend ?_), fun hno => absurd ?_ hno⟩
    · rw [taken_append, taken_cons]
      simp only [taken, List.map_nil, List.sum_nil] at *
      omega
    · unfold Fits
      omega

theorem malloc_wellAllocated_iff_small : WellAllocated 4096 [5, 0, 8] ↔ taken [5, 0, 8] ≤ heapSize :=
  malloc_wellAllocated_iff 4096 [5, 0, 8] (by decide) (by decide) (by decide)

/-- A request that does not fit is answered by the address where the area ends. -/
theorem malloc_beyond : ¬WellAllocated 4096 [4096, 1] := by
  intro h
  have hnull := (h [4096] 1 [] rfl).2 (by unfold Fits; decide)
  exact absurd hnull (by decide)

end

end Babelfish.Heap
