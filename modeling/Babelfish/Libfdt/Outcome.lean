import Babelfish.Libfdt.ReadWrite

/-! When the edits of `fdt_rw.c` succeed, on any blob: the node is there, and what they insert fits
into the space that is left. -/

namespace Babelfish.Libfdt

open Bytes

def SpliceFits (fdt : Fdt) (p oldlen newlen : Int) : Prop :=
  0 ≤ oldlen ∧ p + oldlen ≤ (fdt.dtStruct ++ fdt.dtStrings).length ∧
    newlen - oldlen ≤ fdt.free.length

def AddFits (fdt : Fdt) (nodeoffset : Int) (name : Bytes) (len : Int) : Prop :=
  0 ≤ fdtCheckNodeOffset fdt nodeoffset ∧ 0 ≤ (fdtFindAddString fdt name).1 ∧
    SpliceFits (fdtFindAddString fdt name).2 (fdtCheckNodeOffset fdt nodeoffset) 0
      (12 + fdtTagAlign len)

def SetFits (fdt : Fdt) (nodeoffset : Int) (name val : Bytes) : Prop :=
  let prop := fdtGetProperty fdt nodeoffset name
  if 0 ≤ prop then
    SpliceFits fdt (prop + 12) (fdtTagAlign (propLen fdt prop)) (fdtTagAlign val.length)
  else prop = errNotFound ∧ AddFits fdt nodeoffset name val.length

def AppendFits (fdt : Fdt) (nodeoffset : Int) (name val : Bytes) : Prop :=
  let prop := fdtGetProperty fdt nodeoffset name
  if 0 ≤ prop then
    SpliceFits fdt (prop + 12) (fdtTagAlign (propLen fdt prop))
      (fdtTagAlign (val.length + propLen fdt prop))
  else AddFits fdt nodeoffset name val.length

def SubnodeFits (fdt : Fdt) (parentoffset : Int) (name : Bytes) : Prop :=
  let offset := skipProps fdt (fdtFuel fdt) (fdtNextTag fdt parentoffset).2
  fdtSubnodeOffset fdt parentoffset name = errNotFound ∧ 0 ≤ offset ∧
    SpliceFits fdt offset 0 (4 + align4 (name.length + 1) + 4)

variable {fdt : Fdt}

theorem fdtSpliceStruct_eq_zero {p oldlen newlen : Int} :
    (fdtSpliceStruct fdt p oldlen newlen).1 = 0 ↔ SpliceFits fdt p oldlen newlen := by
  unfold fdtSpliceStruct SpliceFits
  by_cases hbad : oldlen < 0 ∨ ((fdt.dtStruct ++ fdt.dtStrings).length : Int) < p + oldlen
  · simp only [if_pos hbad, errBadOffset]
    omega
  · simp only [if_neg hbad]
    by_cases hfull : (fdt.free.length : Int) < newlen - oldlen
    · simp only [if_pos hfull, errNoSpace]
      omega
    · simp only [if_neg hfull]
      exact iff_of_true trivial ⟨by omega, by omega, by omega⟩

theorem fdtSpliceStruct_error (fdt : Fdt) (p oldlen newlen : Int) :
    (fdtSpliceStruct fdt p oldlen newlen).1 = 0 ∨
      (fdtSpliceStruct fdt p oldlen newlen).1 = errBadOffset ∨
      (fdtSpliceStruct fdt p oldlen newlen).1 = errNoSpace := by
  unfold fdtSpliceStruct
  by_cases hbad : oldlen < 0 ∨ ((fdt.dtStruct ++ fdt.dtStrings).length : Int) < p + oldlen
  · simp only [if_pos hbad, true_or, or_true]
  · simp only [if_neg hbad]
    by_cases hfull : (fdt.free.length : Int) < newlen - oldlen
    · simp only [if_pos hfull, or_true]
    · simp only [if_neg hfull, true_or]

theorem fdtAddProperty_le_zero (fdt : Fdt) (nodeoffset : Int) (name : Bytes) (len : Int) :
    (fdtAddProperty fdt nodeoffset name len).1 ≤ 0 := by
  unfold fdtAddProperty
  by_cases hnode : fdtCheckNodeOffset fdt nodeoffset < 0
  · simp only [if_pos hnode]
    omega
  · simp only [if_neg hnode]
    by_cases hs : (fdtFindAddString fdt name).1 < 0
    · simp only [if_pos hs]
      omega
    · simp only [if_neg hs]
      have hsplice := fdtSpliceStruct_error (fdtFindAddString fdt name).2
        (fdtCheckNodeOffset fdt nodeoffset) 0 (12 + fdtTagAlign len)
      simp only [errBadOffset, errNoSpace] at hsplice
      split
      · simp only
        omega
      · exact Int.le_refl _

theorem fdtAddProperty_eq_zero {nodeoffset : Int} {name : Bytes} {len : Int} :
    (fdtAddProperty fdt nodeoffset name len).1 = 0 ↔ AddFits fdt nodeoffset name len := by
  unfold fdtAddProperty AddFits
  rw [← fdtSpliceStruct_eq_zero]
  by_cases hnode : fdtCheckNodeOffset fdt nodeoffset < 0
  · simp only [if_pos hnode]
    omega
  · simp only [if_neg hnode]
    by_cases hs : (fdtFindAddString fdt name).1 < 0
    · simp only [if_pos hs]
      omega
    · simp only [if_neg hs]
      by_cases hr : (fdtSpliceStruct (fdtFindAddString fdt name).2 (fdtCheckNodeOffset fdt nodeoffset)
          0 (12 + fdtTagAlign len)).1 = 0
      · simp only [hr, ne_eq, not_true_eq_false, if_false, and_true, true_iff]
        exact ⟨by omega, by omega⟩
      · simp only [ne_eq, hr, not_false_eq_true, if_true, and_false]

theorem fst_error {α : Type} (r : Int) (x y : α) : (if r ≠ 0 then (r, x) else (0, y)).1 = r := by
  by_cases h : r = 0
  · rw [if_neg (not_not.mpr h), h]
  · rw [if_pos h]

theorem fdtResizeProperty_fst {nodeoffset : Int} {name : Bytes} {len : Int} :
    (fdtResizeProperty fdt nodeoffset name len).1 =
      if fdtGetProperty fdt nodeoffset name < 0 then fdtGetProperty fdt nodeoffset name
      else (fdtSpliceStruct fdt (fdtGetProperty fdt nodeoffset name + 12)
        (fdtTagAlign (propLen fdt (fdtGetProperty fdt nodeoffset name))) (fdtTagAlign len)).1 := by
  unfold fdtResizeProperty
  by_cases hprop : fdtGetProperty fdt nodeoffset name < 0
  · simp only [if_pos hprop]
  · simp only [if_neg hprop, fst_error]

theorem fdtSetprop_fst {nodeoffset : Int} {name val : Bytes} :
    (fdtSetprop fdt nodeoffset name val).1 =
      if (fdtResizeProperty fdt nodeoffset name val.length).1 = errNotFound then
        (fdtAddProperty (fdtResizeProperty fdt nodeoffset name val.length).2.2 nodeoffset name
          val.length).1
      else (fdtResizeProperty fdt nodeoffset name val.length).1 := by
  unfold fdtSetprop
  by_cases hr : (fdtResizeProperty fdt nodeoffset name val.length).1 = errNotFound
  · simp only [if_pos hr, fst_error]
  · simp only [if_neg hr, fst_error]

theorem fdtSetprop_ok (fdt : Fdt) (nodeoffset : Int) (name val : Bytes) :
    (fdtSetprop fdt nodeoffset name val).1 ≤ 0 ∧
      ((fdtSetprop fdt nodeoffset name val).1 = 0 ↔ SetFits fdt nodeoffset name val) := by
  unfold SetFits
  rw [fdtSetprop_fst, fdtResizeProperty_fst]
  by_cases hprop : fdtGetProperty fdt nodeoffset name < 0
  · have hle : ¬0 ≤ fdtGetProperty fdt nodeoffset name := by omega
    have hfdt : (fdtResizeProperty fdt nodeoffset name val.length).2.2 = fdt := by
      simp only [fdtResizeProperty, if_pos hprop]
    simp only [if_pos hprop, if_neg hle, hfdt, ← fdtAddProperty_eq_zero]
    by_cases hnone : fdtGetProperty fdt nodeoffset name = errNotFound
    · rw [if_pos hnone]
      exact ⟨fdtAddProperty_le_zero fdt nodeoffset name val.length, (and_iff_right hnone).symm⟩
    · rw [if_neg hnone]
      exact ⟨by omega, fun h => by omega, fun h => absurd h.1 hnone⟩
  · have hle : 0 ≤ fdtGetProperty fdt nodeoffset name := by omega
    have hsplice := fdtSpliceStruct_error fdt (fdtGetProperty fdt nodeoffset name + 12)
      (fdtTagAlign (propLen fdt (fdtGetProperty fdt nodeoffset name))) (fdtTagAlign val.length)
    simp only [errBadOffset, errNoSpace] at hsplice
    simp only [if_neg hprop, if_pos hle, ← fdtSpliceStruct_eq_zero]
    rw [if_neg (by simp only [errNotFound]; omega)]
    exact ⟨by omega, Iff.rfl⟩

theorem fdtAppendprop_ok (fdt : Fdt) (nodeoffset : Int) (name val : Bytes) :
    (fdtAppendprop fdt nodeoffset name val).1 ≤ 0 ∧
      ((fdtAppendprop fdt nodeoffset name val).1 = 0 ↔ AppendFits fdt nodeoffset name val) := by
  unfold fdtAppendprop AppendFits
  by_cases hle : 0 ≤ fdtGetProperty fdt nodeoffset name
  · have hsplice := fdtSpliceStruct_error fdt (fdtGetProperty fdt nodeoffset name + 12)
      (fdtTagAlign (propLen fdt (fdtGetProperty fdt nodeoffset name)))
      (fdtTagAlign (val.length + propLen fdt (fdtGetProperty fdt nodeoffset name)))
    simp only [errBadOffset, errNoSpace] at hsplice
    simp only [if_pos hle, ← fdtSpliceStruct_eq_zero]
    split
    · exact ⟨by omega, Iff.rfl⟩
    · rename_i hr
      simp only [ne_eq, Decidable.not_not] at hr
      simp [hr]
  · have hadd := fdtAddProperty_le_zero fdt nodeoffset name val.length
    simp only [if_neg hle, ← fdtAddProperty_eq_zero]
    split
    · exact ⟨hadd, Iff.rfl⟩
    · rename_i hr
      simp only [ne_eq, Decidable.not_not] at hr
      simp [hr]

theorem fdtAddSubnode_nonneg {parentoffset : Int} {name : Bytes} :
    0 ≤ (fdtAddSubnode fdt parentoffset name).1 ↔ SubnodeFits fdt parentoffset name := by
  unfold fdtAddSubnode SubnodeFits
  simp only [← fdtSpliceStruct_eq_zero]
  by_cases hle : 0 ≤ fdtSubnodeOffset fdt parentoffset name
  · simp only [if_pos hle, errExists, errNotFound]
    omega
  · simp only [if_neg hle]
    by_cases hnone : fdtSubnodeOffset fdt parentoffset name = errNotFound
    · have hsplice := fdtSpliceStruct_error fdt
        (skipProps fdt (fdtFuel fdt) (fdtNextTag fdt parentoffset).2) 0
        (4 + (align4 (name.length + 1) : Nat) + 4)
      simp only [errBadOffset, errNoSpace] at hsplice
      rw [if_neg (not_not.mpr hnone)]
      split
      · rename_i hr
        simp only [hr, and_false, iff_false]
        omega
      · rename_i hr
        simp only [ne_eq, Decidable.not_not] at hr
        simp only [hnone, hr, true_and, and_true]
    · simp only [ne_eq, hnone, not_false_eq_true, if_true, false_and, iff_false]
      omega

end Babelfish.Libfdt
