import Babelfish.Libfdt.Edit

/-! The bytes that a new property takes, to the last one. -/

namespace Babelfish.Libfdt

open Bytes

variable {fdt : Fdt} {T : DeviceTree}

theorem Repr.setprop_new {id o : Nat} {n : DtNode} (h : Repr fdt T) (hn : T.get? id = some n)
    (ho : DeviceTree.offset T id = some o) {name : Bytes} (hz : 0 ∉ name) (hp : n.getprop name = none)
    (val : Bytes) :
    propNeed fdt.dtStrings name val.length ≤ fdt.free.length ∧
      (fdtSetprop fdt o name val).1 = 0 ∧
      Repr (fdtSetprop fdt o name val).2 (T.modify id (DtNode.setprop name val)) ∧
      (fdtSetprop fdt o name val).2.dtStrings = fdt.dtStrings ++ newName fdt.dtStrings name ∧
      (fdtSetprop fdt o name val).2.free.length + propNeed fdt.dtStrings name val.length =
        fdt.free.length ∨
    fdt.free.length < propNeed fdt.dtStrings name val.length ∧
      (fdtSetprop fdt o name val).1 = errNoSpace ∧ Repr (fdtSetprop fdt o name val).2 T := by
  have hvalue : Stock.value ⟨T, fdt.dtStrings, fdt.free.length⟩ id name = none := by
    rw [Stock.value, hn]
    exact hp
  obtain ⟨hr, hrepr, hstrings, hfree⟩ := h.stocked.setprop hn ho hz val
  rw [Stock.setprop, Stock.put_eq_none hvalue] at hr hrepr hstrings hfree
  by_cases hle : propNeed fdt.dtStrings name val.length ≤ fdt.free.length
  · rw [Stock.splice_of_le (by exact hle)] at hr hrepr hstrings hfree
    simp only at hfree
    unfold propNeed at hle ⊢
    exact Or.inl ⟨hle, hr, hrepr, hstrings, by omega⟩
  · have hno := Stock.splice_fst ⟨T, fdt.dtStrings, fdt.free.length⟩
      (T.modify id (DtNode.setprop name val)) (newName fdt.dtStrings name) (12 + align4 val.length) 0
    rw [decide_eq_false (by exact hle)] at hno
    rw [hno] at hr
    rw [Stock.splice_tree, hno] at hrepr
    exact Or.inr ⟨by omega, hr, hrepr⟩

end Babelfish.Libfdt
