import Babelfish.Calls
import Babelfish.Libfdt.Edit

/-! One libfdt call on a blob that represents a tree, as a step of a fixup. -/

namespace Babelfish

open Libfdt Bytes Forest

variable {w : World} {T : DeviceTree} {target : Target} {id o : Nat} {Q : Int → World → Prop}

theorem runs_pathOffset {path : Bytes} (h : Repr w.fdt T) (hz : 0 ∉ path)
    (hr : T.resolve path = some id) (ho : DeviceTree.offset T id = some o)
    (hQ : Q o (w.call .root (.pathOffset path) 0)) : Runs (pathOffset path) w Q := by
  refine runs_call ?_
  have := h.pathOffset hz hr ho
  simp only [Op.run, this]
  exact hQ

theorem runs_pathOffset_none {path : Bytes} (h : Repr w.fdt T) (hz : 0 ∉ path)
    (habs : path.head? = some slash) (hr : T.lookup path = none)
    (hQ : Q errNotFound (w.call .root (.pathOffset path) 0)) : Runs (pathOffset path) w Q := by
  refine runs_call ?_
  simp only [Op.run, (h.pathOffset_abs hz habs).1 hr]
  exact hQ

theorem runs_getprop {name : Bytes} {n : DtNode} (h : Repr w.fdt T) (hn : T.get? id = some n)
    (ho : DeviceTree.offset T id = some o)
    (hQ : Q ((n.getprop name).elim errNotFound fun v => (v.length : Int))
      (w.call target (.getprop name) o)) :
    Runs (call target (.getprop name) o) w Q := by
  refine runs_call ?_
  have := h.getprop_len hn ho name
  simp only [Op.run, this]
  cases hp : n.getprop name with
  | none => simpa only [hp, Option.elim_none] using hQ
  | some v => simpa only [hp, Option.elim_some] using hQ

theorem runs_setprop_of_neg {name val : Bytes} {o : Int} (ho : o < 0)
    (hQ : Q errBadOffset (w.call target (.setprop name val) o)) :
    Runs (call target (.setprop name val) o) w Q := by
  refine runs_call ?_
  simp only [Op.run, fdtSetprop_of_neg ho]
  exact hQ

theorem call_setprop_of_neg {name val : Bytes} {o : Int} (ho : o < 0) :
    (w.call target (.setprop name val) o).fdt = w.fdt := by
  simp only [World.call_fdt, Op.run, fdtSetprop_of_neg ho]

theorem runs_subnodeOffset_none {name : Bytes} (h : Repr w.fdt T) (hz : 0 ∉ name)
    (ho : DeviceTree.offset T id = some o) (hc : T.childOf id (DtNode.isNamed name) = none)
    (hQ : Q errNotFound (w.call target (.subnodeOffset name) o)) :
    Runs (call target (.subnodeOffset name) o) w Q := by
  refine runs_call ?_
  have := (h.subnodeOffset ho hz).1 hc
  simp only [Op.run, this]
  exact hQ

theorem runs_subnodeOffset_some {name : Bytes} (h : Repr w.fdt T) (hz : 0 ∉ name)
    (ho : DeviceTree.offset T id = some o) {j oj : Nat}
    (hc : T.childOf id (DtNode.isNamed name) = some j) (hj : DeviceTree.offset T j = some oj)
    (hQ : Q oj (w.call target (.subnodeOffset name) o)) :
    Runs (call target (.subnodeOffset name) o) w Q := by
  refine runs_call ?_
  have := (h.subnodeOffset ho hz).2 j hc oj hj
  simp only [Op.run, this]
  exact hQ

theorem runs_getPhandle {n : DtNode} (h : Repr w.fdt T) (hn : T.get? id = some n)
    (ho : DeviceTree.offset T id = some o) (hQ : Q n.phandle (w.call target .getPhandle o)) :
    Runs (call target .getPhandle o) w Q := by
  refine runs_call ?_
  simp only [Op.run, h.getPhandle hn ho]
  exact hQ

/-- What is left for the steps after one that took at most `room` bytes. -/
def Leaves (w : World) (room : Nat) (T' : DeviceTree) (w' : World) : Prop :=
  Repr w'.fdt T' ∧ w.fdt.free.length ≤ w'.fdt.free.length + room

theorem Leaves.trans {w w' w'' : World} {room room' : Nat} {T T' : DeviceTree}
    (h : Leaves w room T w') (h' : Leaves w' room' T' w'') : Leaves w (room + room') T' w'' := by
  obtain ⟨-, h⟩ := h
  obtain ⟨hrepr, h'⟩ := h'
  exact ⟨hrepr, by omega⟩

theorem Leaves.mono {w w' : World} {room room' : Nat} {T : DeviceTree} (h : Leaves w room T w')
    (hle : room ≤ room') : Leaves w room' T w' := ⟨h.1, Nat.le_trans h.2 (Nat.add_le_add_left hle _)⟩

theorem runs_setprop {n : DtNode} (h : Repr w.fdt T) (hn : T.get? id = some n)
    (ho : DeviceTree.offset T id = some o) {name val : Bytes} (hz : 0 ∉ name)
    (hroom : setRoom n name val.length ≤ w.fdt.free.length)
    (hQ : Leaves w (setRoom n name val.length) (T.modify id (DtNode.setprop name val))
      (w.call target (.setprop name val) o) → Q 0 (w.call target (.setprop name val) o)) :
    Runs (call target (.setprop name val) o) w Q := by
  obtain ⟨hr, hrepr, hfree⟩ := (h.setprop hn ho hz val).of_room hroom
  refine runs_call ?_
  simp only [Op.run, hr]
  exact hQ ⟨hrepr, hfree⟩

theorem runs_appendprop {n : DtNode} (h : Repr w.fdt T) (hn : T.get? id = some n)
    (ho : DeviceTree.offset T id = some o) {name val : Bytes} (hz : 0 ∉ name)
    (hroom : propRoom name val.length ≤ w.fdt.free.length)
    (hQ : Leaves w (propRoom name val.length) (T.modify id (DtNode.appendprop name val))
      (w.call target (.appendprop name val) o) → Q 0 (w.call target (.appendprop name val) o)) :
    Runs (call target (.appendprop name val) o) w Q := by
  obtain ⟨hr, hrepr, hfree⟩ := (h.appendprop hn ho hz val).of_room hroom
  refine runs_call ?_
  simp only [Op.run, hr]
  exact hQ ⟨hrepr, hfree⟩

theorem runs_addSubnode {n : DtNode} {new : Nat} (h : Repr w.fdt T) (hn : T.get? id = some n)
    (ho : DeviceTree.offset T id = some o) {name : Bytes} (hz : 0 ∉ name)
    (hc : T.childOf id (DtNode.isNamed name) = none) (hfresh : new ∉ T.ids)
    (hroom : nodeRoom name ≤ w.fdt.free.length)
    (hQ : DeviceTree.offset (T.addFirst id new ⟨name, []⟩) new = some (o + n.openSize) →
      Leaves w (nodeRoom name) (T.addFirst id new ⟨name, []⟩) (w.call target (.addSubnode name) o) →
      Q ((o + n.openSize : Nat) : Int) (w.call target (.addSubnode name) o)) :
    Runs (call target (.addSubnode name) o) w Q := by
  obtain ⟨hoff, hedit⟩ := h.addSubnode hn ho hz hc hfresh
  obtain ⟨hr, hrepr, hfree⟩ := hedit.of_room hroom
  refine runs_call ?_
  simp only [Op.run, hr]
  exact hQ hoff ⟨hrepr, hfree⟩

end Babelfish
