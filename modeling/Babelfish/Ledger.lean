import Babelfish.Grouping
import Babelfish.Reported

/-! The updates of `fdt_add_pinctrl_group` on a stock: what becomes of the tree with the room that there
is, by nodes and without offsets. -/

namespace Babelfish

open Libfdt Bytes Forest DeviceTree

namespace Op

def edit : Op → DtNode → DtNode
  | setprop name val => DtNode.setprop name val
  | appendprop name val => DtNode.appendprop name val
  | _ => id

/-- An update of one property. -/
inductive Sets : Op → Prop
  | setprop {name : Bytes} (hz : 0 ∉ name) (val : Bytes) : Sets (.setprop name val)
  | appendprop {name : Bytes} (hz : 0 ∉ name) (val : Bytes) : Sets (.appendprop name val)

theorem keepsName_edit : ∀ op : Op, KeepsName op.edit
  | setprop name val => keepsName_setprop name val
  | appendprop name val => keepsName_appendprop name val
  | pathOffset _ | subnodeOffset _ | getprop _ | getPhandle | addSubnode _ => fun _ => rfl

theorem Sets.isUpdate {op : Op} (h : op.Sets) : op.IsUpdate := by
  cases h with
  | setprop hz val => exact .setprop _ val
  | appendprop hz val => exact .appendprop _ val

end Op

def Libfdt.Stock.update (S : Stock) (i : Nat) : Op → Bool × Stock
  | .addSubnode name => S.addSubnode i S.tree.newId name
  | .setprop name val => S.setprop i name val
  | .appendprop name val => S.appendprop i name val
  | _ => (true, S)

/-- An update that was asked for: the stock before it, and the node. -/
structure Update where
  stock : Stock
  node : Nat
  op : Op

namespace Update

def Made (u : Update) : Prop := (u.stock.update u.node u.op).1 = true

instance (u : Update) : Decidable u.Made := inferInstanceAs (Decidable (_ = true))

def sizeOf (T : DeviceTree) (i : Nat) : Option Nat := (T.get? i).map DtNode.openSize

def Resizes (u : Update) (d : Nat) : Prop :=
  u.node = d ∧ sizeOf (u.stock.update u.node u.op).2.tree d ≠ sizeOf u.stock.tree d

instance (u : Update) (d : Nat) : Decidable (u.Resizes d) := inferInstanceAs (Decidable (_ ∧ _))

end Update

/-- A stock with the updates asked for so far. -/
structure Ledger where
  stock : Stock
  updates : List Update

namespace Ledger

def update (L : Ledger) (i : Nat) (op : Op) : Bool × Ledger :=
  ((L.stock.update i op).1, ⟨(L.stock.update i op).2, L.updates ++ [⟨L.stock, i, op⟩]⟩)

def createHandle (L : Ledger) (i : Nat) : UInt32 × Ledger :=
  let phandle := UInt32.ofInt (nextHandle L.stock.tree)
  let r := L.update i (.setprop strPhandle (be32 phandle.toNat))
  if r.1 then
    let r' := r.2.update i (.setprop strLinuxPhandle (be32 phandle.toNat))
    (if r'.1 then phandle else 0, r'.2)
  else (0, r.2)

def describe (L : Ledger) (new : Nat) (device : Bytes) (a : PinAttr) : Ledger :=
  let L := (L.update new (.setprop strDrive (be32 a.2.toNat))).2
  let L := (L.update new (.setprop strPull (be32 a.1.toNat))).2
  (L.update new (.setprop strFunction (device ++ [0]))).2

def refer (L : Ledger) (new d ngroup : Nat) : Ledger :=
  let L := (L.update d (.appendprop strPinctrlNames (strDefault ++ [0]))).2
  let h := L.createHandle new
  (h.2.update d (.setprop (pinctrlProp ngroup) (be32 h.1.toNat))).2

def newGroup (L : Ledger) (c d : Nat) (device : Bytes) (a : PinAttr) (ngroup : Nat) :
    Option Nat × Ledger :=
  let new := L.stock.tree.newId
  let r := L.update c (.addSubnode (attrName device a))
  if r.1 then (some new, (r.2.describe new device a).refer new d ngroup) else (none, r.2)

def groups (L : Ledger) (c d : Nat) (device : Bytes) : List Gpio → Nat → Int × Ledger
  | [], _ => (0, L)
  | pin :: gpios, ngroup =>
    match L.stock.tree.childOf c (DtNode.isNamed (attrName device pin.attr)) with
    | some id => (L.update id (.appendprop strPins (pin.pin ++ [0]))).2.groups c d device gpios ngroup
    | none =>
      match L.newGroup c d device pin.attr ngroup with
      | (none, L) => (errNoSpace, L)
      | (some new, L) =>
        (L.update new (.appendprop strPins (pin.pin ++ [0]))).2.groups c d device gpios (ngroup + 1)

@[simp] theorem update_updates (L : Ledger) (i : Nat) (op : Op) :
    (L.update i op).2.updates = L.updates ++ [⟨L.stock, i, op⟩] := rfl

theorem prefix_update (L : Ledger) (i : Nat) (op : Op) : L.updates <+: (L.update i op).2.updates :=
  List.prefix_append _ _

theorem prefix_createHandle (L : Ledger) (i : Nat) : L.updates <+: (L.createHandle i).2.updates := by
  unfold createHandle
  simp only
  split
  · exact (prefix_update _ _ _).trans (prefix_update _ _ _)
  · exact prefix_update _ _ _

theorem prefix_describe (L : Ledger) (new : Nat) (device : Bytes) (a : PinAttr) :
    L.updates <+: (L.describe new device a).updates :=
  (prefix_update _ _ _).trans ((prefix_update _ _ _).trans (prefix_update _ _ _))

theorem prefix_refer (L : Ledger) (new d ngroup : Nat) : L.updates <+: (L.refer new d ngroup).updates :=
  (prefix_update _ _ _).trans ((prefix_createHandle _ _).trans (prefix_update _ _ _))

theorem prefix_newGroup (L : Ledger) (c d : Nat) (device : Bytes) (a : PinAttr) (ngroup : Nat) :
    L.updates <+: (L.newGroup c d device a ngroup).2.updates := by
  unfold newGroup
  simp only
  split
  · exact (prefix_update _ _ _).trans ((prefix_describe _ _ _ _).trans (prefix_refer _ _ _ _))
  · exact prefix_update _ _ _

theorem prefix_groups (L : Ledger) (c d : Nat) (device : Bytes) (gpios : List Gpio) (ngroup : Nat) :
    L.updates <+: (L.groups c d device gpios ngroup).2.updates := by
  induction gpios generalizing L ngroup with
  | nil => exact List.prefix_refl _
  | cons pin gpios ih =>
    unfold groups
    split
    · exact (prefix_update _ _ _).trans (ih _ _)
    · have hnew := prefix_newGroup L c d device pin.attr ngroup
      split
      · rename_i heq
        rwa [heq] at hnew
      · rename_i heq
        rw [heq] at hnew
        exact hnew.trans ((prefix_update _ _ _).trans (ih _ _))

end Ledger

def AllFresh (w : World) : Prop := ∀ x ∈ w.calls, x.Fresh

/-- The blob has what the ledger says, and the calls so far have done what was asked for. -/
structure Tracks (w : World) (L : Ledger) : Prop where
  stocked : Stocked w.fdt L.stock
  fresh : AllFresh w
  made : AllMade w ↔ ∀ u ∈ L.updates, u.Made

section

variable {w : World} {L : Ledger} {target : Target} {op : Op} {i o : Nat} {n : DtNode}

theorem AllFresh.call (h : AllFresh w) {target : Target} {op : Op} {o : Int}
    (ho : o = target.offset w.fdt) : AllFresh (w.call target op o) := by
  intro x hx
  rcases List.mem_append.mp hx with hx | hx
  · exact h x hx
  · rw [List.mem_singleton] at hx
    subst hx
    exact ho

theorem allMade_call (w : World) (target : Target) (op : Op) (o : Int) :
    AllMade (w.call target op o) ↔
      AllMade w ∧ ((⟨target, op, w.fdt, o⟩ : Call).Required → 0 ≤ (op.run w.fdt o).1) := by
  unfold AllMade
  simp only [World.call_calls, List.mem_append, List.mem_singleton, or_imp, forall_and, forall_eq]
  rfl

theorem update_tree {S : Stock} (h : op.Sets) : (S.update i op).2.tree =
    if (S.update i op).1 then S.tree.modify i op.edit else S.tree := by
  cases h with
  | setprop hz val => exact Stock.put_tree _ _ _ _ _
  | appendprop hz val => exact Stock.put_tree _ _ _ _ _

theorem resizes_iff {S : Stock} (h : op.Sets) (hn : S.tree.get? i = some n) :
    (⟨S, i, op⟩ : Update).Resizes i ↔ (S.update i op).1 = true ∧ (op.edit n).openSize ≠ n.openSize := by
  unfold Update.Resizes Update.sizeOf
  simp only [update_tree h, true_and]
  by_cases hmade : (S.update i op).1 = true
  · simp [hmade, get?_modify_self, hn]
  · simp [hmade]

theorem Libfdt.Stocked.update {fdt : Fdt} {S : Stock} (h : Stocked fdt S) (hn : S.tree.get? i = some n)
    (ho : DeviceTree.offset S.tree i = some o) (hop : op.Sets) :
    Edits 0 (op.run fdt o) (S.update i op) := by
  cases hop with
  | setprop hz val => exact h.setprop hn ho hz val
  | appendprop hz val => exact h.appendprop hn ho hz val

theorem Tracks.runs_read (h : Tracks w L) {o : Int} (ho : o = target.offset w.fdt)
    (hfdt : (op.run w.fdt o).2 = w.fdt)
    (hreq : (⟨target, op, w.fdt, o⟩ : Call).Required → 0 ≤ (op.run w.fdt o).1) :
    Runs (call target op o) w fun r w' => r = (op.run w.fdt o).1 ∧ w'.fdt = w.fdt ∧ Tracks w' L := by
  refine runs_call ⟨rfl, hfdt, ?_, h.fresh.call ho, ?_⟩
  · rw [World.call_fdt, hfdt]
    exact h.stocked
  · rw [allMade_call, and_iff_left hreq]
    exact h.made

theorem Tracks.runs_update (h : Tracks w L) (ht : (o : Int) = target.offset w.fdt)
    (hn : L.stock.tree.get? i = some n) (ho : DeviceTree.offset L.stock.tree i = some o)
    (hop : op.Sets) : Runs (call target op o) w fun r w' =>
      r = (if (L.update i op).1 then 0 else errNoSpace) ∧ Tracks w' (L.update i op).2 := by
  obtain ⟨hret, hstocked⟩ := h.stocked.update hn ho hop
  refine runs_call ⟨hret, hstocked, h.fresh.call ht, ?_⟩
  have hreq : (⟨target, op, w.fdt, (o : Int)⟩ : Call).Required := Or.inl hop.isUpdate
  rw [allMade_call, h.made, imp_iff_right hreq, hret]
  simp only [Ledger.update_updates, List.forall_mem_append, List.forall_mem_singleton]
  refine and_congr_right fun _ => ?_
  unfold Update.Made
  by_cases hmade : (L.stock.update i op).1 = true
  · simp [hmade]
  · simp [hmade]

end

end Babelfish
