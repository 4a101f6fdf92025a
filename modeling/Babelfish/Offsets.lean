import Babelfish.Ledger
import Babelfish.Libfdt.Padding

/-! The offsets that `fdt_add_pinctrl_group` passes to libfdt, with any amount of free space: as long as the
device does not move the controller, the calls do what the ledger says. -/

namespace Babelfish

open Libfdt Bytes Forest DeviceTree

/-- A program that always ends, and only adds to the record of the calls. -/
def Extends {α : Type} (m : Fixup α) : Prop := ∀ w, Runs m w fun _ w' => w.calls <+: w'.calls

namespace Extends

variable {α β : Type} {m : Fixup α} {f : α → Fixup β}

theorem pure (a : α) : Extends (Pure.pure a : Fixup α) := fun _ => Runs.pure (List.prefix_refl _)

theorem call (target : Target) (op : Op) (o : Int) : Extends (Babelfish.call target op o) :=
  fun _ => runs_call (List.prefix_append _ _)

theorem pathOffset (path : Bytes) : Extends (Babelfish.pathOffset path) := call _ _ _

theorem bind (hm : Extends m) (hf : ∀ a, Extends (f a)) : Extends (m >>= f) := fun w =>
  Runs.bind ((hm w).mono fun a w' h => (hf a w').mono fun _ _ h' => h.trans h')

theorem get_bind {f : World → Fixup β} (hf : ∀ w, Extends (f w)) :
    Extends ((MonadState.get : Fixup World) >>= f) := fun w => Runs.bind (Runs.get (hf w w))

theorem ite {c : Prop} [Decidable c] {m m' : Fixup α} (h : Extends m) (h' : Extends m') :
    Extends (if c then m else m') := by
  split
  · exact h
  · exact h'

end Extends

def SomeStale (w : World) : Prop := ∃ x ∈ w.calls, ¬x.Fresh

theorem SomeStale.runs {α : Type} {m : Fixup α} {w : World} (h : SomeStale w) (hm : Extends m) :
    Runs m w fun _ w' => SomeStale w' := by
  obtain ⟨x, hx, hs⟩ := h
  exact (hm w).mono fun _ _ hpre => ⟨x, hpre.subset hx, hs⟩

theorem SomeStale.call {w : World} {target : Target} {op : Op} {o : Int}
    (h : o ≠ target.offset w.fdt) : SomeStale (w.call target op o) :=
  ⟨_, List.mem_append_right _ (List.mem_singleton.mpr rfl), h⟩

/-- What the callers promise for the names and paths. -/
structure Paths (pinctrlPath parentPath : Bytes) (d : Nat) (al : Option Nat) : Prop where
  pinctrl_zero : 0 ∉ pinctrlPath
  parent_zero : 0 ∉ parentPath
  pinctrl_safe : AliasSafe pinctrlPath d al
  parent_safe : AliasSafe parentPath d al

/-- A call of `fdt_add_pinctrl_group` on a tree: the controller, its offset and the device, and whether the
controller comes first. -/
structure Site where
  c : Nat
  d : Nat
  po : Nat
  pinctrlPath : Bytes
  parentPath : Bytes
  al : Option Nat
  ahead : Prop

/-- The controller and the device are where they were looked up. -/
structure Placed (s : Site) (T : DeviceTree) : Prop where
  order : s.ahead ∧ T.Precedes s.c s.d ∨ ¬s.ahead ∧ T.Precedes s.d s.c
  ctrl_offset : DeviceTree.offset T s.c = some s.po
  ctrl_resolve : T.resolve s.pinctrlPath = some s.c
  resolve : T.resolve s.parentPath = some s.d
  aliases : T.lookup strAliases = s.al

/-- A new group `id` of the controller is at the offset `o`. -/
structure AtGroup (s : Site) (id o : Nat) (name : Bytes) (T : DeviceTree) : Prop extends Placed s T where
  ctrl_group : T.Precedes s.c id
  before : s.ahead → T.Precedes id s.d
  ne_aliases : s.al ≠ some id
  group_offset : DeviceTree.offset T id = some o
  child : T.childOf s.c (DtNode.isNamed name) = some id

/-- No update so far has moved the controller. -/
def Held (s : Site) (L : Ledger) : Prop := s.ahead ∨ ∀ u ∈ L.updates, ¬u.Resizes s.d

section Sites

variable {s : Site} {id o : Nat} {name : Bytes} {T : DeviceTree} {g : DtNode → DtNode} {L L' : Ledger}

theorem Held.earlier (h : Held s L') (hpre : L.updates <+: L'.updates) : Held s L :=
  h.imp_right fun hall u hu => hall u (hpre.subset hu)

theorem Held.update (h : Held s L) {i : Nat} {op : Op}
    (hu : s.ahead ∨ ¬(⟨L.stock, i, op⟩ : Update).Resizes s.d) : Held s (L.update i op).2 := by
  rcases h with h | h
  · exact Or.inl h
  · refine hu.imp_right fun hu => ?_
    rw [Ledger.update_updates, List.forall_mem_append, List.forall_mem_singleton]
    exact ⟨h, hu⟩

theorem Held.update_of_ne (h : Held s L) {i : Nat} (hi : i ≠ s.d) (op : Op) : Held s (L.update i op).2 :=
  h.update (Or.inr fun hu => hi hu.1)

theorem not_held {i : Nat} {op : Op} (ha : ¬s.ahead) (hu : (⟨L.stock, i, op⟩ : Update).Resizes s.d) :
    ¬Held s (L.update i op).2 := by
  rintro (h | h)
  · exact ha h
  · exact h _ (List.mem_append_right _ (List.mem_singleton_self _)) hu

theorem Placed.mem_ctrl (h : Placed s T) : s.c ∈ T.ids :=
  h.order.elim (fun h => h.2.mem_left) fun h => h.2.mem_right

theorem Placed.mem_device (h : Placed s T) : s.d ∈ T.ids :=
  h.order.elim (fun h => h.2.mem_right) fun h => h.2.mem_left

theorem AtGroup.ne_device (h : AtGroup s id o name T) (hn : T.ids.Nodup) : id ≠ s.d := by
  rcases h.order with ⟨ha, -⟩ | ⟨-, hdc⟩
  · exact (h.before ha).ne hn
  · exact ((hdc.trans hn h.ctrl_group).ne hn).symm

variable (hn : T.ids.Nodup) (hg : KeepsName g)

include hn

include hg

theorem Placed.modify_child (h : Placed s T) (hci : T.Precedes s.c id) (hal : s.al ≠ some id) :
    Placed s (T.modify id g) where
  order := h.order.imp (And.imp_right fun h => precedes_modify h _ _)
    (And.imp_right fun h => precedes_modify h _ _)
  ctrl_offset := (offset_update_of_precedes hn (Or.inl hci) _).trans h.ctrl_offset
  ctrl_resolve := resolve_modify hn hg (fun _ ha => absurd (h.aliases.symm.trans ha) hal) h.ctrl_resolve
  resolve := resolve_modify hn hg (fun _ ha => absurd (h.aliases.symm.trans ha) hal) h.resolve
  aliases := (lookup_modify hn hg _).trans h.aliases

theorem AtGroup.modify_group (h : AtGroup s id o name T) :
    AtGroup s id o name (T.modify id g) where
  toPlaced := h.toPlaced.modify_child hn hg h.ctrl_group h.ne_aliases
  ctrl_group := precedes_modify h.ctrl_group _ _
  before ha := precedes_modify (h.before ha) _ _
  ne_aliases := h.ne_aliases
  group_offset := (offset_update_of_precedes hn (Or.inr rfl) _).trans h.group_offset
  child := (childOf_modify hn (hg.isNamed name) id s.c).trans h.child

variable (hp : Paths s.pinctrlPath s.parentPath s.d s.al)
  (hkeep : ∀ name, ¬strPinctrl <+: name → ∀ n, (g n).getprop name = n.getprop name)

include hp hkeep

theorem AtGroup.modify_device (h : AtGroup s id o name T)
    (hsize : s.ahead ∨ ∀ n, T.get? s.d = some n → (g n).openSize = n.openSize) :
    AtGroup s id o name (T.modify s.d g) := by
  have hoff : ∀ j oj, (s.ahead → T.Precedes j s.d) → (¬s.ahead → T.Precedes s.d j) →
      DeviceTree.offset T j = some oj → DeviceTree.offset (T.modify s.d g) j = some oj := by
    intro j oj hfirst hlast ho
    by_cases ha : s.ahead
    · exact (offset_update_of_precedes hn (Or.inl (hfirst ha)) _).trans ho
    · obtain ⟨n, hnd⟩ := get?_of_mem h.mem_device
      have hsame := hsize.resolve_left ha n hnd
      obtain ⟨oj', ho', he⟩ := DeviceTree.offset_modify hn (hlast ha) hnd ho
      rw [ho', show oj' = oj by omega]
  have hfirst : s.ahead → T.Precedes s.c s.d := fun ha => h.order.elim And.right fun hc => absurd ha hc.1
  have hlast : ¬s.ahead → T.Precedes s.d s.c := fun ha => h.order.elim (fun hc => absurd hc.1 ha) And.right
  exact
    { order := h.order.imp (And.imp_right fun h => precedes_modify h _ _)
        (And.imp_right fun h => precedes_modify h _ _)
      ctrl_offset := hoff s.c s.po hfirst hlast h.ctrl_offset
      ctrl_resolve := resolve_modify hn hg
        (fun habs ha n _ _ => hkeep _ (hp.pinctrl_safe habs (h.aliases.symm.trans ha)) n) h.ctrl_resolve
      resolve := resolve_modify hn hg
        (fun habs ha n _ _ => hkeep _ (hp.parent_safe habs (h.aliases.symm.trans ha)) n) h.resolve
      aliases := (lookup_modify hn hg _).trans h.aliases
      ctrl_group := precedes_modify h.ctrl_group _ _
      before := fun ha => precedes_modify (h.before ha) _ _
      ne_aliases := h.ne_aliases
      group_offset := hoff id o h.before (fun ha => (hlast ha).trans hn h.ctrl_group) h.group_offset
      child := (childOf_modify hn (hg.isNamed name) s.d s.c).trans h.child }

theorem AtGroup.shifted (h : AtGroup s id o name T) (hzn : 0 ∉ name) (ha : ¬s.ahead)
    (hsize : ∀ n, T.get? s.d = some n → (g n).openSize ≠ n.openSize) {fdt : Fdt}
    (hr : Repr fdt (T.modify s.d g)) : (o : Int) ≠ (Target.subnode s.pinctrlPath name).offset fdt := by
  have hdc : T.Precedes s.d s.c := h.order.elim (fun hc => absurd hc.1 ha) And.right
  obtain ⟨n, hnd⟩ := get?_of_mem h.mem_device
  have hmem : s.c ∈ (T.modify s.d g).ids := by
    rw [ids_modify]
    exact h.mem_ctrl
  obtain ⟨pc, hpc⟩ := DeviceTree.offset_isSome hmem
  obtain ⟨o', ho', hmove⟩ := DeviceTree.offset_modify hn (hdc.trans hn h.ctrl_group) hnd h.group_offset
  have hc : DeviceTree.resolve (T.modify s.d g) s.pinctrlPath = some s.c := resolve_modify hn hg
    (fun habs ha n _ _ => hkeep _ (hp.pinctrl_safe habs (h.aliases.symm.trans ha)) n) h.ctrl_resolve
  have hch := (childOf_modify hn (hg.isNamed name) s.d s.c).trans h.child
  have hdiff := hsize n hnd
  have h₁ := hr.pathOffset hp.pinctrl_zero hc hpc
  have h₂ := (hr.subnodeOffset hpc hzn).2 id hch o' ho'
  simp only [Target.offset, h₁, h₂]
  omega

end Sites

theorem AtGroup.target_offset {s : Site} {id o : Nat} {name : Bytes} {T : DeviceTree} {fdt : Fdt}
    (h : AtGroup s id o name T) (hr : Repr fdt T) (hz : 0 ∉ s.pinctrlPath) (hzn : 0 ∉ name) :
    (o : Int) = (Target.subnode s.pinctrlPath name).offset fdt := by
  have hpo := hr.pathOffset hz h.ctrl_resolve h.ctrl_offset
  have hsub := (hr.subnodeOffset h.ctrl_offset hzn).2 id h.child o h.group_offset
  simp only [Target.offset, hpo, hsub]

theorem aliases_ne_group {T : DeviceTree} (hn : T.ids.Nodup) {device : Bytes} (hat : atSign ∉ device)
    {a : PinAttr} (ha : a ∈ pinAttrs) {c id : Nat}
    (hc : T.childOf c (DtNode.isNamed (attrName device a)) = some id) :
    T.lookup strAliases ≠ some id := by
  intro hal
  obtain ⟨n, hget, hnamed⟩ := lookup_named hn (c := Bytes.ofString "aliases") (by decide) hal
  obtain ⟨-, n', hget', hnamed'⟩ := childOf_spec hn hc
  obtain rfl : n = n' := by simpa [hget] using hget'
  have heq := DtNode.eq_of_nameMatches (by decide) (atSign_not_mem_attrName hat ha) hnamed hnamed'
  have hlen := congrArg List.length heq
  have hs : strPinsBabelfish.length = 15 := by decide
  have h7 : (Bytes.ofString "aliases").length = 7 := by decide
  rw [attrName_eq] at hlen
  simp only [List.length_append] at hlen
  omega


end Babelfish
