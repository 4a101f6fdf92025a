import Babelfish.Grouping
import Babelfish.Lib.Distinct

/-! The loop of `fdt_add_pinctrl_group`: after every pin, the new children of the controller are the
groups of the pins so far. -/

namespace Babelfish

open Libfdt Bytes Forest DeviceTree Distinct

/-- The pins with one pair of attributes, in array order. -/
def pinsOf (gpios : List Gpio) (a : PinAttr) : List Bytes :=
  (gpios.filter fun g => g.attr == a).map Gpio.pin

theorem pinsOf_concat (gpios : List Gpio) (g : Gpio) (a : PinAttr) :
    pinsOf (gpios ++ [g]) a = if g.attr = a then pinsOf gpios a ++ [g.pin] else pinsOf gpios a := by
  by_cases h : g.attr = a
  · simp [pinsOf, h]
  · simp [pinsOf, h]

theorem pinsOf_eq_nil {gpios : List Gpio} {a : PinAttr} (h : a ∉ gpios.map Gpio.attr) :
    pinsOf gpios a = [] := by
  simp only [pinsOf, List.map_eq_nil_iff, List.filter_eq_nil_iff, beq_iff_eq]
  exact fun g hg e => h (List.mem_map.mpr ⟨g, hg, e⟩)

structure Group where
  id : Nat
  attr : PinAttr
  phandle : UInt32

/-- `T` is `T₀` with the groups of the pins `done` below `c`, and references to them in `d`. -/
structure Grouped (T₀ : DeviceTree) (c d : Nat) (device : Bytes) (done : List Gpio)
    (groups : List Group) (T : DeviceTree) : Prop where
  nodup : T.ids.Nodup
  rooted : T.Rooted
  attrs : groups.map Group.attr = (done.map Gpio.attr).eraseDups
  fresh : ∀ g ∈ groups, g.id ∉ T₀.ids
  distinct : (groups.map Group.id).Nodup
  mem : ∀ j, j ∈ T.ids ↔ j ∈ T₀.ids ∨ ∃ g ∈ groups, j = g.id
  group : ∀ g ∈ groups, T.get? g.id = some (groupNode device g.attr g.phandle (pinsOf done g.attr))
  deviceNode : T.get? d = (T₀.get? d).map (deviceRefs (groups.map Group.phandle))
  other : ∀ j, j ≠ d → (∀ g ∈ groups, j ≠ g.id) → T.get? j = T₀.get? j
  kids : ∀ j, (∀ g ∈ groups, j ≠ g.id) → T.kids j =
    if j = c then (groups.map Group.id).reverse ++ T₀.kids c else T₀.kids j
  groupKids : ∀ g ∈ groups, T.kids g.id = []
  child : ∀ a ∈ pinAttrs, T.childOf c (DtNode.isNamed (attrName device a)) =
    (groups.find? fun g => g.attr == a).map Group.id
  precedes : ∀ x y, T₀.Precedes x y → T.Precedes x y
  between : ∀ g ∈ groups, T.Precedes c g.id ∧ T.Precedes g.id d
  offset : DeviceTree.offset T c = DeviceTree.offset T₀ c
  resolve : ∀ path x, AliasSafe path d (T₀.lookup strAliases) → T₀.resolve path = some x →
    T.resolve path = some x
  aliases : T.lookup strAliases = T₀.lookup strAliases

/-- The groups have phandles of their own. -/
structure Phandled (groups : List Group) (T : DeviceTree) : Prop where
  pos : ∀ g ∈ groups, 0 < g.phandle.toNat
  own : ∀ g ∈ groups, ∀ j n, T.get? j = some n → n.phandle = g.phandle.toNat → j = g.id
  below : PhandlesBelow (2147483639 + groups.length) T

/-- What `fdt_add_pinctrl_group` finds: a controller in front of a device that no group has been made
for. -/
structure Ungrouped (T₀ : DeviceTree) (c d : Nat) (device : Bytes) : Prop where
  ctrl_device : T₀.Precedes c d
  noGroup : ∀ a ∈ pinAttrs, T₀.childOf c (DtNode.isNamed (attrName device a)) = none

section Steps

variable {T₀ T : DeviceTree} {c d : Nat} {device : Bytes} {done : List Gpio} {groups : List Group}

theorem Grouped.init (h : Ungrouped T₀ c d device) (hn : T₀.ids.Nodup) (hr : Rooted T₀) :
    Grouped T₀ c d device [] [] T₀ where
  nodup := hn
  rooted := hr
  attrs := rfl
  fresh := by simp
  distinct := List.nodup_nil
  mem := by simp
  group := by simp
  deviceNode := by simp only [List.map_nil]; cases T₀.get? d <;> rfl
  other _ _ _ := rfl
  kids j _ := by simp only [List.map_nil, List.reverse_nil, List.nil_append]; split <;> simp_all
  groupKids := by simp
  child a ha := by simpa using h.noGroup a ha
  precedes _ _ h := h
  between := by simp
  offset := rfl
  resolve _ _ _ h := h
  aliases := rfl

theorem Phandled.init (h : PhandlesBelow 2147483639 T₀) : Phandled [] T₀ where
  pos := by simp
  own := by simp
  below := by simpa using h

theorem Grouped.length_le (h : Grouped T₀ c d device done groups T) :
    groups.length ≤ done.length := by
  have h₁ := congrArg List.length h.attrs
  have h₂ := length_eraseDups_le (done.map Gpio.attr)
  simp only [List.length_map] at h₁ h₂
  omega

theorem Grouped.attr_inj (h : Grouped T₀ c d device done groups T) {g g' : Group}
    (hg : g ∈ groups) (hg' : g' ∈ groups) (he : g.attr = g'.attr) : g = g' := by
  have hn : (groups.map Group.attr).Nodup := h.attrs ▸ nodup_eraseDups _
  exact List.inj_on_of_nodup_map hn hg hg' he

theorem Grouped.id_inj (h : Grouped T₀ c d device done groups T) {g g' : Group}
    (hg : g ∈ groups) (hg' : g' ∈ groups) (he : g.id = g'.id) : g = g' :=
  List.inj_on_of_nodup_map h.distinct hg hg' he

theorem Grouped.old (h : Grouped T₀ c d device done groups T) (hd : d ∈ T₀.ids)
    {pin : Gpio} {g : Group} (hg : g ∈ groups) (ha : g.attr = pin.attr)
    (hal : T.lookup strAliases ≠ some g.id) :
    Grouped T₀ c d device (done ++ [pin]) groups
      (T.modify g.id (DtNode.appendprop strPins (pin.pin ++ [0]))) := by
  have hgd : g.id ≠ d := fun e => h.fresh g hg (e ▸ hd)
  have hmem : pin.attr ∈ done.map Gpio.attr := by
    have : g.attr ∈ (done.map Gpio.attr).eraseDups := h.attrs ▸ List.mem_map.mpr ⟨g, hg, rfl⟩
    exact ha ▸ List.mem_eraseDups.mp this
  refine ⟨by rw [ids_modify]; exact h.nodup, h.rooted.update _ _, ?_, h.fresh, h.distinct, ?_, ?_,
    ?_, ?_, ?_, ?_, ?_, fun x y hxy => precedes_modify (h.precedes x y hxy) _ _, ?_, ?_, ?_, ?_⟩
  · rw [List.map_append, List.map_singleton, eraseDups_concat, if_pos hmem, h.attrs]
  · rw [ids_modify]
    exact h.mem
  · intro g' hg'
    rw [pinsOf_concat]
    by_cases he : g' = g
    · subst he
      rw [get?_modify_self, h.group _ hg', Option.map_some, appendprop_groupNode, if_pos ha.symm]
    · have hne : pin.attr ≠ g'.attr := fun e => he (h.attr_inj hg' hg (by rw [← e, ha]))
      rw [get?_modify_of_ne (fun e => he (h.id_inj hg' hg e)) h.nodup, h.group _ hg', if_neg hne]
  · rw [get?_modify_of_ne hgd.symm h.nodup, h.deviceNode]
  · intro j hj hjg
    rw [get?_modify_of_ne (hjg g hg) h.nodup, h.other j hj hjg]
  · intro j hjg
    rw [kids_modify h.nodup, h.kids j hjg]
  · intro g' hg'
    rw [kids_modify h.nodup, h.groupKids g' hg']
  · intro a hm
    rw [childOf_modify h.nodup ((keepsName_appendprop _ _).isNamed _), h.child a hm]
  · exact fun g' hg' => ⟨precedes_modify (h.between g' hg').1 _ _,
      precedes_modify (h.between g' hg').2 _ _⟩
  · exact (offset_update_of_precedes h.nodup (Or.inl (h.between g hg).1) _).trans h.offset
  · exact fun path x hsafe hx => resolve_modify h.nodup (keepsName_appendprop _ _)
      (fun _ he => absurd he hal) (h.resolve path x hsafe hx)
  · exact (lookup_modify h.nodup (keepsName_appendprop _ _) _).trans h.aliases

theorem Phandled.old (h : Phandled groups T) (hn : T.ids.Nodup) (id : Nat) (pin : Gpio) :
    Phandled groups (T.modify id (DtNode.appendprop strPins (pin.pin ++ [0]))) := by
  have hph : ∀ n : DtNode, (n.appendprop strPins (pin.pin ++ [0])).phandle = n.phandle :=
    phandle_appendprop_of_ne (by decide) (by decide) _
  have hold : ∀ j n, (T.modify id (DtNode.appendprop strPins (pin.pin ++ [0]))).get? j = some n →
      ∃ n', T.get? j = some n' ∧ n'.phandle = n.phandle := fun j n hj => by
    have := phandles_modify (i := id) hn hph j
    rw [hj, Option.map_some, eq_comm, Option.map_eq_some_iff] at this
    exact this
  refine ⟨h.pos, fun g hg j n hj he => ?_, fun j n hj => ?_⟩
  · obtain ⟨n', hn', he'⟩ := hold j n hj
    exact h.own g hg j n' hn' (he'.trans he)
  · obtain ⟨n', hn', he'⟩ := hold j n hj
    exact he' ▸ h.below j n' hn'

theorem deviceRefs_concat_eq (phandles : List UInt32) (p : UInt32) (n : DtNode) :
    deviceRefs (phandles ++ [p]) n = referGroup phandles.length p (deviceRefs phandles n) :=
  deviceRefs_concat phandles p n

theorem phandle_referGroup (k : Nat) (ph : UInt32) (n : DtNode) :
    (referGroup k ph n).phandle = n.phandle :=
  phandle_congr (getprop_referGroup (by decide) k ph n) (getprop_referGroup (by decide) k ph n)

def newPinTree (T : DeviceTree) (c d new : Nat) (device : Bytes) (pin : Gpio) (ph : UInt32) (k : Nat) :
    DeviceTree :=
  (newGroupTree T c d new device pin.attr ph k).modify new (DtNode.appendprop strPins (pin.pin ++ [0]))

section

variable {new k : Nat} {pin : Gpio} {ph : UInt32}
variable (hn : T.ids.Nodup) (hfresh : new ∉ T.ids) (hd : d ∈ T.ids) (hc : c ∈ T.ids)

theorem newPinTree_rooted (h : Rooted T) : Rooted (newPinTree T c d new device pin ph k) :=
  (newGroupTree_rooted h).update _ _

include hn

theorem newPinTree_mem (hc : c ∈ T.ids) (j : Nat) :
    j ∈ (newPinTree T c d new device pin ph k).ids ↔ j = new ∨ j ∈ T.ids := by
  unfold newPinTree
  rw [ids_modify, newGroupTree_mem hn hc]

theorem newPinTree_precedes {x y : Nat} (h : T.Precedes x y) :
    (newPinTree T c d new device pin ph k).Precedes x y :=
  precedes_modify (newGroupTree_precedes hn h) _ _

theorem newPinTree_between (hcd : T.Precedes c d) :
    (newPinTree T c d new device pin ph k).Precedes c new ∧
      (newPinTree T c d new device pin ph k).Precedes new d :=
  ⟨precedes_modify (newGroupTree_between hn hcd).1 _ _,
    precedes_modify (newGroupTree_between hn hcd).2 _ _⟩

include hfresh

theorem newPinTree_nodup : (newPinTree T c d new device pin ph k).ids.Nodup := by
  unfold newPinTree
  rw [ids_modify]
  exact newGroupTree_nodup hn hfresh

theorem newPinTree_offset (hcd : T.Precedes c d) :
    DeviceTree.offset (newPinTree T c d new device pin ph k) c = DeviceTree.offset T c :=
  (offset_update_of_precedes (newGroupTree_nodup hn hfresh)
    (Or.inl (newGroupTree_between hn hcd).1) _).trans (newGroupTree_offset hn hfresh hcd)

theorem newPinTree_aliases (hr : Rooted T) (hat : atSign ∉ attrName device pin.attr) :
    DeviceTree.lookup (newPinTree T c d new device pin ph k) strAliases = T.lookup strAliases :=
  (lookup_modify (newGroupTree_nodup hn hfresh) (keepsName_appendprop _ _) _).trans
    (newGroupTree_aliases hn hfresh hr hat)

theorem newPinTree_resolve (hr : Rooted T) (hat : atSign ∉ attrName device pin.attr)
    (hnone : T.childOf c (DtNode.isNamed (attrName device pin.attr)) = none) {path : Bytes} {x : Nat}
    (hsafe : AliasSafe path d (T.lookup strAliases)) (hx : T.resolve path = some x) :
    DeviceTree.resolve (newPinTree T c d new device pin ph k) path = some x := by
  refine resolve_modify (newGroupTree_nodup hn hfresh) (keepsName_appendprop _ _) (fun _ he => ?_)
    (newGroupTree_resolve hn hfresh hr hat hnone hsafe hx)
  rw [newGroupTree_aliases hn hfresh hr hat] at he
  exact absurd he (aliases_ne_new hr hfresh)

theorem newPinTree_get?_other {j : Nat} (hjn : j ≠ new) (hjd : j ≠ d) :
    (newPinTree T c d new device pin ph k).get? j = T.get? j := by
  unfold newPinTree
  rw [get?_modify_of_ne hjn (newGroupTree_nodup hn hfresh), newGroupTree_get?_other hn hfresh hjn hjd]

include hd

theorem newPinTree_get?_device :
    (newPinTree T c d new device pin ph k).get? d = (T.get? d).map (referGroup k ph) := by
  have hdn : d ≠ new := fun e => hfresh (e ▸ hd)
  unfold newPinTree
  rw [get?_modify_of_ne hdn (newGroupTree_nodup hn hfresh), newGroupTree_get?_device hn hfresh hd]

include hc

theorem newPinTree_get?_new : (newPinTree T c d new device pin ph k).get? new =
    some (groupNode device pin.attr ph [pin.pin]) := by
  unfold newPinTree
  rw [get?_modify_self, newGroupTree_get?_new hn hfresh hd hc, Option.map_some]
  exact congrArg some (groupNode_eq device pin.attr ph pin.pin)

omit hd

theorem newPinTree_kids (j : Nat) : (newPinTree T c d new device pin ph k).kids j =
    if j = c then new :: T.kids c else if j = new then [] else T.kids j := by
  unfold newPinTree
  rw [kids_modify (newGroupTree_nodup hn hfresh), newGroupTree_kids hn hfresh hc]

theorem newPinTree_childOf (s : Bytes) :
    (newPinTree T c d new device pin ph k).childOf c (DtNode.isNamed s) =
      if DtNode.nameMatches s (attrName device pin.attr) then some new
      else T.childOf c (DtNode.isNamed s) := by
  unfold newPinTree
  rw [childOf_modify (newGroupTree_nodup hn hfresh) ((keepsName_appendprop _ _).isNamed _),
    newGroupTree_childOf hn hfresh hc]

omit hc
include hd

theorem newPinTree_phandles {j : Nat} (hj : j ≠ new) {n : DtNode}
    (hjn : (newPinTree T c d new device pin ph k).get? j = some n) :
    ∃ n', T.get? j = some n' ∧ n'.phandle = n.phandle := by
  by_cases hjd : j = d
  · subst hjd
    rw [newPinTree_get?_device hn hfresh hd, Option.map_eq_some_iff] at hjn
    obtain ⟨n', hn', rfl⟩ := hjn
    exact ⟨n', hn', (phandle_referGroup k ph n').symm⟩
  · rw [newPinTree_get?_other hn hfresh hj hjd] at hjn
    exact ⟨n, hjn, rfl⟩

end

theorem Grouped.new (h : Grouped T₀ c d device done groups T) (hcd : T₀.Precedes c d)
    (hatd : atSign ∉ device) {pin : Gpio} (hnone : groups.find? (fun g => g.attr == pin.attr) = none)
    {new : Nat} (hfresh : new ∉ T.ids) (ph : UInt32) :
    Grouped T₀ c d device (done ++ [pin]) (groups ++ [⟨new, pin.attr, ph⟩])
      (newPinTree T c d new device pin ph groups.length) := by
  have hcd' := h.precedes c d hcd
  have hc := hcd'.mem_left
  have hd := hcd'.mem_right
  have hat := atSign_not_mem_attrName hatd pin.attr_mem
  have hchild : T.childOf c (DtNode.isNamed (attrName device pin.attr)) = none := by
    rw [h.child _ pin.attr_mem, hnone, Option.map_none]
  have hnew : pin.attr ∉ groups.map Group.attr := by
    intro hm
    obtain ⟨g, hg, he⟩ := List.mem_map.mp hm
    exact absurd he (by simpa using List.find?_eq_none.mp hnone g hg)
  have hnew' : pin.attr ∉ done.map Gpio.attr := fun hm =>
    hnew (h.attrs ▸ List.mem_eraseDups.mpr hm)
  have hne : ∀ g ∈ groups, g.id ≠ new := fun g hg e =>
    hfresh (e ▸ (h.mem g.id).mpr (Or.inr ⟨g, hg, rfl⟩))
  have hgd : ∀ g ∈ groups, g.id ≠ d := fun g hg e => h.fresh g hg (e ▸ hcd.mem_right)
  refine
    { nodup := newPinTree_nodup h.nodup hfresh
      rooted := newPinTree_rooted h.rooted
      attrs := ?_
      fresh := List.forall_mem_append.mpr ⟨h.fresh, List.forall_mem_singleton.mpr fun hm =>
        hfresh ((h.mem new).mpr (Or.inl hm))⟩
      distinct := ?_
      mem := ?_
      group := List.forall_mem_append.mpr ⟨fun g hg => ?_, List.forall_mem_singleton.mpr ?_⟩
      deviceNode := ?_
      other := ?_
      kids := ?_
      groupKids := List.forall_mem_append.mpr ⟨fun g hg => ?_, List.forall_mem_singleton.mpr ?_⟩
      child := ?_
      precedes := fun x y hxy => newPinTree_precedes h.nodup (h.precedes x y hxy)
      between := List.forall_mem_append.mpr ⟨fun g hg => ⟨newPinTree_precedes h.nodup (h.between g hg).1,
        newPinTree_precedes h.nodup (h.between g hg).2⟩,
        List.forall_mem_singleton.mpr (newPinTree_between h.nodup hcd')⟩
      offset := (newPinTree_offset h.nodup hfresh hcd').trans h.offset
      resolve := fun path x hsafe hx => newPinTree_resolve h.nodup hfresh h.rooted hat hchild
        (by rw [h.aliases]; exact hsafe) (h.resolve path x hsafe hx)
      aliases := (newPinTree_aliases h.nodup hfresh h.rooted hat).trans h.aliases }
  · rw [List.map_append, List.map_append, List.map_singleton, List.map_singleton, eraseDups_concat,
      if_neg hnew', h.attrs]
  · rw [List.map_append, List.map_singleton, List.nodup_append]
    refine ⟨h.distinct, List.nodup_singleton _, fun x hx y hy => ?_⟩
    obtain ⟨g, hg, rfl⟩ := List.mem_map.mp hx
    rw [List.mem_singleton] at hy
    exact hy ▸ hne g hg
  · intro j
    rw [newPinTree_mem h.nodup hc, h.mem]
    simp only [List.mem_append, List.mem_singleton]
    constructor
    · rintro (rfl | hj | ⟨g, hg, rfl⟩)
      · exact Or.inr ⟨_, Or.inr rfl, rfl⟩
      · exact Or.inl hj
      · exact Or.inr ⟨g, Or.inl hg, rfl⟩
    · rintro (hj | ⟨g, hg | rfl, rfl⟩)
      · exact Or.inr (Or.inl hj)
      · exact Or.inr (Or.inr ⟨g, hg, rfl⟩)
      · exact Or.inl rfl
  · have ha : pin.attr ≠ g.attr := fun e => hnew (e ▸ List.mem_map.mpr ⟨g, hg, rfl⟩)
    rw [newPinTree_get?_other h.nodup hfresh (hne g hg) (hgd g hg), h.group g hg, pinsOf_concat,
      if_neg ha]
  · rw [newPinTree_get?_new h.nodup hfresh hd hc, pinsOf_concat, if_pos rfl, pinsOf_eq_nil hnew',
      List.nil_append]
  · rw [newPinTree_get?_device h.nodup hfresh hd, h.deviceNode, Option.map_map, List.map_append,
      List.map_singleton]
    congr 1
    funext n
    rw [deviceRefs_concat_eq, List.length_map]
    rfl
  · intro j hj hjg
    rw [newPinTree_get?_other h.nodup hfresh (hjg ⟨new, pin.attr, ph⟩ (by simp)) hj,
      h.other j hj fun g hg => hjg g (List.mem_append_left _ hg)]
  · intro j hjg
    have hjn : j ≠ new := hjg ⟨new, pin.attr, ph⟩ (by simp)
    have hold := h.kids j fun g hg => hjg g (List.mem_append_left _ hg)
    rw [newPinTree_kids h.nodup hfresh hc]
    by_cases hjc : j = c
    · subst hjc
      rw [if_pos rfl] at hold
      rw [if_pos rfl, if_pos rfl, hold, List.map_append, List.map_singleton, List.reverse_append,
        List.reverse_singleton, List.append_assoc, List.singleton_append]
    · rw [if_neg hjc] at hold
      rw [if_neg hjc, if_neg hjn, if_neg hjc, hold]
  · have hgc : g.id ≠ c := fun e => h.fresh g hg (e ▸ hcd.mem_left)
    rw [newPinTree_kids h.nodup hfresh hc, if_neg hgc, if_neg (hne g hg), h.groupKids g hg]
  · have hnc : new ≠ c := fun e => hfresh (e ▸ hc)
    rw [newPinTree_kids h.nodup hfresh hc, if_neg hnc, if_pos rfl]
  · intro a ha
    rw [newPinTree_childOf h.nodup hfresh hc, nameMatches_attrName hatd ha pin.attr_mem, h.child a ha,
      List.find?_append]
    by_cases hap : a = pin.attr
    · subst hap
      rw [hnone]
      simp
    · have : ¬(pin.attr = a) := fun e => hap e.symm
      simp [hap, this]

theorem Phandled.new (h : Phandled groups T) (hn : T.ids.Nodup) {new : Nat} (hfresh : new ∉ T.ids)
    (hc : c ∈ T.ids) (hd : d ∈ T.ids) {ph : UInt32} (hph : NextPhandle T ph) (pin : Gpio)
    (hgroups : ∀ g ∈ groups, ∃ n, T.get? g.id = some n ∧ n.phandle = g.phandle.toNat) :
    Phandled (groups ++ [⟨new, pin.attr, ph⟩])
      (newPinTree T c d new device pin ph groups.length) := by
  have hget : (newPinTree T c d new device pin ph groups.length).get? new =
      some (groupNode device pin.attr ph [pin.pin]) := newPinTree_get?_new hn hfresh hd hc
  have hnewph : (groupNode device pin.attr ph [pin.pin]).phandle = ph.toNat :=
    phandle_groupNode device pin.attr ph [pin.pin]
  refine ⟨fun g hg => ?_, fun g hg j n hj he => ?_, fun j n hj => ?_⟩
  · rcases List.mem_append.mp hg with hg | hg
    · exact h.pos g hg
    · rw [List.mem_singleton] at hg
      subst hg
      exact hph.pos
  · rcases List.mem_append.mp hg with hg' | hg'
    · by_cases hjn : j = new
      · subst hjn
        rw [hget, Option.some.injEq] at hj
        subst hj
        rw [hnewph] at he
        obtain ⟨n, hgn, hgp⟩ := hgroups g hg'
        have := hph.lt g.id n hgn
        omega
      · obtain ⟨n', hn', he'⟩ := newPinTree_phandles hn hfresh hd hjn hj
        exact h.own g hg' j n' hn' (he'.trans he)
    · rw [List.mem_singleton] at hg'
      subst hg'
      by_contra hjn
      obtain ⟨n', hn', he'⟩ := newPinTree_phandles hn hfresh hd hjn hj
      have := hph.lt j n' hn'
      simp only at he
      omega
  · rw [List.length_append, List.length_singleton]
    by_cases hjn : j = new
    · subst hjn
      rw [hget, Option.some.injEq] at hj
      subst hj
      rw [hnewph]
      rcases hph.least with hone | ⟨i, n', hn', he⟩
      · omega
      · have := h.below i n' hn'
        omega
    · obtain ⟨n', hn', he'⟩ := newPinTree_phandles hn hfresh hd hjn hj
      have := h.below j n' hn'
      omega

end Steps

section Run

variable {T₀ : DeviceTree} {c d po : Nat} {pinctrlPath parentPath device : Bytes}

/-- What the callers of `fdt_add_pinctrl_group` see to: the parent is the device, and the names fit
the buffers. -/
structure Callable (T₀ : DeviceTree) (d : Nat) (parentPath device : Bytes) : Prop where
  resolve : T₀.resolve parentPath = some d
  parent_zero : 0 ∉ parentPath
  device_zero : 0 ∉ device
  device_atSign : atSign ∉ device
  device_length : device.length ≤ 34
  safe : AliasSafe parentPath d (T₀.lookup strAliases)

theorem runs_groupLoop (hr₀ : Rooted T₀) (hcd : T₀.Precedes c d)
    (hcall : Callable T₀ d parentPath device) (hpo : DeviceTree.offset T₀ c = some po)
    {gpios done : List Gpio} {groups : List Group} {w : World} {T : DeviceTree}
    (hg : Grouped T₀ c d device done groups T) (hw : Repr w.fdt T)
    (hroom : gpioRoom * gpios.length ≤ w.fdt.free.length) :
    Runs (groupLoop pinctrlPath parentPath device po gpios groups.length) w fun r w' =>
      r = 0 ∧ ∃ groups' T', Grouped T₀ c d device (done ++ gpios) groups' T' ∧
        (done.length + gpios.length ≤ 8 → Phandled groups T → Phandled groups' T') ∧
        Leaves w (gpioRoom * gpios.length) T' w' := by
  induction gpios generalizing done groups w T with
  | nil =>
    unfold groupLoop
    exact Runs.pure ⟨rfl, groups, T, by simpa using hg, fun _ h => h, hw, by simp⟩
  | cons pin gpios ih =>
    rw [List.length_cons] at hroom
    have hcd' := hg.precedes c d hcd
    have hpo' : DeviceTree.offset T c = some po := hg.offset.trans hpo
    have hres := hg.resolve _ _ hcall.safe hcall.resolve
    have hzn := zero_not_mem_attrName hcall.device_zero pin.attr_mem
    have hneg : errNotFound < 0 := by simp [errNotFound]
    have hnat : ∀ m : Nat, ¬((m : Int) < 0) := fun m => by omega
    have hchild := hg.child _ pin.attr_mem
    have hsum : done ++ pin :: gpios = (done ++ [pin]) ++ gpios := by simp
    have hlen : (done ++ [pin]).length + gpios.length = done.length + (gpios.length + 1) := by
      rw [List.length_append, List.length_singleton]
      omega
    have hmul : gpioRoom * (gpios.length + 1) = gpioRoom * gpios.length + 352 := Nat.mul_succ _ _
    rw [hmul] at hroom
    rw [List.length_cons, hmul]
    unfold groupLoop
    simp only [groupName_eq]
    cases hf : groups.find? fun g => g.attr == pin.attr with
    | none =>
      rw [hf, Option.map_none] at hchild
      obtain ⟨new, hfresh⟩ := exists_fresh T
      obtain ⟨nc, hnc⟩ := get?_of_mem hcd'.mem_left
      refine Runs.bind (runs_subnodeOffset_none hw hzn hpo' hchild ?_)
      rw [if_pos hneg]
      have hw₀ : Repr (w.call (.path pinctrlPath) (.subnodeOffset (attrName device pin.attr)) po).fdt
        T := hw
      have hlt := hg.length_le
      refine Runs.bind ((runs_newGroup hw₀ hnc hpo' hcd' hres hcall.parent_zero
        (by rw [hg.aliases]; exact hcall.safe) hcall.device_zero hcall.device_atSign
        hcall.device_length (by rw [groupName_eq]; exact hchild) hfresh
        (by simp only [World.call_fdt, Op.run, groupRoom]; omega) groups.length).mono ?_)
      rintro _ w₁ ⟨rfl, ph, T₁, hph, hT₁, ho₁, hl₁⟩
      rw [if_neg (hnat _)]
      have hg' := hg.new hcd hcall.device_atSign hf hfresh ph
      obtain ⟨n₁, hn₁⟩ := get?_of_mem (mem_of_offset ho₁)
      have hf₁ : w.fdt.free.length ≤ w₁.fdt.free.length + groupRoom := hl₁.2
      unfold groupRoom at hf₁
      refine Runs.bind (runs_appendPin hl₁.1 hn₁ ho₁ pin (by omega) fun w₂ hl₂ => ?_)
      rw [hT₁] at hl₂
      have hl₀ : Leaves w 352 _ w₂ := hl₁.trans hl₂
      have hf₂ := hl₀.2
      have := ih hg' hl₂.1 (by omega)
      rw [List.length_append, List.length_singleton] at this
      refine this.mono ?_
      rintro r w₃ ⟨hr, groups', T', hg₃, hp₃, hl₃⟩
      refine ⟨hr, groups', T', hsum ▸ hg₃, fun hle hp => hp₃ (hlen ▸ hle) ?_,
        Nat.add_comm _ _ ▸ hl₀.trans hl₃⟩
      refine hp.new hg.nodup hfresh hcd'.mem_left hcd'.mem_right (hph fun j n hn => ?_) pin
        fun g hgm => ⟨_, hg.group g hgm, phandle_groupNode _ _ _ _⟩
      have := hp.below j n hn
      omega
    | some g =>
      have hgm := List.mem_of_find?_eq_some hf
      have hga : g.attr = pin.attr := by simpa using List.find?_some hf
      rw [hf, Option.map_some] at hchild
      obtain ⟨o, ho⟩ := DeviceTree.offset_isSome (hg.between g hgm).1.mem_right
      refine Runs.bind (runs_subnodeOffset_some hw hzn hpo' hchild ho ?_)
      rw [if_neg (hnat _)]
      have hw₀ : Repr (w.call (.path pinctrlPath) (.subnodeOffset (attrName device pin.attr)) po).fdt
        T := hw
      have hal : T.lookup strAliases ≠ some g.id := fun e =>
        hg.fresh g hgm (walk_mem hr₀.root_mem (hg.aliases ▸ e))
      have hg' := hg.old hcd.mem_right hgm hga hal
      refine Runs.bind (runs_appendPin hw₀ (hg.group g hgm) ho pin
        (by simp only [World.call_fdt, Op.run]; omega) fun w₂ hl₂ => ?_)
      have hl₀ : Leaves w 352 _ w₂ := Leaves.mono hl₂ (by omega)
      have hf₂ := hl₀.2
      refine (ih hg' hl₂.1 (by omega)).mono ?_
      rintro r w₃ ⟨hr, groups', T', hg₃, hp₃, hl₃⟩
      exact ⟨hr, groups', T', hsum ▸ hg₃,
        fun hle hp => hp₃ (hlen ▸ hle) (hp.old hg.nodup g.id pin),
        Nat.add_comm _ _ ▸ hl₀.trans hl₃⟩

end Run

end Babelfish
