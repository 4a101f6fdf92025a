import Babelfish.Libfdt.Flatten
import Babelfish.Partition

/-! `fdt_add_pinctrl_group` partitions the pins of a device by their normalised pull and drive. -/

namespace Babelfish

open Libfdt Bytes Forest DeviceTree Distinct

structure PinGroup (device : Bytes) (gpios : List Gpio) (g : Group) (n : DtNode) : Prop where
  name : n.name = attrName device g.attr
  pull : n.getprop strPull = some (be32 g.attr.1.toNat)
  drive : n.getprop strDrive = some (be32 g.attr.2.toNat)
  function : n.getprop strFunction = some (device ++ [0])
  pins : (n.getprop strPins).map strings = some (pinsOf gpios g.attr)
  phandle : n.phandle = g.phandle.toNat

theorem pinGroup_groupNode (device : Bytes) (gpios : List Gpio) (g : Group) :
    PinGroup device gpios g (groupNode device g.attr g.phandle (pinsOf gpios g.attr)) where
  name := rfl
  pull := by
    have h : (strPull == strPins) = false ∧ (strPull == strLinuxPhandle) = false ∧
      (strPull == strPhandle) = false ∧ (strPull == strFunction) = false := by decide
    simp [groupNode, groupProps, DtNode.getprop, List.lookup_cons, h]
  drive := by
    have h : (strDrive == strPins) = false ∧ (strDrive == strLinuxPhandle) = false ∧
      (strDrive == strPhandle) = false ∧ (strDrive == strFunction) = false ∧
      (strDrive == strPull) = false := by decide
    simp [groupNode, groupProps, DtNode.getprop, List.lookup_cons, h]
  function := by
    have h : (strFunction == strPins) = false ∧ (strFunction == strLinuxPhandle) = false ∧
      (strFunction == strPhandle) = false := by decide
    simp [groupNode, groupProps, DtNode.getprop, List.lookup_cons, h]
  pins := by
    have h : (groupNode device g.attr g.phandle (pinsOf gpios g.attr)).getprop strPins =
        some (pinsValue (pinsOf gpios g.attr)) := by
      simp [groupNode, DtNode.getprop]
    rw [h, Option.map_some, pinsValue, strings_flatMap fun s hs => ?_]
    obtain ⟨x, -, rfl⟩ := List.mem_map.mp hs
    exact zero_not_mem_pinName x.port x.portNum
  phandle := phandle_groupNode _ _ _ _

/-- The device refers to the groups in the order of their numbers, and to nothing else. -/
structure RefersTo (groups : List Group) (n : DtNode) : Prop where
  refs : ∀ k (hk : k < groups.length),
    n.getprop (pinctrlProp k) = some (be32 groups[k].phandle.toNat)
  only : ∀ name, strPinctrl <+: name → name ≠ strPinctrlNames → n.getprop name ≠ none →
    ∃ k < groups.length, name = pinctrlProp k

/-- The new children of `c` are the classes of the pins, by first occurrence, the device refers to them,
and nothing else is changed. -/
structure Partitioned (T₀ T : DeviceTree) (c d : Nat) (device : Bytes) (gpios : List Gpio)
    (groups : List Group) : Prop where
  attrs : groups.map Group.attr = (gpios.map Gpio.attr).eraseDups
  kids : T.kids c = (groups.map Group.id).reverse ++ T₀.kids c
  distinct : (groups.map Group.id).Nodup
  fresh : ∀ g ∈ groups, g.id ∉ T₀.ids
  group : ∀ g ∈ groups, ∃ n, T.get? g.id = some n ∧ PinGroup device gpios g n
  listed : (groups.flatMap fun g => pinsOf gpios g.attr).Perm (gpios.map Gpio.pin)
  phandle_pos : ∀ g ∈ groups, 0 < g.phandle.toNat
  phandle_own : ∀ g ∈ groups, ∀ j n, T.get? j = some n → n.phandle = g.phandle.toNat → j = g.id
  deviceNode : ∃ n, T.get? d = some n ∧ RefersTo groups n
  deviceRest : ∀ n₀ n, T₀.get? d = some n₀ → T.get? d = some n →
    n.name = n₀.name ∧ ∀ name, ¬strPinctrl <+: name → n.getprop name = n₀.getprop name
  others : ∀ j ∈ T₀.ids, j ≠ d → T.get? j = T₀.get? j
  kidsOthers : ∀ j ∈ T₀.ids, j ≠ c → T.kids j = T₀.kids j
  kidsGroup : ∀ g ∈ groups, T.kids g.id = []
  mem : ∀ j, j ∈ T.ids ↔ j ∈ T₀.ids ∨ ∃ g ∈ groups, j = g.id

theorem pinsOf_perm {gpios : List Gpio} {groups : List Group}
    (h : groups.map Group.attr = (gpios.map Gpio.attr).eraseDups) :
    (groups.flatMap fun g => pinsOf gpios g.attr).Perm (gpios.map Gpio.pin) := by
  have hflat : (groups.flatMap fun g => pinsOf gpios g.attr) =
      ((gpios.map Gpio.attr).eraseDups.flatMap fun a => gpios.filter fun x => x.attr == a).map
        Gpio.pin := by
    rw [← h, List.flatMap_map, List.map_flatMap]
    rfl
  rw [hflat]
  exact (eraseDups_flatMap_perm Gpio.attr gpios).map Gpio.pin

section

variable {T₀ T : DeviceTree} {c d : Nat} {pinctrlPath parentPath device : Bytes}
variable {gpios : List Gpio} {groups : List Group}

theorem Grouped.partitioned (h : Grouped T₀ c d device gpios groups T) (hcd : T₀.Precedes c d)
    (hlen : gpios.length ≤ 8)
    (hnone : ∀ n, T₀.get? d = some n → ∀ name, strPinctrl <+: name → n.getprop name = none)
    (hph : Phandled groups T) : Partitioned T₀ T c d device gpios groups where
  attrs := h.attrs
  kids := by
    rw [h.kids c fun g hg e => h.fresh g hg (e ▸ hcd.mem_left), if_pos rfl]
  distinct := h.distinct
  fresh := h.fresh
  group g hg := ⟨_, h.group g hg, pinGroup_groupNode device gpios g⟩
  listed := pinsOf_perm h.attrs
  phandle_pos := hph.pos
  phandle_own := hph.own
  deviceNode := by
    obtain ⟨n, hn⟩ := get?_of_mem hcd.mem_right
    have hle := h.length_le
    have hlen : (groups.map Group.phandle).length ≤ 208 := by
      rw [List.length_map]
      omega
    obtain ⟨hrefs, -, hrest⟩ := getprop_deviceRefs (hnone n hn) hlen
    refine ⟨_, by rw [h.deviceNode, hn]; rfl, fun k hk => ?_, fun name hp hne hget => ?_⟩
    · rw [hrefs k (by rwa [List.length_map]), List.getElem_map]
    · by_contra hno
      refine hget (hrest name hp hne fun k hk e => hno ⟨k, ?_, e⟩)
      rwa [List.length_map] at hk
  deviceRest n₀ n hn₀ hn := by
    rw [h.deviceNode, hn₀] at hn
    obtain rfl := Option.some.inj hn
    exact ⟨name_deviceRefs _ n₀, fun name hp => getprop_deviceRefs_of_clean hp _ n₀⟩
  others j hj hjd := h.other j hjd fun g hg e => h.fresh g hg (e ▸ hj)
  kidsOthers j hj hjc := by rw [h.kids j fun g hg e => h.fresh g hg (e ▸ hj), if_neg hjc]
  kidsGroup := h.groupKids
  mem := h.mem

theorem aliasSafe_of_unreferred {path : Bytes} {x : Nat} (hres : T₀.resolve path = some x)
    (hnone : ∀ n, T₀.get? d = some n → ∀ name, strPinctrl <+: name → n.getprop name = none) :
    AliasSafe path d (T₀.lookup strAliases) := by
  intro habs hal hp
  rw [resolve, if_neg habs] at hres
  obtain ⟨i, hi, -⟩ := Option.bind_eq_some_iff.mp hres
  obtain ⟨p, ha, -⟩ := Option.bind_eq_some_iff.mp hi
  unfold aliasPath at ha
  rw [hal, Option.bind_some] at ha
  cases hd : T₀.get? d with
  | none => simp [hd] at ha
  | some n =>
    have hget := hnone n hd _ hp
    rw [hd] at ha
    simp only [hget, reduceCtorEq] at ha

theorem runs_addPinctrlGroup {w : World} (hw : Repr w.fdt T₀) (hzc : 0 ∉ pinctrlPath)
    (hc : T₀.resolve pinctrlPath = some c) (hcall : Callable T₀ d parentPath device)
    (h : Ungrouped T₀ c d device) (hroom : gpioRoom * gpios.length ≤ w.fdt.free.length) :
    Runs (fdtAddPinctrlGroup pinctrlPath parentPath gpios device) w fun r w' =>
      r = 0 ∧ ∃ groups T, Grouped T₀ c d device gpios groups T ∧
        (gpios.length ≤ 8 → PhandlesBelow 2147483639 T₀ → Phandled groups T) ∧
        Leaves w (gpioRoom * gpios.length) T w' := by
  obtain ⟨po, hpo⟩ := DeviceTree.offset_isSome h.ctrl_device.mem_left
  have hnat : ¬((po : Int) < 0) := by omega
  unfold fdtAddPinctrlGroup
  refine Runs.bind (runs_pathOffset hw hzc hc hpo ?_)
  rw [if_neg hnat]
  have hw₀ : Repr (w.call .root (.pathOffset pinctrlPath) 0).fdt T₀ := hw
  refine (runs_groupLoop hw.rooted h.ctrl_device hcall hpo (Grouped.init h hw.nodup hw.rooted) hw₀
    hroom).mono ?_
  rintro r w' ⟨hr, groups, T, hg, hph, hl⟩
  exact ⟨hr, groups, T, hg, fun hlen hb => hph (by simpa using hlen) (Phandled.init hb), hl⟩

/-- For the names that the callers pass, the pins are partitioned below the node that the first path leads
to and in the node that the second leads to, before as after. -/
theorem fdtAddPinctrlGroup_partition {w : World} (hw : Repr w.fdt T₀) (hzc : 0 ∉ pinctrlPath)
    (hc : T₀.resolve pinctrlPath = some c) (hzd : 0 ∉ parentPath)
    (hd : T₀.resolve parentPath = some d) (hdev : 0 ∉ device ∧ atSign ∉ device ∧ device.length ≤ 34)
    (h : Ungrouped T₀ c d device) (hph : PhandlesBelow 2147483639 T₀)
    (hnone : ∀ n, T₀.get? d = some n → ∀ name, strPinctrl <+: name → n.getprop name = none)
    (hlen : gpios.length ≤ 8) (hroom : gpioRoom * gpios.length ≤ w.fdt.free.length) :
    Runs (fdtAddPinctrlGroup pinctrlPath parentPath gpios device) w fun r w' =>
      r = 0 ∧ ∃ groups T, Repr w'.fdt T ∧ T.resolve pinctrlPath = some c ∧
        T.resolve parentPath = some d ∧ Partitioned T₀ T c d device gpios groups := by
  have hcall : Callable T₀ d parentPath device :=
    ⟨hd, hzd, hdev.1, hdev.2.1, hdev.2.2, aliasSafe_of_unreferred hd hnone⟩
  refine (runs_addPinctrlGroup hw hzc hc hcall h hroom).mono ?_
  rintro r w' ⟨hr, groups, T, hg, hphs, hl⟩
  exact ⟨hr, groups, T, hl.1, hg.resolve _ _ (aliasSafe_of_unreferred hc hnone) hc,
    hg.resolve _ _ hcall.safe hd, hg.partitioned h.ctrl_device hlen hnone (hphs hlen hph)⟩

end

def boardTree : DeviceTree :=
  .node 0 ⟨[], []⟩
    (.node 1 ⟨Bytes.ofString "pinctrl", []⟩ .nil (.node 2 ⟨Bytes.ofString "serial", []⟩ .nil .nil))
    .nil

theorem boardTree_repr : Repr (boardTree.blob 704) boardTree :=
  DeviceTree.repr_blob (by decide) (by decide) ⟨0, _, _, rfl⟩ (by decide)

def boardGpios : List Gpio := [⟨2, 22, 2, 1⟩, ⟨2, 23, 2, 1⟩]

theorem boardTree_ungrouped : Ungrouped boardTree 1 2 (Bytes.ofString "uart0") where
  ctrl_device := by
    unfold Precedes
    decide
  noGroup := forall_pinAttrs (by decide)

theorem boardTree_phandles : PhandlesBelow 2147483639 boardTree := fun j n hn => by
  have hj := mem_of_get? hn
  rcases (by simpa [boardTree, ids] using hj : j = 0 ∨ j = 1 ∨ j = 2) with rfl | rfl | rfl <;>
    · obtain rfl := Option.some.inj hn
      decide

theorem fdtAddPinctrlGroup_partition_board :
    Runs (fdtAddPinctrlGroup (Bytes.ofString "/pinctrl") (Bytes.ofString "/serial") boardGpios
      (Bytes.ofString "uart0")) ⟨boardTree.blob 704, []⟩ fun r w' =>
      r = 0 ∧ ∃ groups T, Repr w'.fdt T ∧ T.resolve (Bytes.ofString "/pinctrl") = some 1 ∧
        T.resolve (Bytes.ofString "/serial") = some 2 ∧
        Partitioned boardTree T 1 2 (Bytes.ofString "uart0") boardGpios groups :=
  fdtAddPinctrlGroup_partition boardTree_repr (by decide) (by decide) (by decide) (by decide)
    (by decide) boardTree_ungrouped boardTree_phandles
    (fun n hn name _ => by obtain rfl := Option.some.inj hn; rfl) (by decide)
    (Nat.le_of_eq List.length_replicate.symm)

def nestedTree : DeviceTree :=
  .node 0 ⟨[], []⟩ (.node 1 ⟨Bytes.ofString "pinctrl", []⟩
    (.node 2 ⟨Bytes.ofString "x@1", []⟩ .nil .nil) .nil) .nil

/-- With `@` in the name for the device its path leads to the new group, and the device gets no
reference. -/
theorem nestedTree_unreferred :
    (Repr (nestedTree.blob 352) nestedTree ∧ Ungrouped nestedTree 1 2 (Bytes.ofString "x@2") ∧
      nestedTree.resolve (Bytes.ofString "/pinctrl") = some 1 ∧
      nestedTree.resolve (Bytes.ofString "/pinctrl/x") = some 2 ∧
      fdtPathOffset (nestedTree.blob 352) (Bytes.ofString "/pinctrl/x") = 20) ∧
    Runs (fdtAddPinctrlGroup (Bytes.ofString "/pinctrl") (Bytes.ofString "/pinctrl/x") [⟨2, 22, 2, 1⟩]
      (Bytes.ofString "x@2")) ⟨nestedTree.blob 352, []⟩ fun r w' =>
      r = 0 ∧ fdtSubnodeOffset w'.fdt 8 (Bytes.ofString "x@1") = 196 ∧
        (fdtGetprop w'.fdt 196 (pinctrlProp 0)).1 = none ∧
        (fdtGetprop w'.fdt (fdtPathOffset w'.fdt (Bytes.ofString "/pinctrl/x")) (pinctrlProp 0)).1 ≠
          none := by
  refine ⟨⟨DeviceTree.repr_blob (by decide) (by decide) ⟨0, _, _, rfl⟩ (by decide), ⟨?_,
    forall_pinAttrs (by decide)⟩, by decide, by decide, by decide⟩, by decide +kernel⟩
  unfold Precedes
  decide

end Babelfish
