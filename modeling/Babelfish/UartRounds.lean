import Babelfish.Unguarded
import Babelfish.Groups

/-! What some rounds of `fdt_fixup_uarts` make of a tree: status and references in the devices, the
groups of all rounds below the controller, and nothing else. -/

namespace Babelfish

open Libfdt Bytes Forest DeviceTree

def uartName (i : Nat) : Bytes := catChar strUart (uartIdx i)

structure Round where
  index : Nat
  device : Nat
  gpios : List Gpio
  groups : List Group

def roundIds (rounds : List Round) : List Nat :=
  rounds.flatMap fun r => (r.groups.map Group.id).reverse

def wiredDevice (phandles : List UInt32) (n : DtNode) : DtNode :=
  deviceRefs phandles (n.setprop strStatus (strOkay ++ [0]))

def uartPaths : List Bytes := strPinctrlPath :: (List.range sunxiMaxUarts).map serialPath

/-- `T` is `T₀` after some rounds, the last one first. -/
structure Wired (T₀ : DeviceTree) (c : Nat) (rounds : List Round) (T : DeviceTree) : Prop where
  device_mem : ∀ r ∈ rounds, r.device ∈ T₀.ids
  fresh : ∀ r ∈ rounds, ∀ g ∈ r.groups, g.id ∉ T₀.ids
  mem : ∀ j, j ∈ T.ids ↔ j ∈ T₀.ids ∨ j ∈ roundIds rounds
  attrs : ∀ r ∈ rounds, r.groups.map Group.attr = (r.gpios.map Gpio.attr).eraseDups
  group : ∀ r ∈ rounds, ∀ g ∈ r.groups,
    T.get? g.id = some (groupNode (uartName r.index) g.attr g.phandle (pinsOf r.gpios g.attr))
  device : ∀ r ∈ rounds, ∃ phandles, T.get? r.device = (T₀.get? r.device).map (wiredDevice phandles)
  other : ∀ j ∈ T₀.ids, (∀ r ∈ rounds, j ≠ r.device) → T.get? j = T₀.get? j
  kids : ∀ j ∈ T₀.ids, T.kids j = if j = c then roundIds rounds ++ T₀.kids c else T₀.kids j
  groupKids : ∀ r ∈ rounds, ∀ g ∈ r.groups, T.kids g.id = []
  precedes : ∀ x y, T₀.Precedes x y → T.Precedes x y
  resolve : ∀ path ∈ uartPaths, ∀ x, T₀.resolve path = some x → T.resolve path = some x

theorem mem_roundIds {rounds : List Round} {j : Nat} :
    j ∈ roundIds rounds ↔ ∃ r ∈ rounds, ∃ g ∈ r.groups, j = g.id := by
  simp only [roundIds, List.mem_flatMap, List.mem_reverse, List.mem_map]
  exact ⟨fun ⟨r, hr, g, hg, he⟩ => ⟨r, hr, g, hg, he.symm⟩,
    fun ⟨r, hr, g, hg, he⟩ => ⟨r, hr, g, hg, he.symm⟩⟩

theorem name_wiredDevice (phandles : List UInt32) (n : DtNode) :
    (wiredDevice phandles n).name = n.name := name_deviceRefs _ _

theorem aliasSafe_uartPaths {path : Bytes} (h : path ∈ uartPaths) (d : Nat) (al : Option Nat) :
    AliasSafe path d al := by
  have hall : ∀ path ∈ uartPaths, path.head? = some slash ∨
      ¬strPinctrl <+: path.takeWhile (· ≠ slash) := by decide
  intro habs _
  exact (hall path h).resolve_left habs

theorem status_unseen : ∀ path ∈ uartPaths, path.head? = some slash ∨
    path.takeWhile (· ≠ slash) ≠ strStatus ∧ path.takeWhile (· ≠ slash) ≠ strBootargs := by
  decide

section

variable {T₀ T T' : DeviceTree} {c d i : Nat} {rounds : List Round} {gpios : List Gpio}
variable {groups : List Group}

theorem Wired.init (T₀ : DeviceTree) (c : Nat) : Wired T₀ c [] T₀ where
  device_mem := by simp
  fresh := by simp
  mem := by simp [roundIds]
  attrs := by simp
  group := by simp
  device := by simp
  other _ _ _ := rfl
  kids j _ := by
    by_cases h : j = c
    · rw [if_pos h, h]
      rfl
    · rw [if_neg h]
  groupKids := by simp
  precedes _ _ h := h
  resolve _ _ _ h := h

theorem resolve_setprop (hn : T.ids.Nodup) {path : Bytes} (hp : path ∈ uartPaths) {name : Bytes}
    (hname : name = strStatus ∨ name = strBootargs) (val : Bytes) (i : Nat) {x : Nat}
    (hx : T.resolve path = some x) :
    DeviceTree.resolve (T.modify i (DtNode.setprop name val)) path = some x := by
  refine resolve_modify hn (keepsName_setprop name val) (fun habs _ n _ _ => ?_) hx
  have hne := (status_unseen path hp).resolve_left habs
  obtain rfl | rfl := hname
  · exact DtNode.getprop_setprop_of_ne hne.1 _ _
  · exact DtNode.getprop_setprop_of_ne hne.2 _ _

theorem Wired.round (h : Wired T₀ c rounds T) (hn : T.ids.Nodup) (hc : c ∈ T₀.ids) (hd : d ∈ T₀.ids)
    (hnew : ∀ r ∈ rounds, d ≠ r.device)
    (hg : Grouped (T.modify d (DtNode.setprop strStatus (strOkay ++ [0]))) c d (uartName i) gpios
      groups T') : Wired T₀ c (⟨i, d, gpios, groups⟩ :: rounds) T' := by
  have hids : ∀ j, j ∈ ids (T.modify d (DtNode.setprop strStatus (strOkay ++ [0]))) ↔ j ∈ T.ids :=
    fun j => by rw [ids_modify]
  have hold : ∀ j ∈ T₀.ids, ∀ g ∈ groups, j ≠ g.id := fun j hj g hg' e =>
    hg.fresh g hg' ((hids _).mpr ((h.mem _).mpr (Or.inl (e ▸ hj))))
  have hmade : ∀ r ∈ rounds, ∀ g' ∈ r.groups, ∀ g ∈ groups, g'.id ≠ g.id := fun r hr g' hg' g hg'' e =>
    hg.fresh g hg'' ((hids _).mpr ((h.mem _).mpr (Or.inr (mem_roundIds.mpr ⟨r, hr, g', hg', e.symm⟩))))
  have hget : ∀ j, j ≠ d → (∀ g ∈ groups, j ≠ g.id) → T'.get? j = T.get? j := fun j hj hjg =>
    (hg.other j hj hjg).trans (get?_modify_of_ne hj hn _)
  have hids' : roundIds (⟨i, d, gpios, groups⟩ :: rounds) =
      (groups.map Group.id).reverse ++ roundIds rounds := rfl
  refine
    { device_mem := ?_
      fresh := ?_
      mem := fun j => ?_
      attrs := ?_
      group := ?_
      device := ?_
      other := fun j hj hjr => ?_
      kids := fun j hj => ?_
      groupKids := ?_
      precedes := fun x y hxy => hg.precedes x y (precedes_modify (h.precedes x y hxy) _ _)
      resolve := fun path hp x hx => ?_ }
  · exact List.forall_mem_cons.mpr ⟨hd, h.device_mem⟩
  · refine List.forall_mem_cons.mpr ⟨fun g hg' hm => ?_, h.fresh⟩
    exact hg.fresh g hg' ((hids _).mpr ((h.mem _).mpr (Or.inl hm)))
  · rw [hg.mem, hids, h.mem, hids', List.mem_append, List.mem_reverse, List.mem_map, or_assoc, or_comm
      (a := j ∈ roundIds rounds)]
    simp only [eq_comm]
  · exact List.forall_mem_cons.mpr ⟨hg.attrs, h.attrs⟩
  · refine List.forall_mem_cons.mpr ⟨hg.group, fun r hr g' hg' => ?_⟩
    have hne : g'.id ≠ d := fun e => h.fresh r hr g' hg' (e ▸ hd)
    rw [hget _ hne (hmade r hr g' hg'), h.group r hr g' hg']
  · refine List.forall_mem_cons.mpr ⟨⟨groups.map Group.phandle, ?_⟩, fun r hr => ?_⟩
    · rw [hg.deviceNode, get?_modify_self, h.other d hd hnew, Option.map_map]
      rfl
    · obtain ⟨phandles, hph⟩ := h.device r hr
      refine ⟨phandles, ?_⟩
      rw [hget _ (hnew r hr).symm (hold _ (h.device_mem r hr)), hph]
  · obtain ⟨hjd, hjr⟩ := List.forall_mem_cons.mp hjr
    rw [hget j hjd (hold j hj), h.other j hj hjr]
  · rw [hg.kids j (hold j hj), kids_modify hn, kids_modify hn]
    by_cases hjc : j = c
    · rw [if_pos hjc, if_pos hjc, h.kids c hc, if_pos rfl, hids', List.append_assoc]
    · rw [if_neg hjc, if_neg hjc, h.kids j hj, if_neg hjc]
  · refine List.forall_mem_cons.mpr ⟨hg.groupKids, fun r hr g' hg' => ?_⟩
    have hne : g'.id ≠ c := fun e => h.fresh r hr g' hg' (e ▸ hc)
    rw [hg.kids _ (hmade r hr g' hg'), if_neg hne, kids_modify hn, h.groupKids r hr g' hg']
  · exact hg.resolve path x (aliasSafe_uartPaths hp _ _) (resolve_setprop hn hp (Or.inl rfl) _ _
      (h.resolve path hp x hx))

theorem Wired.name (h : Wired T₀ c rounds T) {j : Nat} {n : DtNode} (hj : j ∈ T₀.ids)
    (hn : T.get? j = some n) : ∃ n₀, T₀.get? j = some n₀ ∧ n₀.name = n.name := by
  by_cases hr : ∀ r ∈ rounds, j ≠ r.device
  · exact ⟨n, (h.other j hj hr).symm.trans hn, rfl⟩
  · push Not at hr
    obtain ⟨r, hr, rfl⟩ := hr
    obtain ⟨phandles, hph⟩ := h.device r hr
    obtain ⟨n₀, hn₀, rfl⟩ := Option.map_eq_some_iff.mp (hph.symm.trans hn)
    exact ⟨n₀, hn₀, (name_wiredDevice _ _).symm⟩

end

def groupPrefix (i : Nat) : Bytes := uartName i ++ strPinsBabelfish

theorem uartName_facts : ∀ i < sunxiMaxUarts, 0 ∉ uartName i ∧ atSign ∉ uartName i ∧
    (uartName i).length = 5 := by decide

theorem uartName_inj : ∀ i < sunxiMaxUarts, ∀ j < sunxiMaxUarts, uartName i = uartName j → i = j := by
  decide

theorem groupPrefix_attrName (i : Nat) (a : PinAttr) : groupPrefix i <+: attrName (uartName i) a := by
  rw [attrName_eq]
  exact List.prefix_append _ _

/-- A name starts with the prefix of one UART at most. -/
theorem groupPrefix_inj {i j : Nat} (hi : i < sunxiMaxUarts) (hj : j < sunxiMaxUarts) {name : Bytes}
    (h : groupPrefix i <+: name) (h' : groupPrefix j <+: name) : i = j := by
  have hlen : (groupPrefix i).length = (groupPrefix j).length := by
    rw [groupPrefix, groupPrefix, List.length_append, List.length_append, (uartName_facts i hi).2.2,
      (uartName_facts j hj).2.2]
  have hpre := List.prefix_of_prefix_length_le h h' (Nat.le_of_eq hlen)
  exact uartName_inj i hi j hj (List.append_cancel_right (hpre.eq_of_length hlen))

def Script.Used (script : Script) (i : Nat) : Prop := script.single (uartPara i) strUartUsed = some 1

instance (script : Script) (i : Nat) : Decidable (script.Used i) := by
  unfold Script.Used
  infer_instance

/-- The controller is in front of the devices of the enabled UARTs, no two have one device, and no
group has been made for any UART. -/
structure Wirable (script : Script) (T₀ : DeviceTree) (c : Nat) : Prop where
  ctrl : T₀.resolve strPinctrlPath = some c
  serial : ∀ i < sunxiMaxUarts, script.Used i →
    ∃ d, T₀.resolve (serialPath i) = some d ∧ T₀.Precedes c d
  apart : ∀ i < sunxiMaxUarts, ∀ j < sunxiMaxUarts, script.Used i → script.Used j →
    T₀.resolve (serialPath i) = T₀.resolve (serialPath j) → i = j
  clean : ∀ k ∈ T₀.kids c, ∀ n, T₀.get? k = some n → ∀ i < sunxiMaxUarts, ¬groupPrefix i <+: n.name

/-- The round is the one that the script asks for. -/
structure Round.For (script : Script) (T₀ : DeviceTree) (r : Round) : Prop where
  lt : r.index < sunxiMaxUarts
  used : script.Used r.index
  device : T₀.resolve (serialPath r.index) = some r.device
  pins : ∃ type ∈ script.single (uartPara r.index) strUartType,
    ∃ pins ∈ script.pins (uartPara r.index) (uartKeys type), r.gpios = pins.map Script.Pin.gpio

section

variable {T₀ T : DeviceTree} {c i : Nat} {rounds : List Round} {script : Script}

theorem Wired.clean (h : Wired T₀ c rounds T) (hn₀ : T₀.ids.Nodup) (hu : Wirable script T₀ c)
    (hi : i < sunxiMaxUarts) {k : Nat} (hk : k ∈ T₀.kids c) {n : DtNode} (hget : T.get? k = some n) :
    ¬groupPrefix i <+: n.name := by
  obtain ⟨n₁, hn₁⟩ := get?_of_mem_kids hn₀ hk
  obtain ⟨n₀, hget₀, hname⟩ := h.name (mem_of_get? hn₁) hget
  rw [← hname]
  exact hu.clean k hk n₀ hget₀ i hi

theorem Wired.noGroup (h : Wired T₀ c rounds T) (hn : T.ids.Nodup) (hn₀ : T₀.ids.Nodup)
    (hu : Wirable script T₀ c) (hc : c ∈ T₀.ids) (hi : i < sunxiMaxUarts)
    (hr : ∀ r ∈ rounds, r.index < sunxiMaxUarts ∧ r.index ≠ i) (a : PinAttr) :
    T.childOf c (DtNode.isNamed (attrName (uartName i) a)) = none := by
  refine childOf_eq_none hn fun j hj n hget => ?_
  by_contra hnamed
  rw [Bool.not_eq_false] at hnamed
  have hpre : groupPrefix i <+: n.name :=
    (groupPrefix_attrName i a).trans (DtNode.isPrefix_of_nameMatches hnamed)
  rw [h.kids c hc, if_pos rfl, List.mem_append] at hj
  obtain hj | hj := hj
  · obtain ⟨r, hrm, g, hg, rfl⟩ := mem_roundIds.mp hj
    obtain rfl := Option.some.inj ((h.group r hrm g hg).symm.trans hget)
    exact (hr r hrm).2 (groupPrefix_inj (hr r hrm).1 hi (groupPrefix_attrName _ _) hpre)
  · exact h.clean hn₀ hu hi hj hget hpre

theorem length_pins {sec : Bytes} {keys : List Bytes} {pins : List Script.Pin}
    (h : script.pins sec keys = some pins) : pins.length = keys.length := by
  unfold Script.pins at h
  induction keys generalizing pins with
  | nil =>
    obtain rfl := Option.some.inj h
    rfl
  | cons key keys ih =>
    rw [List.mapM_cons] at h
    obtain ⟨p, -, h⟩ := Option.bind_eq_some_iff.mp h
    obtain ⟨ps, hps, h⟩ := Option.bind_eq_some_iff.mp h
    obtain rfl := Option.some.inj h
    rw [List.length_cons, List.length_cons, ih hps]

def uartRoom : Nat := propRoom strStatus (strOkay ++ [0]).length + gpioRoom * 8

end

end Babelfish
