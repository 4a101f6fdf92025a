import Babelfish.Bootargs
import Babelfish.UartLoop

/-! `fdt_fixup_uarts` from the tree it is given to the tree it leaves. -/

namespace Babelfish

open Libfdt Bytes Forest DeviceTree

def listedPins (T : DeviceTree) (i k : Nat) : List Bytes :=
  match T.get? k with
  | some n => if groupPrefix i <+: n.name then ((n.getprop strPins).map strings).getD [] else []
  | none => []

def groupPins (T : DeviceTree) (c i : Nat) : List Bytes := (T.kids c).flatMap (listedPins T i)

/-- A node that may change: `/chosen` or the device of an enabled UART. -/
def Fixable (script : Script) (T : DeviceTree) (j : Nat) : Prop :=
  T.lookup strChosenPath = some j ∨
    ∃ i < sunxiMaxUarts, script.Used i ∧ T.resolve (serialPath i) = some j

/-- A new child `k` of `j`: a group of an enabled UART below the controller, or `/chosen`. -/
inductive NewChild (script : Script) (c : Nat) (T T' : DeviceTree) : Nat → Nat → Prop
  | group {i k : Nat} {n : DtNode} : i < sunxiMaxUarts → script.Used i → T'.get? k = some n →
    groupPrefix i <+: n.name → NewChild script c T T' c k
  | chosen {k : Nat} {n : DtNode} : T.lookup strChosenPath = none → T'.get? k = some n →
    n.name = strChosen → NewChild script c T T' T.root k

/-- What the fixup makes of a tree `T` with the controller `c`. -/
structure UartsFixed (script : Script) (c : Nat) (T T' : DeviceTree) : Prop where
  status : ∀ i < sunxiMaxUarts, script.Used i → ∀ d, T.resolve (serialPath i) = some d →
    T'.resolve (serialPath i) = some d ∧
      ∃ n, T'.get? d = some n ∧ n.getprop strStatus = some (strOkay ++ [0])
  pins : ∀ i < sunxiMaxUarts, script.Used i → ∃ type ∈ script.single (uartPara i) strUartType,
    ∃ pins ∈ script.pins (uartPara i) (uartKeys type),
      (groupPins T' c i).Perm (pins.map fun p => pinName p.port p.portNum)
  unused : ∀ i < sunxiMaxUarts, ¬script.Used i → ∀ j, T.resolve (serialPath i) = some j →
    ¬Fixable script T j → T'.resolve (serialPath i) = some j ∧ T'.get? j = T.get? j
  other : ∀ j ∈ T.ids, ¬Fixable script T j → T'.get? j = T.get? j
  kids : ∀ j ∈ T.ids, ∃ new, T'.kids j = new ++ T.kids j ∧
    ∀ k ∈ new, k ∉ T.ids ∧ NewChild script c T T' j k
  made : ∀ k ∈ T'.ids, k ∉ T.ids → T'.kids k = [] ∧ ∃ j ∈ T.ids, k ∈ T'.kids j

section

variable {T T' : DeviceTree} {c : Nat} {script : Script}

theorem Appended.get? (h : Appended T T') (hn : T.ids.Nodup) {j : Nat} (hj : j ∈ T.ids)
    (hne : T.lookup strChosenPath ≠ some j) : T'.get? j = T.get? j := by
  cases h with
  | @there id val hc =>
    have hji : j ≠ id := fun e => hne (e ▸ hc)
    exact get?_modify_of_ne hji hn _
  | @made new val hc hfresh =>
    have hjn : j ≠ new := fun e => hfresh (e ▸ hj)
    rw [get?_modify_of_ne hjn (nodup_addFirst hn hfresh _), get?_addFirst_of_ne hjn hn]

theorem Appended.resolve (h : Appended T T') (hn : T.ids.Nodup) (hr : T.Rooted) {path : Bytes}
    (hp : path ∈ uartPaths) {x : Nat} (hx : T.resolve path = some x) : T'.resolve path = some x := by
  cases h with
  | there val hc => exact resolve_setprop hn hp (Or.inr rfl) val _ hx
  | made val hc hfresh =>
    have hnone : T.childOf T.root (DtNode.isNamed strChosen) = none :=
      (lookup_eq_childOf pathComponents_chosen).symm.trans hc
    exact resolve_setprop (nodup_addFirst hn hfresh _) hp (Or.inr rfl) val _
      (resolve_addFirst hr hn hfresh (by decide) hnone hx)

theorem Appended.precedes (h : Appended T T') (hn : T.ids.Nodup) {x y : Nat}
    (hxy : T.Precedes x y) : T'.Precedes x y := by
  cases h with
  | there val hc => exact precedes_modify hxy _ _
  | made val hc hfresh => exact precedes_modify (precedes_addFirst hn hxy _ _ _) _ _

theorem strChosen_clean : ∀ i < sunxiMaxUarts, ¬groupPrefix i <+: strChosen := by decide

theorem Appended.wirable (h : Appended T T') (hf : Frame T T') (hn : T.ids.Nodup) (hr : T.Rooted)
    (hc : c ∈ T.ids) (hu : Wirable script T c) : Wirable script T' c where
  ctrl := h.resolve hn hr pinctrlPath_mem hu.ctrl
  serial i hi hused := by
    obtain ⟨d, hd, hcd⟩ := hu.serial i hi hused
    exact ⟨d, h.resolve hn hr (serialPath_mem hi) hd, h.precedes hn hcd⟩
  apart i hi j hj hui huj he := by
    obtain ⟨d, hd, -⟩ := hu.serial i hi hui
    obtain ⟨d', hd', -⟩ := hu.serial j hj huj
    rw [h.resolve hn hr (serialPath_mem hi) hd, h.resolve hn hr (serialPath_mem hj) hd'] at he
    exact hu.apart i hi j hj hui huj (hd.trans (he.trans hd'.symm))
  clean k hk n hget i hi := by
    by_cases hold : k ∈ T.ids
    · obtain ⟨n₀, hn₀⟩ := get?_of_mem hold
      obtain ⟨n', hn', hname, -⟩ := hf.kept k n₀ hn₀
      obtain rfl := Option.some.inj (hn'.symm.trans hget)
      rw [hname]
      refine hu.clean k ?_ n₀ hn₀ i hi
      rw [hf.kids c hc] at hk
      split at hk
      · rename_i hroot
        obtain hk | hk := List.mem_append.mp hk
        · exact absurd hold (hf.fresh hroot.2 k (Option.mem_toList.mp hk))
        · exact hk
      · exact hk
    · rw [(hf.made k n hold hget).1]
      exact strChosen_clean i hi

end

section

variable {T₀ T : DeviceTree} {c : Nat} {rounds : List Round} {script : Script}

theorem listedPins_group (h : Wired T₀ c rounds T) {r : Round} (hr : r ∈ rounds) {g : Group}
    (hg : g ∈ r.groups) {i : Nat} (hi : i < sunxiMaxUarts) (hlt : r.index < sunxiMaxUarts) :
    listedPins T i g.id = if r.index = i then pinsOf r.gpios g.attr else [] := by
  unfold listedPins
  rw [h.group r hr g hg]
  have hpins := (pinGroup_groupNode (uartName r.index) r.gpios g).pins
  by_cases he : r.index = i
  · subst he
    simp only [if_pos, hpins, Option.getD_some]
    exact if_pos (groupPrefix_attrName _ _)
  · rw [if_neg he]
    exact if_neg fun hp => he (groupPrefix_inj hlt hi (groupPrefix_attrName _ _) hp)

theorem Rounds.groupPins_perm (h : Rounds script T₀ c rounds T) (hu : Wirable script T₀ c)
    (hn₀ : T₀.ids.Nodup) (hc : c ∈ T₀.ids) (hnodup : (rounds.map Round.index).Nodup) {r : Round}
    (hr : r ∈ rounds) : (groupPins T c r.index).Perm (r.gpios.map Gpio.pin) := by
  have hlt := (h.asked r hr).lt
  have hold : (T₀.kids c).flatMap (listedPins T r.index) = [] := by
    refine List.flatMap_eq_nil_iff.mpr fun k hk => ?_
    unfold listedPins
    split
    · rename_i n hget
      exact if_neg (h.wired.clean hn₀ hu hlt hk hget)
    · rfl
  have hthis : (r.groups.map Group.id).flatMap (listedPins T r.index) =
      r.groups.flatMap fun g => pinsOf r.gpios g.attr := by
    rw [List.flatMap_map]
    refine List.flatMap_congr fun g hg => ?_
    rw [listedPins_group h.wired hr hg hlt hlt, if_pos rfl]
  have hothers : ∀ r' ∈ rounds, r'.index ≠ r.index →
      ((r'.groups.map Group.id).reverse).flatMap (listedPins T r.index) = [] := fun r' hr' hne => by
    refine List.flatMap_eq_nil_iff.mpr fun k hk => ?_
    obtain ⟨g, hg, rfl⟩ := List.mem_map.mp (List.mem_reverse.mp hk)
    rw [listedPins_group h.wired hr' hg hlt (h.asked r' hr').lt, if_neg hne]
  unfold groupPins
  rw [h.wired.kids c hc, if_pos rfl, List.flatMap_append, hold, List.append_nil, roundIds,
    List.flatMap_assoc, Distinct.flatMap_of_unique hnodup hr hothers]
  refine ((List.reverse_perm _).flatMap_right _).trans ?_
  rw [hthis]
  exact pinsOf_perm (h.wired.attrs r hr)

theorem status_wiredDevice (phandles : List UInt32) (n : DtNode) :
    (wiredDevice phandles n).getprop strStatus = some (strOkay ++ [0]) := by
  unfold wiredDevice
  rw [getprop_deviceRefs_of_clean (by decide), DtNode.getprop_setprop_self]

theorem exists_round {i : Nat}
    (hindex : rounds.map Round.index = ((List.range sunxiMaxUarts).filter script.Used).reverse)
    (hi : i < sunxiMaxUarts) (hused : script.Used i) : ∃ r ∈ rounds, r.index = i := by
  have hm : i ∈ rounds.map Round.index := by
    rw [hindex, List.mem_reverse, List.mem_filter]
    exact ⟨List.mem_range.mpr hi, decide_eq_true hused⟩
  exact List.mem_map.mp hm

theorem nodup_index
    (hindex : rounds.map Round.index = ((List.range sunxiMaxUarts).filter script.Used).reverse) :
    (rounds.map Round.index).Nodup := by
  rw [hindex, List.nodup_reverse]
  exact List.nodup_range.filter _

variable {T' : DeviceTree}

theorem Appended.device (h : Appended T₀ T) (hn : T₀.ids.Nodup) (hr : T₀.Rooted)
    (hu : Wirable script T₀ c) {r : Round} (hfor : r.For script T) :
    T₀.resolve (serialPath r.index) = some r.device := by
  obtain ⟨d, hd, -⟩ := hu.serial r.index hfor.lt hfor.used
  have he := h.resolve hn hr (serialPath_mem hfor.lt) hd
  rw [hd, ← he, hfor.device]

theorem Rounds.other (h : Rounds script T c rounds T') (ha : Appended T₀ T) (hf : Frame T₀ T)
    (hn : T₀.ids.Nodup) (hr : T₀.Rooted) (hu : Wirable script T₀ c) {j : Nat} (hj : j ∈ T₀.ids)
    (hfix : ¬Fixable script T₀ j) : T'.get? j = T₀.get? j := by
  obtain ⟨hchosen, hdevice⟩ := not_or.mp hfix
  rw [h.wired.other j ((hf.mem j).mpr (Or.inl hj)) fun r hrm e => hdevice ?_, ha.get? hn hj hchosen]
  have hfor := h.asked r hrm
  exact ⟨r.index, hfor.lt, hfor.used, e ▸ ha.device hn hr hu hfor⟩

theorem Rounds.newChild (h : Rounds script T c rounds T') (hf : Frame T₀ T) {k : Nat}
    (hk : k ∈ roundIds rounds) : k ∉ T₀.ids ∧ NewChild script c T₀ T' c k := by
  obtain ⟨r, hr, g, hg, rfl⟩ := mem_roundIds.mp hk
  have hfor := h.asked r hr
  exact ⟨fun hm => h.wired.fresh r hr g hg ((hf.mem _).mpr (Or.inl hm)),
    .group hfor.lt hfor.used (h.wired.group r hr g hg) (groupPrefix_attrName _ _)⟩

theorem Rounds.newChosen (h : Rounds script T c rounds T') (hf : Frame T₀ T)
    (hnone : T₀.lookup strChosenPath = none) {k : Nat} (hk : T.lookup strChosenPath = some k) :
    k ∉ T₀.ids ∧ NewChild script c T₀ T' T₀.root k := by
  have hfresh := hf.fresh hnone k hk
  have hm : k ∈ T.ids := (hf.mem k).mpr (Or.inr hk)
  obtain ⟨n, hget⟩ := get?_of_mem ((h.wired.mem k).mpr (Or.inl hm))
  obtain ⟨n₀, hn₀, hname⟩ := h.wired.name hm hget
  exact ⟨hfresh, .chosen hnone hget (hname ▸ (hf.made k n₀ hfresh hn₀).1)⟩

theorem Rounds.kids (h : Rounds script T c rounds T') (hf : Frame T₀ T) {j : Nat}
    (hj : j ∈ T₀.ids) : ∃ new, T'.kids j = new ++ T₀.kids j ∧
      ∀ k ∈ new, k ∉ T₀.ids ∧ NewChild script c T₀ T' j k := by
  -- what the arguments bring
  obtain ⟨made, hmade, hnew⟩ : ∃ made, T.kids j = made ++ T₀.kids j ∧
      ∀ k ∈ made, k ∉ T₀.ids ∧ NewChild script c T₀ T' j k := by
    rw [hf.kids j hj]
    split
    · rename_i hroot
      obtain ⟨rfl, hnone⟩ := hroot
      exact ⟨_, rfl, fun k hk => h.newChosen hf hnone (Option.mem_toList.mp hk)⟩
    · exact ⟨[], rfl, by simp⟩
  have hjT : j ∈ T.ids := (hf.mem j).mpr (Or.inl hj)
  by_cases hjc : j = c
  · subst hjc
    refine ⟨roundIds rounds ++ made, ?_, fun k hk => ?_⟩
    · rw [h.wired.kids j hjT, if_pos rfl, hmade, List.append_assoc]
    · exact (List.mem_append.mp hk).elim (h.newChild hf) (hnew k)
  · refine ⟨made, ?_, hnew⟩
    rw [h.wired.kids j hjT, if_neg hjc, hmade]

theorem Rounds.made (h : Rounds script T c rounds T') (hf : Frame T₀ T) (hc : c ∈ T₀.ids) {k : Nat}
    (hk : k ∈ T'.ids) (hnew : k ∉ T₀.ids) : T'.kids k = [] ∧ ∃ j ∈ T₀.ids, k ∈ T'.kids j := by
  have hcT : c ∈ T.ids := (hf.mem c).mpr (Or.inl hc)
  obtain hkT | hk := (h.wired.mem k).mp hk
  · have hlook := ((hf.mem k).mp hkT).resolve_left hnew
    have hne : k ≠ c := fun e => hnew (e ▸ hc)
    have hnone : T₀.lookup strChosenPath = none := by
      cases hl : T₀.lookup strChosenPath with
      | none => rfl
      | some i =>
        obtain rfl := Option.some.inj ((hf.chosen i hl).symm.trans hlook)
        exact absurd (walk_mem hf.rooted₀.root_mem hl) hnew
    refine ⟨by rw [h.wired.kids k hkT, if_neg hne, hf.madeKids k hnew], T₀.root,
      hf.rooted₀.root_mem, ?_⟩
    have hroot : T₀.root ∈ T.ids := (hf.mem _).mpr (Or.inl hf.rooted₀.root_mem)
    have hkids : k ∈ T.kids T₀.root := by
      rw [hf.kids _ hf.rooted₀.root_mem, if_pos ⟨rfl, hnone⟩, hlook]
      exact List.mem_cons_self
    rw [h.wired.kids _ hroot]
    split
    · rename_i he
      exact List.mem_append_right _ (he ▸ hkids)
    · exact hkids
  · obtain ⟨r, hr, g, hg, rfl⟩ := mem_roundIds.mp hk
    refine ⟨h.wired.groupKids r hr g hg, c, hc, ?_⟩
    rw [h.wired.kids c hcT, if_pos rfl]
    exact List.mem_append_left _ hk

theorem Rounds.uartsFixed (h : Rounds script T c rounds T') (ha : Appended T₀ T) (hf : Frame T₀ T)
    (hn : T₀.ids.Nodup) (hr : T₀.Rooted) (hc : c ∈ T₀.ids) (hu : Wirable script T₀ c)
    (hmem : ∀ path j, T₀.resolve path = some j → j ∈ T₀.ids)
    (hindex : rounds.map Round.index = ((List.range sunxiMaxUarts).filter script.Used).reverse) :
    UartsFixed script c T₀ T' where
  status i hi hused d hd := by
    obtain ⟨r, hrm, rfl⟩ := exists_round hindex hi hused
    obtain rfl := Option.some.inj (hd.symm.trans (ha.device hn hr hu (h.asked r hrm)))
    refine ⟨h.wired.resolve _ (serialPath_mem hi) _ (h.asked r hrm).device, ?_⟩
    obtain ⟨n, hget⟩ := get?_of_mem (h.wired.device_mem r hrm)
    obtain ⟨phandles, hph⟩ := h.wired.device r hrm
    exact ⟨_, by rw [hph, hget, Option.map_some], status_wiredDevice phandles n⟩
  pins i hi hused := by
    obtain ⟨r, hrm, rfl⟩ := exists_round hindex hi hused
    obtain ⟨type, ht, pins, hpins, hgpios⟩ := (h.asked r hrm).pins
    refine ⟨type, ht, pins, hpins, ?_⟩
    have hperm := h.groupPins_perm (ha.wirable hf hn hr hc hu) hf.nodup ((hf.mem c).mpr (Or.inl hc))
      (nodup_index hindex) hrm
    rw [hgpios, List.map_map] at hperm
    exact hperm
  unused i hi _ j hj hfix :=
    ⟨h.wired.resolve _ (serialPath_mem hi) j (ha.resolve hn hr (serialPath_mem hi) hj),
      h.other ha hf hn hr hu (hmem _ j hj) hfix⟩
  other j hj hfix := h.other ha hf hn hr hu hj hfix
  kids j hj := h.kids hf hj
  made k hk hnew := h.made hf hc hk hnew

end

def uartsRoom : Nat := 61 + sunxiMaxUarts * uartRoom

section

variable {w : World} {T : DeviceTree} {c : Nat} {script : Script}

theorem runs_fixupUarts (hw : Repr w.fdt T) (hu : Wirable script T c)
    (hport : (script.single strUartPara strUartDebugPort).isSome)
    (hok : ∀ i < sunxiMaxUarts, UartOk script i) (hroom : uartsRoom ≤ w.fdt.free.length) :
    Runs (fdtFixupUarts script) w fun r w' => r = 0 ∧ ∃ T₁ rounds T', Appended T T₁ ∧ Frame T T₁ ∧
      Rounds script T₁ c rounds T' ∧
      rounds.map Round.index = ((List.range sunxiMaxUarts).filter script.Used).reverse ∧
      Repr w'.fdt T' := by
  obtain ⟨port, hport⟩ := Option.isSome_iff_exists.mp hport
  have hc : c ∈ T.ids := DeviceTree.resolve_mem hw hu.ctrl
  have hconsole : (0 : UInt8) ∉ strConsole ∧ (0 : UInt8) ∉ strBaud ∧ strConsole.length = 12 ∧
      strBaud.length = 7 := by decide
  have hz : 0 ∉ catChar strConsole (48 + port).toUInt8 ++ strBaud := by
    rw [List.mem_append, not_or]
    exact ⟨zero_not_mem_catChar hconsole.1 _, hconsole.2.1⟩
  have hargs : argsRoom (catChar strConsole (48 + port).toUInt8 ++ strBaud) ≤ 61 := by
    have hcat := length_catChar strConsole (48 + port).toUInt8
    unfold argsRoom
    rw [List.length_append]
    omega
  unfold uartsRoom at hroom
  unfold fdtFixupUarts
  rw [← bind_assoc]
  refine (reads_single script strUartPara strUartDebugPort).runs hport ?_
  refine Runs.bind ((runs_appendBootargs hw (Frame.refl hw.nodup hw.rooted) hz (by omega)).mono ?_)
  rintro r w₁ ⟨-, T₁, hf, -, -, -, -, ha, hl⟩
  have hu₁ := ha.wirable hf hw.nodup hw.rooted hc hu
  have hleft := hl.2
  refine (runs_uartLoop hu₁ hf.nodup (List.range sunxiMaxUarts) ⟨Wired.init T₁ c, by simp⟩ hl.1
    (fun i hi => ⟨List.mem_range.mp hi, hok i (List.mem_range.mp hi)⟩) List.nodup_range (by simp)
    (by rw [List.length_range]; omega)).mono ?_
  rintro r w₂ ⟨hr, rounds, T', h, hindex, hl'⟩
  rw [List.map_nil, List.append_nil] at hindex
  exact ⟨hr, T₁, rounds, T', ha, hf, h, hindex, hl'.1⟩

/-- The enabled UARTs get their status and the pins of their types, and no other node changes. -/
theorem fdtFixupUarts_fixed (hw : Repr w.fdt T) (hu : Wirable script T c)
    (hport : (script.single strUartPara strUartDebugPort).isSome)
    (hok : ∀ i < sunxiMaxUarts, UartOk script i) (hroom : uartsRoom ≤ w.fdt.free.length) :
    Runs (fdtFixupUarts script) w fun r w' =>
      r = 0 ∧ ∃ T', Repr w'.fdt T' ∧ UartsFixed script c T T' := by
  refine (runs_fixupUarts hw hu hport hok hroom).mono ?_
  rintro r w' ⟨hr, T₁, rounds, T', ha, hf, h, hindex, hw'⟩
  exact ⟨hr, T', hw', h.uartsFixed ha hf hw.nodup hw.rooted (DeviceTree.resolve_mem hw hu.ctrl) hu
    (fun _ _ => DeviceTree.resolve_mem hw) hindex⟩

end

def sharedPath : Bytes := Bytes.ofString "/soc@01c00000/serial@01c28000"

def sharedTree : DeviceTree :=
  .node 0 ⟨[], []⟩
    (.node 1 ⟨strAliases.tail,
        [(serialPath 0, sharedPath ++ [0]), (serialPath 1, sharedPath ++ [0])]⟩ .nil
      (.node 2 ⟨Bytes.ofString "soc@01c00000", []⟩
        (.node 3 ⟨Bytes.ofString "pinctrl@01c20800", []⟩ .nil
          (.node 4 ⟨Bytes.ofString "serial@01c28000", []⟩ .nil .nil)) .nil)) .nil

theorem sharedTree_repr : Repr (sharedTree.blob uartsRoom) sharedTree :=
  DeviceTree.repr_blob (by decide) (by decide) ⟨0, _, _, rfl⟩ (by decide)

def sharedScript : Script where
  sections :=
    ⟨strUartPara, [⟨strUartDebugPort, .single 0⟩]⟩ ::
      ⟨uartPara 0, [⟨strUartUsed, .single 1⟩, ⟨strUartType, .single 2⟩,
        ⟨strTx, .gpio 2 22 #v[2, 1, 0, 0]⟩, ⟨strRx, .gpio 2 23 #v[2, 1, 0, 0]⟩]⟩ ::
      (List.range sunxiMaxUarts).tail.map fun i => ⟨uartPara i, [⟨strUartUsed, .single 0⟩]⟩

theorem sharedScript_used : ∀ i < sunxiMaxUarts, sharedScript.Used i → i = 0 := by decide

theorem sharedTree_wirable {script : Script} (h : ∀ i < sunxiMaxUarts, script.Used i → i = 0) :
    Wirable script sharedTree 3 where
  ctrl := by decide
  serial i hi hused := by
    obtain rfl := h i hi hused
    refine ⟨4, by decide, ?_⟩
    unfold Precedes
    decide
  apart i hi j hj hui huj _ := (h i hi hui).trans (h j hj huj).symm
  clean k hk := by cases hk

theorem fdtFixupUarts_fixed_board :
    Runs (fdtFixupUarts sharedScript) ⟨sharedTree.blob uartsRoom, []⟩ fun r w' =>
      r = 0 ∧ ∃ T', Repr w'.fdt T' ∧ UartsFixed sharedScript 3 sharedTree T' :=
  fdtFixupUarts_fixed sharedTree_repr (sharedTree_wirable sharedScript_used) (by decide) (by decide)
    (Nat.le_of_eq List.length_replicate.symm)

/-- The second UART is not used, but what is behind its alias gets a status. -/
theorem sharedTree_changed :
    Wirable sharedScript sharedTree 3 ∧ ¬sharedScript.Used 1 ∧
    readProp (sharedTree.blob uartsRoom) (serialPath 1) strStatus = none ∧
    Runs (fdtFixupUarts sharedScript) ⟨sharedTree.blob uartsRoom, []⟩ fun r w' =>
      r = 0 ∧ readProp w'.fdt (serialPath 1) strStatus = some (strOkay ++ [0]) := by
  have hu := sharedTree_wirable sharedScript_used
  have hz : 0 ∉ serialPath 1 := by decide
  have hlt : 0 < sunxiMaxUarts ∧ 1 < sunxiMaxUarts := by decide
  have hused : sharedScript.Used 0 := by decide
  have hboth : sharedTree.resolve (serialPath 0) = some 4 ∧
      sharedTree.resolve (serialPath 1) = some 4 := by decide
  refine ⟨hu, by decide, readProp_resolve sharedTree_repr hz hboth.2 rfl _, ?_⟩
  refine (runs_fixupUarts (w := ⟨sharedTree.blob uartsRoom, []⟩) sharedTree_repr hu
    (by decide) (by decide) (Nat.le_of_eq List.length_replicate.symm)).mono ?_
  rintro r w' ⟨hr, T₁, rounds, T', ha, hf, h, hindex, hw'⟩
  have hfixed := h.uartsFixed ha hf sharedTree_repr.nodup sharedTree_repr.rooted (by decide)
    hu (fun _ _ => DeviceTree.resolve_mem sharedTree_repr) hindex
  obtain ⟨-, n, hn, hstatus⟩ := hfixed.status 0 hlt.1 hused 4 hboth.1
  have hres := h.wired.resolve _ (serialPath_mem hlt.2) 4
    (ha.resolve sharedTree_repr.nodup sharedTree_repr.rooted (serialPath_mem hlt.2) hboth.2)
  exact ⟨hr, (readProp_resolve hw' hz hres hn _).trans hstatus⟩

end Babelfish
