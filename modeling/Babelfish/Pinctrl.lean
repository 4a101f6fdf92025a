import Babelfish.FdtTools
import Babelfish.Libfdt.Resolve

/-! What the pinctrl groups look like in a tree: the names and contents of their nodes, and the
references to them in the device. -/

namespace Babelfish

open Libfdt Bytes Forest

/-- The normalised pair of pull and drive by which pins are grouped. -/
abbrev PinAttr := UInt32 × UInt32

def Gpio.attr (g : Gpio) : PinAttr := (normPull g.pull, normDrive g.drive)

def Gpio.pin (g : Gpio) : Bytes := pinName g.port g.portNum

def pinAttrs : List PinAttr :=
  [(0, 0), (0, 1), (0, 2), (0, 3), (1, 0), (1, 1), (1, 2), (1, 3), (2, 0), (2, 1), (2, 2), (2, 3)]

def attrSuffix (a : PinAttr) : Bytes := pullSuffix a.1 ++ driveSuffix a.2

theorem normPull_cases (p : UInt32) : normPull p = 0 ∨ normPull p = 1 ∨ normPull p = 2 := by
  unfold normPull
  split
  · rename_i h
    exact Or.inr h
  · exact Or.inl rfl

theorem normDrive_cases (d : UInt32) :
    normDrive d = 0 ∨ normDrive d = 1 ∨ normDrive d = 2 ∨ normDrive d = 3 := by
  unfold normDrive
  split
  · rename_i h
    exact Or.inr h
  · exact Or.inl rfl

theorem norm_mem_pinAttrs (p d : UInt32) : (normPull p, normDrive d) ∈ pinAttrs := by
  rcases normPull_cases p with hp | hp | hp <;> rcases normDrive_cases d with hd | hd | hd | hd <;>
    · rw [hp, hd]
      decide

theorem Gpio.attr_mem (g : Gpio) : g.attr ∈ pinAttrs := norm_mem_pinAttrs _ _

theorem pullSuffix_norm (p : UInt32) : pullSuffix (normPull p) = pullSuffix p := by
  unfold normPull
  split
  · rfl
  · rename_i h
    obtain ⟨h₁, h₂⟩ := not_or.mp h
    simp [pullSuffix, h₁, h₂]

theorem driveSuffix_norm (d : UInt32) : driveSuffix (normDrive d) = driveSuffix d := by
  unfold normDrive
  split
  · rfl
  · rename_i h
    obtain ⟨h₁, h'⟩ := not_or.mp h
    obtain ⟨h₂, h₃⟩ := not_or.mp h'
    simp [driveSuffix, h₁, h₂, h₃]

theorem groupName_norm (device : Bytes) (p d : UInt32) :
    groupName device (normPull p) (normDrive d) = groupName device p d := by
  simp only [groupName, pullSuffix_norm, driveSuffix_norm]

/-- The list decides, not the pairs of all words. -/
theorem forall_pinAttrs {p : PinAttr → Prop} [DecidablePred p]
    (h : (pinAttrs.all fun a => p a) = true) : ∀ a ∈ pinAttrs, p a := fun a ha =>
  of_decide_eq_true (List.all_eq_true.mp h a ha)

theorem attrSuffix_injective : ∀ a ∈ pinAttrs, ∀ b ∈ pinAttrs, attrSuffix a = attrSuffix b → a = b := by
  have h : ∀ a ∈ pinAttrs, (pinAttrs.all fun b => attrSuffix a = attrSuffix b → a = b) = true :=
    forall_pinAttrs (by decide)
  exact fun a ha => forall_pinAttrs (h a ha)

theorem attrSuffix_clean : ∀ a ∈ pinAttrs, 0 ∉ attrSuffix a ∧ atSign ∉ attrSuffix a ∧
    (attrSuffix a).length ≤ 14 :=
  forall_pinAttrs (by decide)

def attrName (device : Bytes) (a : PinAttr) : Bytes := groupName device a.1 a.2

theorem attrName_eq (device : Bytes) (a : PinAttr) :
    attrName device a = device ++ strPinsBabelfish ++ attrSuffix a := by
  simp [attrName, groupName, attrSuffix]

theorem groupName_eq (device : Bytes) (g : Gpio) :
    groupName device g.pull g.drive = attrName device g.attr :=
  (groupName_norm device g.pull g.drive).symm

theorem attrName_injective {device : Bytes} {a b : PinAttr} (ha : a ∈ pinAttrs) (hb : b ∈ pinAttrs)
    (h : attrName device a = attrName device b) : a = b := by
  rw [attrName_eq, attrName_eq, List.append_cancel_left_eq] at h
  exact attrSuffix_injective a ha b hb h

theorem attrName_length (device : Bytes) {a : PinAttr} (ha : a ∈ pinAttrs) :
    (attrName device a).length ≤ device.length + 29 := by
  have := (attrSuffix_clean a ha).2.2
  have hs : strPinsBabelfish.length = 15 := by decide
  rw [attrName_eq, List.length_append, List.length_append]
  omega

theorem zero_not_mem_attrName {device : Bytes} (hd : 0 ∉ device) {a : PinAttr} (ha : a ∈ pinAttrs) :
    0 ∉ attrName device a := by
  have hs : (0 : UInt8) ∉ strPinsBabelfish := by decide
  rw [attrName_eq, List.mem_append, List.mem_append, not_or, not_or]
  exact ⟨⟨hd, hs⟩, (attrSuffix_clean a ha).1⟩

theorem atSign_not_mem_attrName {device : Bytes} (hd : atSign ∉ device) {a : PinAttr}
    (ha : a ∈ pinAttrs) : atSign ∉ attrName device a := by
  have hs : atSign ∉ strPinsBabelfish := by decide
  rw [attrName_eq, List.mem_append, List.mem_append, not_or, not_or]
  exact ⟨⟨hd, hs⟩, (attrSuffix_clean a ha).2.1⟩

theorem nameMatches_attrName {device : Bytes} (hd : atSign ∉ device) {a b : PinAttr}
    (ha : a ∈ pinAttrs) (hb : b ∈ pinAttrs) :
    DtNode.nameMatches (attrName device a) (attrName device b) = decide (a = b) := by
  by_cases h : a = b
  · subst h
    simp [DtNode.nameMatches_self]
  · simp only [h, decide_false]
    by_contra hm
    have := DtNode.nameMatches_eq (atSign_not_mem_attrName hd hb) (by simpa using hm)
    exact h (attrName_injective ha hb this)

theorem length_catChar (s : Bytes) (c : UInt8) : (catChar s c).length ≤ s.length + 1 := by
  unfold catChar
  split <;> simp

theorem pinName_length (port portNum : UInt32) : (pinName port portNum).length ≤ 4 := by
  have h₁ := length_catChar (Bytes.ofString "P") (65 + port - 1).toUInt8
  have h₂ := length_catChar (catChar (Bytes.ofString "P") (65 + port - 1).toUInt8)
    (48 + portNum / 10).toUInt8
  have h₃ := length_catChar (catChar (catChar (Bytes.ofString "P") (65 + port - 1).toUInt8)
    (48 + portNum / 10).toUInt8) (48 + portNum % 10).toUInt8
  have hp : (Bytes.ofString "P").length = 1 := by decide
  unfold pinName
  omega

theorem zero_not_mem_catChar {s : Bytes} (hs : 0 ∉ s) (c : UInt8) : 0 ∉ catChar s c := by
  unfold catChar
  split
  · exact hs
  · rename_i hc
    rw [List.mem_append, not_or, List.mem_singleton]
    exact ⟨hs, Ne.symm hc⟩

theorem zero_not_mem_pinName (port portNum : UInt32) : 0 ∉ pinName port portNum :=
  zero_not_mem_catChar (zero_not_mem_catChar (zero_not_mem_catChar (by decide) _) _) _

def pinsValue (pins : List Bytes) : Bytes := pins.flatMap (· ++ [0])

def groupProps (device : Bytes) (a : PinAttr) (phandle : UInt32) : List (Bytes × Bytes) :=
  [(strLinuxPhandle, be32 phandle.toNat), (strPhandle, be32 phandle.toNat),
    (strFunction, device ++ [0]), (strPull, be32 a.1.toNat), (strDrive, be32 a.2.toNat)]

def groupNode (device : Bytes) (a : PinAttr) (phandle : UInt32) (pins : List Bytes) : DtNode :=
  ⟨attrName device a, (strPins, pinsValue pins) :: groupProps device a phandle⟩

theorem appendprop_groupNode (device : Bytes) (a : PinAttr) (phandle : UInt32) (pins : List Bytes)
    (pin : Bytes) : (groupNode device a phandle pins).appendprop strPins (pin ++ [0]) =
      groupNode device a phandle (pins ++ [pin]) := by
  simp [groupNode, DtNode.appendprop, Assoc.upsert, Assoc.upsert.adjust, pinsValue]

theorem groupNode_eq (device : Bytes) (a : PinAttr) (phandle : UInt32) (pin : Bytes) :
    ((((((⟨attrName device a, []⟩ : DtNode).setprop strDrive (be32 a.2.toNat)).setprop strPull
      (be32 a.1.toNat)).setprop strFunction (device ++ [0])).setprop strPhandle
      (be32 phandle.toNat)).setprop strLinuxPhandle (be32 phandle.toNat)).appendprop strPins
      (pin ++ [0]) = groupNode device a phandle [pin] := by
  have h₁ : (strPull == strDrive) = false := by decide
  have h₂ : (strFunction == strPull) = false ∧ (strFunction == strDrive) = false := by decide
  have h₃ : (strPhandle == strFunction) = false ∧ (strPhandle == strPull) = false ∧
    (strPhandle == strDrive) = false := by decide
  have h₄ : (strLinuxPhandle == strPhandle) = false ∧ (strLinuxPhandle == strFunction) = false ∧
    (strLinuxPhandle == strPull) = false ∧ (strLinuxPhandle == strDrive) = false := by decide
  have h₅ : (strPins == strLinuxPhandle) = false ∧ (strPins == strPhandle) = false ∧
    (strPins == strFunction) = false ∧ (strPins == strPull) = false ∧
    (strPins == strDrive) = false := by decide
  simp [groupNode, groupProps, pinsValue, DtNode.setprop, DtNode.appendprop, Assoc.upsert,
    List.lookup_cons, h₁, h₂, h₃, h₄, h₅]

theorem phandle_groupNode (device : Bytes) (a : PinAttr) (phandle : UInt32) (pins : List Bytes) :
    (groupNode device a phandle pins).phandle = phandle.toNat := by
  have h : (groupNode device a phandle pins).getprop strPhandle = some (be32 phandle.toNat) := by
    have h₁ : (strPhandle == strPins) = false := by decide
    have h₂ : (strPhandle == strLinuxPhandle) = false := by decide
    simp [groupNode, groupProps, DtNode.getprop, List.lookup_cons, h₁, h₂]
  have hr := readBe32_be32 phandle.toNat_lt []
  rw [List.append_nil] at hr
  simp [DtNode.phandle, DtNode.cell, h, hr]

/-- The device after references to some groups, in the order of their numbers. -/
def deviceRefs (phandles : List UInt32) (n : DtNode) : DtNode :=
  phandles.zipIdx.foldl (fun n p => (n.appendprop strPinctrlNames (strDefault ++ [0])).setprop
    (pinctrlProp p.2) (be32 p.1.toNat)) n

@[simp] theorem deviceRefs_nil (n : DtNode) : deviceRefs [] n = n := rfl

theorem deviceRefs_concat (phandles : List UInt32) (p : UInt32) (n : DtNode) :
    deviceRefs (phandles ++ [p]) n =
      ((deviceRefs phandles n).appendprop strPinctrlNames (strDefault ++ [0])).setprop
        (pinctrlProp phandles.length) (be32 p.toNat) := by
  simp [deviceRefs, List.zipIdx_append]

theorem strPinctrl_prefix_pinctrlProp (k : Nat) : strPinctrl <+: pinctrlProp k := by
  unfold pinctrlProp catChar
  split
  · exact List.prefix_refl _
  · exact List.prefix_append _ _

theorem strPinctrl_prefix_names : strPinctrl <+: strPinctrlNames := by decide

theorem zero_not_mem_pinctrlProp (k : Nat) : 0 ∉ pinctrlProp k :=
  zero_not_mem_catChar (by decide) _

theorem pinctrlProp_length (k : Nat) : (pinctrlProp k).length ≤ 9 := by
  have h : strPinctrl.length = 8 := by decide
  unfold pinctrlProp catChar
  split
  · omega
  · rw [List.length_append, List.length_singleton]
    omega

theorem pinctrlProp_eq {k : Nat} (hk : k < 208) :
    pinctrlProp k = strPinctrl ++ [48 + UInt8.ofNat k] := by
  unfold pinctrlProp catChar
  rw [if_neg]
  intro h
  have := congrArg UInt8.toNat h
  simp only [UInt8.toNat_add, UInt8.toNat_ofNat', UInt8.toNat_ofNat] at this
  omega

theorem pinctrlProp_injective {j k : Nat} (hj : j < 208) (hk : k < 208)
    (h : pinctrlProp j = pinctrlProp k) : j = k := by
  rw [pinctrlProp_eq hj, pinctrlProp_eq hk, List.append_cancel_left_eq] at h
  have h' := congrArg UInt8.toNat (List.cons.inj h).1
  simp only [UInt8.toNat_add, UInt8.toNat_ofNat', UInt8.toNat_ofNat] at h'
  omega

theorem pinctrlProp_ne_names (k : Nat) : pinctrlProp k ≠ strPinctrlNames := by
  intro h
  have h₁ := congrArg List.length h
  have h₂ := pinctrlProp_length k
  have h₃ : strPinctrlNames.length = 13 := by decide
  omega

theorem getprop_deviceRefs_of_clean {name : Bytes} (h : ¬strPinctrl <+: name)
    (phandles : List UInt32) (n : DtNode) :
    (deviceRefs phandles n).getprop name = n.getprop name := by
  induction phandles using List.reverseRecOn with
  | nil => rfl
  | append_singleton ps p ih =>
    have h₁ : name ≠ pinctrlProp ps.length := fun e => h (e ▸ strPinctrl_prefix_pinctrlProp _)
    have h₂ : name ≠ strPinctrlNames := fun e => h (e ▸ strPinctrl_prefix_names)
    rw [deviceRefs_concat, DtNode.getprop_setprop_of_ne h₁, DtNode.getprop_appendprop_of_ne h₂, ih]

theorem name_deviceRefs (phandles : List UInt32) (n : DtNode) :
    (deviceRefs phandles n).name = n.name := by
  induction phandles using List.reverseRecOn with
  | nil => rfl
  | append_singleton ps p ih => rw [deviceRefs_concat]; exact ih

theorem phandle_congr {n n' : DtNode} (h₁ : n'.getprop strPhandle = n.getprop strPhandle)
    (h₂ : n'.getprop strLinuxPhandle = n.getprop strLinuxPhandle) : n'.phandle = n.phandle := by
  simp only [DtNode.phandle, DtNode.cell, h₁, h₂]

theorem phandle_setprop_of_ne {name : Bytes} (h₁ : strPhandle ≠ name) (h₂ : strLinuxPhandle ≠ name)
    (val : Bytes) (n : DtNode) : (n.setprop name val).phandle = n.phandle :=
  phandle_congr (DtNode.getprop_setprop_of_ne h₁ val n) (DtNode.getprop_setprop_of_ne h₂ val n)

theorem phandle_appendprop_of_ne {name : Bytes} (h₁ : strPhandle ≠ name)
    (h₂ : strLinuxPhandle ≠ name) (val : Bytes) (n : DtNode) :
    (n.appendprop name val).phandle = n.phandle :=
  phandle_congr (DtNode.getprop_appendprop_of_ne h₁ val n)
    (DtNode.getprop_appendprop_of_ne h₂ val n)

theorem phandles_modify {T : DeviceTree} (hn : T.ids.Nodup) {i : Nat} {g : DtNode → DtNode}
    (hg : ∀ n, (g n).phandle = n.phandle) (j : Nat) :
    ((T.modify i g).get? j).map DtNode.phandle = (T.get? j).map DtNode.phandle := by
  by_cases hj : j = i
  · subst hj
    rw [get?_modify_self, Option.map_map]
    cases T.get? j with
    | none => rfl
    | some n => simp [hg n]
  · rw [get?_modify_of_ne hj hn]

theorem getprop_deviceRefs {n : DtNode} (hn : ∀ name, strPinctrl <+: name → n.getprop name = none)
    {phandles : List UInt32} (hlen : phandles.length ≤ 208) :
    (∀ k (hk : k < phandles.length),
      (deviceRefs phandles n).getprop (pinctrlProp k) = some (be32 phandles[k].toNat)) ∧
    ((deviceRefs phandles n).getprop strPinctrlNames = if phandles = [] then none else
      some (List.replicate phandles.length (strDefault ++ [0])).flatten) ∧
    ∀ name, strPinctrl <+: name → name ≠ strPinctrlNames →
      (∀ k < phandles.length, name ≠ pinctrlProp k) →
      (deviceRefs phandles n).getprop name = none := by
  induction phandles using List.reverseRecOn with
  | nil =>
    refine ⟨fun k hk => absurd hk (Nat.not_lt_zero _), ?_, fun name hp _ _ => hn name hp⟩
    simpa using hn _ strPinctrl_prefix_names
  | append_singleton ps p ih =>
    rw [List.length_append, List.length_singleton] at hlen
    obtain ⟨hprops, hnames, hrest⟩ := ih (by omega)
    rw [deviceRefs_concat]
    refine ⟨fun k hk => ?_, ?_, fun name hp hne hk => ?_⟩
    · rw [List.length_append, List.length_singleton] at hk
      by_cases hlast : k = ps.length
      · subst hlast
        rw [DtNode.getprop_setprop_self]
        simp
      · have hne : pinctrlProp k ≠ pinctrlProp ps.length := fun e =>
          hlast (pinctrlProp_injective (by omega) (by omega) e)
        have hlt : k < ps.length := by omega
        rw [DtNode.getprop_setprop_of_ne hne,
          DtNode.getprop_appendprop_of_ne (pinctrlProp_ne_names k), hprops k hlt,
          List.getElem_append_left hlt]
    · rw [DtNode.getprop_setprop_of_ne (pinctrlProp_ne_names _).symm, DtNode.getprop_appendprop_self,
        hnames]
      by_cases hps : ps = []
      · simp [hps]
      · simp only [hps, if_false, Option.getD_some, List.append_eq_nil_iff, false_and,
          List.length_append, List.length_singleton, List.replicate_add, List.flatten_append,
          List.replicate_one, List.flatten_singleton]
    · have hne' : name ≠ pinctrlProp ps.length := hk ps.length (by simp)
      rw [DtNode.getprop_setprop_of_ne hne', DtNode.getprop_appendprop_of_ne hne]
      exact hrest name hp hne fun k hlt => hk k (by simp; omega)

end Babelfish
