import Babelfish.Pinctrl
import Babelfish.Phandle
import Babelfish.Steps

/-! `fdt_add_pinctrl_group` in a tree where the controller precedes the device and there is room: the
new children of the controller are the groups of the pins. -/

namespace Babelfish

open Libfdt Bytes Forest DeviceTree

/-! A controller `c`, a group `id` below it and a device `d` behind both. -/

structure Sited (c d id po o : Nat) (parentPath : Bytes) (al : Option Nat) (T : DeviceTree) :
    Prop where
  nodup : T.ids.Nodup
  ctrl_group : T.Precedes c id
  group_device : T.Precedes id d
  ctrl_device : T.Precedes c d
  ctrl_offset : DeviceTree.offset T c = some po
  group_offset : DeviceTree.offset T id = some o
  resolve : T.resolve parentPath = some d
  aliases : T.lookup strAliases = al

/-- The references in the device leave the alias alone that leads to it. -/
def AliasSafe (parentPath : Bytes) (d : Nat) (al : Option Nat) : Prop :=
  parentPath.head? ≠ some slash → al = some d → ¬strPinctrl <+: parentPath.takeWhile (· ≠ slash)

namespace Sited

variable {c d id po o : Nat} {parentPath : Bytes} {al : Option Nat} {T : DeviceTree}
variable {g : DtNode → DtNode}

theorem modify_group (h : Sited c d id po o parentPath al T) (hal : al ≠ some id)
    (hg : KeepsName g) : Sited c d id po o parentPath al (T.modify id g) where
  nodup := by rw [ids_modify]; exact h.nodup
  ctrl_group := precedes_modify h.ctrl_group _ _
  group_device := precedes_modify h.group_device _ _
  ctrl_device := precedes_modify h.ctrl_device _ _
  ctrl_offset := (offset_update_of_precedes h.nodup (Or.inl h.ctrl_group) _).trans h.ctrl_offset
  group_offset := (offset_update_of_precedes h.nodup (Or.inr rfl) _).trans h.group_offset
  resolve := resolve_modify h.nodup hg (fun _ ha => absurd (h.aliases.symm.trans ha) hal) h.resolve
  aliases := (lookup_modify h.nodup hg _).trans h.aliases

theorem modify_device (h : Sited c d id po o parentPath al T) (hsafe : AliasSafe parentPath d al)
    (hg : KeepsName g)
    (hkeep : ∀ name, ¬strPinctrl <+: name → ∀ n, (g n).getprop name = n.getprop name) :
    Sited c d id po o parentPath al (T.modify d g) where
  nodup := by rw [ids_modify]; exact h.nodup
  ctrl_group := precedes_modify h.ctrl_group _ _
  group_device := precedes_modify h.group_device _ _
  ctrl_device := precedes_modify h.ctrl_device _ _
  ctrl_offset := (offset_update_of_precedes h.nodup (Or.inl h.ctrl_device) _).trans h.ctrl_offset
  group_offset := (offset_update_of_precedes h.nodup (Or.inl h.group_device) _).trans h.group_offset
  resolve := resolve_modify h.nodup hg
    (fun habs ha n _ _ => hkeep _ (hsafe habs (h.aliases.symm.trans ha)) n) h.resolve
  aliases := (lookup_modify h.nodup hg _).trans h.aliases

theorem device_mem (h : Sited c d id po o parentPath al T) : d ∈ T.ids := h.group_device.mem_right

theorem device_offset (h : Sited c d id po o parentPath al T) :
    ∃ od, DeviceTree.offset T d = some od := offset_isSome h.device_mem

theorem ne_device (h : Sited c d id po o parentPath al T) : id ≠ d := h.group_device.ne h.nodup

end Sited

theorem getprop_setprop_pinctrl {name : Bytes} (h : ¬strPinctrl <+: name) (k : Nat) (v : Bytes)
    (n : DtNode) : (n.setprop (pinctrlProp k) v).getprop name = n.getprop name :=
  DtNode.getprop_setprop_of_ne (fun e : name = _ => h (e ▸ strPinctrl_prefix_pinctrlProp k)) _ _

theorem getprop_appendprop_names {name : Bytes} (h : ¬strPinctrl <+: name) (v : Bytes)
    (n : DtNode) : (n.appendprop strPinctrlNames v).getprop name = n.getprop name :=
  DtNode.getprop_appendprop_of_ne (fun e : name = _ => h (e ▸ strPinctrl_prefix_names)) _ _

section Stages

variable {w : World} {T : DeviceTree} {c d id po o : Nat} {parentPath : Bytes} {al : Option Nat}
variable {n : DtNode} {target : Target} {name val : Bytes} {Q : Int → World → Prop}

theorem runs_setprop_group (h : Repr w.fdt T) (hs : Sited c d id po o parentPath al T)
    (hal : al ≠ some id) (hn : T.get? id = some n) (hz : 0 ∉ name)
    (hroom : propRoom name val.length ≤ w.fdt.free.length)
    (hQ : ∀ w' T', T' = T.modify id (DtNode.setprop name val) → Repr w'.fdt T' →
      Sited c d id po o parentPath al T' → T'.get? id = some (n.setprop name val) →
      w.fdt.free.length ≤ w'.fdt.free.length + propRoom name val.length → Q 0 w') :
    Runs (call target (.setprop name val) o) w Q := by
  have hle := setRoom_le n name val.length
  refine runs_setprop h hn hs.group_offset hz (by omega) fun hl => ?_
  refine hQ _ _ rfl hl.1 (hs.modify_group hal (keepsName_setprop name val)) ?_ ?_
  · rw [get?_modify_self, hn, Option.map_some]
  · have := hl.2
    omega

theorem runs_setprop_device (h : Repr w.fdt T) (hs : Sited c d id po o parentPath al T)
    (hsafe : AliasSafe parentPath d al) (hzp : 0 ∉ parentPath) (k : Nat)
    (hroom : propRoom (pinctrlProp k) val.length ≤ w.fdt.free.length)
    (hQ : ∀ w' T', T' = T.modify d (DtNode.setprop (pinctrlProp k) val) → Repr w'.fdt T' →
      Sited c d id po o parentPath al T' →
      w.fdt.free.length ≤ w'.fdt.free.length + propRoom (pinctrlProp k) val.length → Q 0 w') :
    Runs (pathOffset parentPath >>= fun od => call target (.setprop (pinctrlProp k) val) od) w Q := by
  obtain ⟨od, hod⟩ := hs.device_offset
  obtain ⟨nd, hnd⟩ := get?_of_mem hs.device_mem
  have hle := setRoom_le nd (pinctrlProp k) val.length
  refine Runs.bind (runs_pathOffset h hzp hs.resolve hod ?_)
  have h₀ : Repr (w.call .root (.pathOffset parentPath) 0).fdt T := h
  refine runs_setprop h₀ hnd hod (zero_not_mem_pinctrlProp k) ?_ fun hl => ?_
  · simp only [World.call_fdt, Op.run]
    omega
  · refine hQ _ _ rfl hl.1 (hs.modify_device hsafe (keepsName_setprop _ _)
      fun name hp n => getprop_setprop_pinctrl hp k val n) ?_
    have := hl.2
    simp only [World.call_fdt, Op.run] at this ⊢
    omega

theorem runs_appendprop_device (h : Repr w.fdt T) (hs : Sited c d id po o parentPath al T)
    (hsafe : AliasSafe parentPath d al) (hzp : 0 ∉ parentPath)
    (hroom : propRoom strPinctrlNames val.length ≤ w.fdt.free.length)
    (hQ : ∀ w' T', T' = T.modify d (DtNode.appendprop strPinctrlNames val) → Repr w'.fdt T' →
      Sited c d id po o parentPath al T' →
      w.fdt.free.length ≤ w'.fdt.free.length + propRoom strPinctrlNames val.length → Q 0 w') :
    Runs (pathOffset parentPath >>= fun od => call target (.appendprop strPinctrlNames val) od)
      w Q := by
  have hz : 0 ∉ strPinctrlNames := by decide
  obtain ⟨od, hod⟩ := hs.device_offset
  obtain ⟨nd, hnd⟩ := get?_of_mem hs.device_mem
  refine Runs.bind (runs_pathOffset h hzp hs.resolve hod ?_)
  have h₀ : Repr (w.call .root (.pathOffset parentPath) 0).fdt T := h
  refine runs_appendprop h₀ hnd hod hz (by simpa [Op.run] using hroom) fun hl => ?_
  refine hQ _ _ rfl hl.1 (hs.modify_device hsafe (keepsName_appendprop _ _)
    fun name hp n => getprop_appendprop_names hp val n) ?_
  have := hl.2
  simp only [World.call_fdt, Op.run] at this ⊢
  omega

end Stages

def PhandlesBelow (b : Nat) (T : DeviceTree) : Prop := ∀ j n, T.get? j = some n → n.phandle < b

/-- A phandle beyond all of a tree, and the least such. -/
structure NextPhandle (T : DeviceTree) (ph : UInt32) : Prop where
  pos : 0 < ph.toNat
  lt : ∀ j n, T.get? j = some n → n.phandle < ph.toNat
  least : ph.toNat = 1 ∨ ∃ j n, T.get? j = some n ∧ ph.toNat = n.phandle + 1

theorem NextPhandle.of_phandles {T T' : DeviceTree} {ph : UInt32} {new : Nat}
    (h : NextPhandle T' ph) (hfresh : new ∉ T.ids)
    (hnew : (T'.get? new).map DtNode.phandle = some 0)
    (hold : ∀ j, j ≠ new → (T'.get? j).map DtNode.phandle = (T.get? j).map DtNode.phandle) :
    NextPhandle T ph where
  pos := h.pos
  lt j n hn := by
    have hj : j ≠ new := fun e => hfresh (e ▸ mem_of_get? hn)
    have := hold j hj
    rw [hn, Option.map_some, Option.map_eq_some_iff] at this
    obtain ⟨n', hn', hp⟩ := this
    exact hp ▸ h.lt j n' hn'
  least := by
    rcases h.least with hone | ⟨j, n', hn', hp⟩
    · exact Or.inl hone
    · by_cases hj : j = new
      · subst hj
        rw [hn', Option.map_some, Option.some.injEq] at hnew
        exact Or.inl (by omega)
      · have := hold j hj
        rw [hn', Option.map_some, eq_comm, Option.map_eq_some_iff] at this
        obtain ⟨n, hn, he⟩ := this
        exact Or.inr ⟨j, n, hn, by omega⟩

theorem toInt32_of_lt {n : Nat} (h : n < 2147483648) : toInt32 n = n := by
  have h₁ : n % 4294967296 = n := Nat.mod_eq_of_lt (by omega)
  simp only [toInt32, h₁, if_pos h]

theorem toNat_ofInt {m : Int} (h₀ : 0 ≤ m) (h : m < 4294967296) : ((UInt32.ofInt m).toNat : Int) = m := by
  simp only [UInt32.ofInt, UInt32.toNat_ofNat']
  omega

theorem nextPhandle_alloc {fdt : Fdt} {T : DeviceTree} (h : Repr fdt T)
    (hlt : PhandlesBelow 2147483647 T) :
    NextPhandle T (UInt32.ofInt (fdtAllocPhandle fdt)) := by
  obtain ⟨m, hm, h₀, hall, hex⟩ := fdtAllocPhandle_spec h
  have hint : ∀ j n, T.get? j = some n → toInt32 n.phandle = n.phandle := fun j n hn =>
    toInt32_of_lt (by have := hlt j n hn; omega)
  have hbound : m < 2147483647 := by
    rcases hex with rfl | ⟨j, n, hn, rfl⟩
    · omega
    · have := hlt j n hn
      rw [hint j n hn]
      omega
  have hnat := toNat_ofInt (m := m + 1) (by omega) (by omega)
  rw [hm]
  refine ⟨by omega, fun j n hn => ?_, ?_⟩
  · have := hall j n hn
    rw [hint j n hn] at this
    omega
  · rcases hex with rfl | ⟨j, n, hn, rfl⟩
    · exact Or.inl (by omega)
    · refine Or.inr ⟨j, n, hn, ?_⟩
      have := hint j n hn
      omega

theorem runs_createPhandle {w : World} {T : DeviceTree} {target : Target} {id o : Nat} {n : DtNode}
    {Q : UInt32 → World → Prop} (h : Repr w.fdt T) (hn : T.get? id = some n)
    (ho : DeviceTree.offset T id = some o) (hnone : n.phandle = 0)
    (hroom : 54 ≤ w.fdt.free.length)
    (hQ : ∀ ph w', (PhandlesBelow 2147483647 T → NextPhandle T ph) →
      Leaves w 54 ((T.modify id (DtNode.setprop strPhandle (be32 ph.toNat))).modify id
        (DtNode.setprop strLinuxPhandle (be32 ph.toNat))) w' → Q ph w') :
    Runs (fdtCreatePhandle target o) w Q := by
  have hnext := nextPhandle_alloc h
  have h₁ : propRoom strPhandle 4 = 24 := by decide
  have h₂ : propRoom strLinuxPhandle 4 = 30 := by decide
  have hz : ¬((0 : Int) < 0) := by omega
  have hz₁ : 0 ∉ strPhandle := by decide
  have hz₂ : 0 ∉ strLinuxPhandle := by decide
  unfold fdtCreatePhandle
  refine Runs.bind (runs_getPhandle h hn ho ?_)
  rw [if_pos (by rw [hnone]; rfl)]
  refine Runs.bind (Runs.get ?_)
  simp only [World.call_fdt, Op.run]
  unfold fdtSetPhandle
  simp only [setpropU32]
  have hs₁ := setRoom_le n strPhandle 4
  have h₀ : Repr (w.call target .getPhandle o).fdt T := h
  refine Runs.bind (Runs.bind (runs_setprop h₀ hn ho hz₁ ?_ fun hl₁ => ?_))
  · rw [length_be32]
    simp only [World.call_fdt, Op.run]
    omega
  rw [if_neg hz]
  obtain ⟨hn₁, ho₁⟩ := DeviceTree.stays_modify h.nodup hn ho (DtNode.setprop strPhandle
    (be32 (UInt32.ofInt (fdtAllocPhandle w.fdt)).toNat))
  have hs₂ := setRoom_le (n.setprop strPhandle
    (be32 (UInt32.ofInt (fdtAllocPhandle w.fdt)).toNat)) strLinuxPhandle 4
  have hf₁ := hl₁.2
  rw [length_be32] at hf₁
  simp only [World.call_fdt, Op.run] at hf₁
  refine runs_setprop hl₁.1 hn₁ ho₁ hz₂ ?_ fun hl₂ => ?_
  · rw [length_be32]
    simp only [World.call_fdt, Op.run]
    omega
  rw [if_neg hz]
  refine Runs.pure (hQ _ _ hnext ⟨hl₂.1, ?_⟩)
  have hf₂ := hl₂.2
  rw [length_be32] at hf₂
  simp only [World.call_fdt, Op.run] at hf₂ ⊢
  omega

def setupGroup (device : Bytes) (a : PinAttr) (ph : UInt32) (n : DtNode) : DtNode :=
  ((((n.setprop strDrive (be32 a.2.toNat)).setprop strPull (be32 a.1.toNat)).setprop strFunction
    (device ++ [0])).setprop strPhandle (be32 ph.toNat)).setprop strLinuxPhandle (be32 ph.toNat)

def referGroup (ngroup : Nat) (ph : UInt32) (n : DtNode) : DtNode :=
  (n.appendprop strPinctrlNames (strDefault ++ [0])).setprop (pinctrlProp ngroup) (be32 ph.toNat)

def newGroupTree (T : DeviceTree) (c d new : Nat) (device : Bytes) (a : PinAttr) (ph : UInt32)
    (ngroup : Nat) : DeviceTree :=
  ((T.addFirst c new ⟨attrName device a, []⟩).modify new (setupGroup device a ph)).modify d
    (referGroup ngroup ph)

theorem keepsName_setupGroup (device : Bytes) (a : PinAttr) (ph : UInt32) :
    KeepsName (setupGroup device a ph) := fun _ => rfl

theorem keepsName_referGroup (ngroup : Nat) (ph : UInt32) : KeepsName (referGroup ngroup ph) :=
  fun _ => rfl

theorem getprop_referGroup {name : Bytes} (h : ¬strPinctrl <+: name) (ngroup : Nat) (ph : UInt32)
    (n : DtNode) : (referGroup ngroup ph n).getprop name = n.getprop name := by
  unfold referGroup
  rw [getprop_setprop_pinctrl h, getprop_appendprop_names h]

theorem attrName_not_mem_aliases (device : Bytes) (a : PinAttr) :
    attrName device a ∉ pathComponents strAliases := by
  have hc : pathComponents strAliases = [Bytes.ofString "aliases"] := by decide
  have hs : strPinsBabelfish.length = 15 := by decide
  have ha : (Bytes.ofString "aliases").length = 7 := by decide
  rw [hc, List.mem_singleton, attrName_eq]
  intro h
  have := congrArg List.length h
  simp only [List.length_append] at this
  omega

/-- What one new group takes, for a device name of at most 34 bytes, its first pin apart. -/
def groupRoom : Nat := 317

def gpioRoom : Nat := 352

section NewGroup

variable {T : DeviceTree} {c d new po : Nat} {nc : DtNode}
variable {pinctrlPath parentPath device : Bytes} {a : PinAttr}

theorem sited_addFirst (hn : T.ids.Nodup) (hr : Rooted T) (hpo : DeviceTree.offset T c = some po)
    (hcd : T.Precedes c d) (hres : T.resolve parentPath = some d) (hat : atSign ∉ attrName device a)
    (hnone : T.childOf c (DtNode.isNamed (attrName device a)) = none) (hfresh : new ∉ T.ids) {o : Nat}
    (ho : DeviceTree.offset (T.addFirst c new ⟨attrName device a, []⟩) new = some o) :
    Sited c d new po o parentPath (T.lookup strAliases)
      (T.addFirst c new ⟨attrName device a, []⟩) := by
  obtain ⟨hcn, hnd⟩ := precedes_addFirst_new hn (⟨attrName device a, []⟩ : DtNode) (n := new)
    hcd.mem_left
  exact ⟨nodup_addFirst hn hfresh _, hcn, hnd d hcd, precedes_addFirst hn hcd _ _ _,
    (offset_update_of_precedes hn (Or.inr rfl) _).trans hpo, ho,
    resolve_addFirst hr hn hfresh hat hnone hres,
    lookup_addFirst_eq hr hn hfresh hat (attrName_not_mem_aliases device a)⟩

theorem nodeRoom_attrName (hlen : device.length ≤ 34) (ha : a ∈ pinAttrs) :
    nodeRoom (attrName device a) ≤ 72 := by
  have hname := attrName_length device ha
  have hle := align4_mono (show (attrName device a).length + 1 ≤ 64 by omega)
  have h64 : align4 64 = 64 := by decide
  unfold nodeRoom
  omega

theorem propRoom_function (hlen : device.length ≤ 34) :
    propRoom strFunction (device ++ [0]).length ≤ 67 := by
  have hle := align4_mono (show (device ++ [0]).length ≤ 36 by simp; omega)
  have hl : strFunction.length = 18 := by decide
  have h36 : align4 36 = 36 := by decide
  unfold propRoom
  omega

theorem aliases_ne_new (hr : Rooted T) (hfresh : new ∉ T.ids) : T.lookup strAliases ≠ some new :=
  fun h => hfresh (walk_mem hr.root_mem h)

theorem runs_newGroup {w : World} (h : Repr w.fdt T) (hc : T.get? c = some nc)
    (hpo : DeviceTree.offset T c = some po) (hcd : T.Precedes c d)
    (hres : T.resolve parentPath = some d) (hzp : 0 ∉ parentPath)
    (hsafe : AliasSafe parentPath d (T.lookup strAliases)) (hzd : 0 ∉ device)
    (hatd : atSign ∉ device) (hlen : device.length ≤ 34) {pull drive : UInt32}
    (hnone : T.childOf c (DtNode.isNamed (groupName device pull drive)) = none)
    (hfresh : new ∉ T.ids) (hroom : groupRoom ≤ w.fdt.free.length) (ngroup : Nat) :
    Runs (fdtNewGroup pinctrlPath parentPath device po pull drive ngroup) w fun r w' =>
      r = ((po + nc.openSize : Nat) : Int) ∧ ∃ ph T', (PhandlesBelow 2147483647 T → NextPhandle T ph) ∧
        T' = newGroupTree T c d new device (normPull pull, normDrive drive) ph ngroup ∧
        DeviceTree.offset T' new = some (po + nc.openSize) ∧ Leaves w groupRoom T' w' := by
  have hmem := norm_mem_pinAttrs pull drive
  obtain ⟨a, ha⟩ : ∃ a : PinAttr, a = (normPull pull, normDrive drive) := ⟨_, rfl⟩
  have hname : groupName device pull drive = attrName device a := by
    rw [ha]
    exact (groupName_norm device pull drive).symm
  rw [← ha] at hmem ⊢
  rw [hname] at hnone
  have hzn := zero_not_mem_attrName hzd hmem
  have hlen' := attrName_length device hmem
  have hatn := atSign_not_mem_attrName hatd hmem
  have hpull : normPull pull = a.1 := by rw [ha]
  have hdrive : normDrive drive = a.2 := by rw [ha]
  have hr₁ := nodeRoom_attrName hlen hmem
  have hr₂ : propRoom strDrive 4 = 32 := by decide
  have hr₃ : propRoom strPull 4 = 31 := by decide
  have hr₄ := propRoom_function hlen
  have hr₅ : propRoom strPinctrlNames (strDefault ++ [0]).length = 34 := by decide
  have hr₆ : propRoom (pinctrlProp ngroup) 4 ≤ 26 := by
    have := pinctrlProp_length ngroup
    have h4 : align4 4 = 4 := by decide
    unfold propRoom
    omega
  unfold groupRoom at hroom ⊢
  unfold fdtNewGroup
  simp only [setpropU32, setpropString, appendpropString, hname, hpull, hdrive]
  refine Runs.bind (runs_addSubnode h hc hpo hzn hnone hfresh (by omega) fun ho hl => ?_)
  have hs₀ := sited_addFirst h.nodup h.rooted hpo hcd hres hatn hnone hfresh ho
  have hal := aliases_ne_new h.rooted hfresh
  have hn₀ := get?_addFirst_new (b := (⟨attrName device a, []⟩ : DtNode)) hcd.mem_left hfresh
  have hne := hs₀.ne_device
  have hz₁ : 0 ∉ strDrive := by decide
  have hz₂ : 0 ∉ strPull := by decide
  have hz₃ : 0 ∉ strFunction := by decide
  have hf₀ := hl.2
  rw [if_neg (by omega)]
  refine Runs.bind (runs_setprop_group hl.1 hs₀ hal hn₀ hz₁ ?_
    fun w₁ T₁ hT₁ hw₁ hs₁ hn₁ hf₁ => ?_)
  · rw [length_be32]
    omega
  rw [length_be32] at hf₁
  refine Runs.bind (runs_setprop_group hw₁ hs₁ hal hn₁ hz₂ ?_
    fun w₂ T₂ hT₂ hw₂ hs₂ hn₂ hf₂ => ?_)
  · rw [length_be32]
    omega
  rw [length_be32] at hf₂
  refine Runs.bind (runs_setprop_group hw₂ hs₂ hal hn₂ hz₃ (by omega)
    fun w₃ T₃ hT₃ hw₃ hs₃ hn₃ hf₃ => ?_)
  refine Runs.bind_bind (runs_appendprop_device hw₃ hs₃ hsafe hzp (by omega)
    fun w₄ T₄ hT₄ hw₄ hs₄ hf₄ => ?_)
  have hn₄ : T₄.get? new = _ := (congrArg (·.get? new) hT₄).trans
    ((get?_modify_of_ne hne hs₃.nodup _).trans hn₃)
  -- up to here no node has got a phandle
  have hphs : ∀ j, (T₄.get? j).map DtNode.phandle =
      ((T.addFirst c new ⟨attrName device a, []⟩).get? j).map DtNode.phandle := fun j => by
    rw [hT₄, phandles_modify hs₃.nodup (phandle_appendprop_of_ne (by decide) (by decide) _), hT₃,
      phandles_modify hs₂.nodup (phandle_setprop_of_ne (by decide) (by decide) _), hT₂,
      phandles_modify hs₁.nodup (phandle_setprop_of_ne (by decide) (by decide) _), hT₁,
      phandles_modify hs₀.nodup (phandle_setprop_of_ne (by decide) (by decide) _)]
  have hnew := (hphs new).trans (congrArg (Option.map DtNode.phandle) hn₀)
  have hold := fun (j : Nat) (hj : j ≠ new) => (hphs j).trans (congrArg (Option.map DtNode.phandle)
    (get?_addFirst_of_ne (b := (⟨attrName device a, []⟩ : DtNode)) (i := c) hj h.nodup))
  have hzero := hnew
  rw [hn₄, Option.map_some, Option.map_some, Option.some.injEq] at hzero
  refine Runs.bind (runs_createPhandle hw₄ hn₄ hs₄.group_offset hzero (by omega)
    fun ph w₅ hph hl₅ => ?_)
  have hbelow : PhandlesBelow 2147483647 T → PhandlesBelow 2147483647 T₄ := fun hlt j n hn => by
    by_cases hj : j = new
    · subst hj
      rw [hn, Option.map_some, Option.map_some, Option.some.injEq] at hnew
      exact hnew ▸ (by decide : (0 : Nat) < 2147483647)
    · have := hold j hj
      rw [hn, Option.map_some, eq_comm, Option.map_eq_some_iff] at this
      obtain ⟨n', hn', he⟩ := this
      exact he ▸ hlt j n' hn'
  have hs₅ := (hs₄.modify_group hal (keepsName_setprop strPhandle (be32 ph.toNat))).modify_group hal
    (keepsName_setprop strLinuxPhandle (be32 ph.toNat))
  have hf₅ := hl₅.2
  refine Runs.bind_bind (runs_setprop_device hl₅.1 hs₅ hsafe hzp ngroup ?_
    fun w₆ T₆ hT₆ hw₆ hs₆ hf₆ => ?_)
  · rw [length_be32]
    omega
  rw [length_be32] at hf₆
  refine Runs.pure ⟨rfl, ph, T₆, fun hlt => (hph (hbelow hlt)).of_phandles hfresh hnew hold, ?_,
    hs₆.group_offset, hw₆, by omega⟩
  rw [hT₆, hT₄, hT₃, hT₂, hT₁]
  simp only [modify_modify, newGroupTree]
  rw [modify_comm hne.symm, modify_modify, modify_modify]
  rfl

end NewGroup

theorem runs_appendPin {w : World} {T : DeviceTree} {target : Target} {id o : Nat} {n : DtNode}
    {Q : Int → World → Prop} (h : Repr w.fdt T) (hn : T.get? id = some n)
    (ho : DeviceTree.offset T id = some o) (g : Gpio) (hroom : 35 ≤ w.fdt.free.length)
    (hQ : ∀ w', Leaves w 35 (T.modify id (DtNode.appendprop strPins (g.pin ++ [0]))) w' → Q 0 w') :
    Runs (appendpropString target o strPins g.pin) w Q := by
  have hz : 0 ∉ strPins := by decide
  have hle : propRoom strPins (g.pin ++ [0]).length ≤ 35 := by
    have h₁ := pinName_length g.port g.portNum
    have h₂ := align4_mono (show (g.pin ++ [0]).length ≤ 5 by
      simp only [Gpio.pin, List.length_append, List.length_singleton]
      omega)
    have h₃ : align4 5 = 8 := by decide
    have h₄ : strPins.length = 14 := by decide
    unfold propRoom
    omega
  refine runs_appendprop h hn ho hz (by omega) fun hl => hQ _ ⟨hl.1, ?_⟩
  have := hl.2
  omega

section NewGroupTree

variable {T : DeviceTree} {c d new : Nat} {device : Bytes} {a : PinAttr} {ph : UInt32} {k : Nat}

theorem newGroupTree_nodup (hn : T.ids.Nodup) (hfresh : new ∉ T.ids) :
    (newGroupTree T c d new device a ph k).ids.Nodup := by
  unfold newGroupTree
  rw [ids_modify, ids_modify]
  exact nodup_addFirst hn hfresh _

theorem newGroupTree_rooted (h : Rooted T) : Rooted (newGroupTree T c d new device a ph k) :=
  ((h.update _ _).update _ _).update _ _

theorem newGroupTree_mem (hn : T.ids.Nodup) (hc : c ∈ T.ids) (j : Nat) :
    j ∈ (newGroupTree T c d new device a ph k).ids ↔ j = new ∨ j ∈ T.ids := by
  unfold newGroupTree
  rw [ids_modify, ids_modify]
  exact mem_ids_addFirst hn hc

variable (hn : T.ids.Nodup) (hfresh : new ∉ T.ids) (hd : d ∈ T.ids) (hc : c ∈ T.ids)

include hn hfresh

theorem newGroupTree_get?_other {j : Nat} (hjn : j ≠ new) (hjd : j ≠ d) :
    (newGroupTree T c d new device a ph k).get? j = T.get? j := by
  have h₀ : (T.addFirst c new (⟨attrName device a, []⟩ : DtNode)).ids.Nodup :=
    nodup_addFirst hn hfresh _
  unfold newGroupTree
  rw [get?_modify_of_ne hjd (by rw [ids_modify]; exact h₀), get?_modify_of_ne hjn h₀,
    get?_addFirst_of_ne hjn hn]

include hd

theorem newGroupTree_get?_device :
    (newGroupTree T c d new device a ph k).get? d = (T.get? d).map (referGroup k ph) := by
  have hdn : d ≠ new := fun e => hfresh (e ▸ hd)
  have h₀ : (T.addFirst c new (⟨attrName device a, []⟩ : DtNode)).ids.Nodup :=
    nodup_addFirst hn hfresh _
  unfold newGroupTree
  rw [get?_modify_self, get?_modify_of_ne hdn h₀, get?_addFirst_of_ne hdn hn]

include hc

theorem newGroupTree_get?_new : (newGroupTree T c d new device a ph k).get? new =
    some (setupGroup device a ph ⟨attrName device a, []⟩) := by
  have hdn : new ≠ d := fun e => hfresh (e ▸ hd)
  have h₀ : (T.addFirst c new (⟨attrName device a, []⟩ : DtNode)).ids.Nodup :=
    nodup_addFirst hn hfresh _
  unfold newGroupTree
  rw [get?_modify_of_ne hdn (by rw [ids_modify]; exact h₀), get?_modify_self,
    get?_addFirst_new hc hfresh, Option.map_some]

omit hd

theorem newGroupTree_kids (j : Nat) : (newGroupTree T c d new device a ph k).kids j =
    if j = c then new :: T.kids c else if j = new then [] else T.kids j := by
  have hcn : c ≠ new := fun e => hfresh (e ▸ hc)
  have h₀ : (T.addFirst c new (⟨attrName device a, []⟩ : DtNode)).ids.Nodup :=
    nodup_addFirst hn hfresh _
  unfold newGroupTree
  rw [kids_modify (by rw [ids_modify]; exact h₀), kids_modify h₀]
  by_cases hj : j = c
  · subst hj
    rw [if_pos rfl, kids_addFirst_self hc]
  · by_cases hjn : j = new
    · subst hjn
      rw [if_neg hj, if_pos rfl, kids_addFirst_new hc hfresh]
    · rw [if_neg hj, if_neg hjn, kids_addFirst_of_ne hj hjn hn]

theorem newGroupTree_childOf (s : Bytes) :
    (newGroupTree T c d new device a ph k).childOf c (DtNode.isNamed s) =
      if DtNode.nameMatches s (attrName device a) then some new
      else T.childOf c (DtNode.isNamed s) := by
  have h₀ : (T.addFirst c new (⟨attrName device a, []⟩ : DtNode)).ids.Nodup :=
    nodup_addFirst hn hfresh _
  unfold newGroupTree
  rw [childOf_modify (by rw [ids_modify]; exact h₀)
      ((keepsName_referGroup k ph).isNamed s),
    childOf_modify h₀ ((keepsName_setupGroup device a ph).isNamed s), childOf_addFirst_self hc]
  rfl

omit hc hfresh

theorem newGroupTree_precedes {x y : Nat} (h : T.Precedes x y) :
    (newGroupTree T c d new device a ph k).Precedes x y :=
  precedes_modify (precedes_modify (precedes_addFirst hn h _ _ _) _ _) _ _

theorem newGroupTree_between (hcd : T.Precedes c d) :
    (newGroupTree T c d new device a ph k).Precedes c new ∧
      (newGroupTree T c d new device a ph k).Precedes new d := by
  obtain ⟨h₁, h₂⟩ := precedes_addFirst_new hn (⟨attrName device a, []⟩ : DtNode) (n := new)
    hcd.mem_left
  exact ⟨precedes_modify (precedes_modify h₁ _ _) _ _,
    precedes_modify (precedes_modify (h₂ d hcd) _ _) _ _⟩

include hfresh

theorem newGroupTree_offset (hcd : T.Precedes c d) :
    DeviceTree.offset (newGroupTree T c d new device a ph k) c = DeviceTree.offset T c := by
  have h₀ : (T.addFirst c new (⟨attrName device a, []⟩ : DtNode)).ids.Nodup :=
    nodup_addFirst hn hfresh _
  obtain ⟨h₁, -⟩ := precedes_addFirst_new hn (⟨attrName device a, []⟩ : DtNode) (n := new)
    hcd.mem_left
  have h₂ := precedes_addFirst hn hcd c new (⟨attrName device a, []⟩ : DtNode)
  unfold newGroupTree DeviceTree.offset
  rw [Forest.modify, offset_update_of_precedes (by rw [ids_modify]; exact h₀)
      (Or.inl (precedes_modify h₂ _ _)), Forest.modify, offset_update_of_precedes h₀ (Or.inl h₁),
    addFirst, offset_update_of_precedes hn (Or.inr rfl)]

theorem newGroupTree_aliases (hr : Rooted T) (hat : atSign ∉ attrName device a) :
    DeviceTree.lookup (newGroupTree T c d new device a ph k) strAliases = T.lookup strAliases := by
  have h₀ : (T.addFirst c new (⟨attrName device a, []⟩ : DtNode)).ids.Nodup :=
    nodup_addFirst hn hfresh _
  unfold newGroupTree
  rw [lookup_modify (by rw [ids_modify]; exact h₀) (keepsName_referGroup k ph),
    lookup_modify h₀ (keepsName_setupGroup device a ph),
    lookup_addFirst_eq hr hn hfresh hat (attrName_not_mem_aliases device a)]

theorem newGroupTree_resolve (hr : Rooted T) (hat : atSign ∉ attrName device a)
    (hnone : T.childOf c (DtNode.isNamed (attrName device a)) = none) {path : Bytes} {x : Nat}
    (hsafe : AliasSafe path d (T.lookup strAliases)) (hx : T.resolve path = some x) :
    DeviceTree.resolve (newGroupTree T c d new device a ph k) path = some x := by
  have h₀ : (T.addFirst c new (⟨attrName device a, []⟩ : DtNode)).ids.Nodup :=
    nodup_addFirst hn hfresh _
  have hal : DeviceTree.lookup (T.addFirst c new (⟨attrName device a, []⟩ : DtNode)) strAliases =
      T.lookup strAliases :=
    lookup_addFirst_eq hr hn hfresh hat (attrName_not_mem_aliases device a)
  unfold newGroupTree
  refine resolve_modify (by rw [ids_modify]; exact h₀) (keepsName_referGroup k ph)
    (fun habs hd n _ _ => getprop_referGroup (hsafe habs ?_) k ph n)
    (resolve_modify h₀ (keepsName_setupGroup device a ph) (fun _ hnew => ?_)
      (resolve_addFirst hr hn hfresh hat hnone hx))
  · rwa [lookup_modify h₀ (keepsName_setupGroup device a ph), hal] at hd
  · exact absurd (hal.symm.trans hnew) (aliases_ne_new hr hfresh)

end NewGroupTree

end Babelfish
