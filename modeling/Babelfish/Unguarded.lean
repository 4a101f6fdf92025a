import Babelfish.Reported
import Babelfish.Chosen
import Babelfish.Steps

/-! The lookups of the fixup from the script are not guarded: a script on which the fixup faults on no
tree holds everything that could be looked up. -/

namespace Babelfish

open Libfdt Bytes Forest DeviceTree

def serialPath (i : Nat) : Bytes := catChar strSerial (uartIdx i)

/-- Every UART can be found and has its status already; there is `/chosen` and no pinctrl node. -/
structure Ready (T : DeviceTree) : Prop where
  serial : ∀ i < sunxiMaxUarts, ∃ id n, T.resolve (serialPath i) = some id ∧ T.get? id = some n ∧
    n.getprop strStatus = some (strOkay ++ [0])
  chosen : T.lookup strChosenPath ≠ none
  pinctrl : T.lookup strPinctrlPath = none

def ReadyWorld (w : World) : Prop := ∃ T, Repr w.fdt T ∧ Ready T

theorem serialPath_facts : ∀ i < sunxiMaxUarts, 0 ∉ serialPath i ∧
    (serialPath i).head? ≠ some slash ∧ (serialPath i).takeWhile (· ≠ slash) = serialPath i := by
  decide

def Unseen (name val : Bytes) : Prop :=
  (∀ i < sunxiMaxUarts, name ≠ serialPath i) ∧ (name = strStatus → val = strOkay ++ [0])

instance (name val : Bytes) : Decidable (Unseen name val) := by
  unfold Unseen
  infer_instance

section

variable {T : DeviceTree}

theorem Ready.setprop (h : Ready T) (hn : T.ids.Nodup) {name val : Bytes} (hu : Unseen name val)
    (i : Nat) : Ready (T.modify i (DtNode.setprop name val)) where
  serial k hk := by
    obtain ⟨id, n, hid, hget, hstatus⟩ := h.serial k hk
    obtain ⟨-, -, htake⟩ := serialPath_facts k hk
    have hres := resolve_modify hn (keepsName_setprop name val) (i := i) (fun _ _ m _ _ => by
      rw [htake]
      exact DtNode.getprop_setprop_of_ne (hu.1 k hk).symm _ _) hid
    by_cases he : id = i
    · subst he
      refine ⟨id, n.setprop name val, hres, by rw [get?_modify_self, hget, Option.map_some], ?_⟩
      by_cases hs : name = strStatus
      · rw [hs, DtNode.getprop_setprop_self, hu.2 hs]
      · rw [DtNode.getprop_setprop_of_ne (Ne.symm hs), hstatus]
    · exact ⟨id, n, hres, by rw [get?_modify_of_ne he hn, hget], hstatus⟩
  chosen := by
    rw [lookup_modify hn (keepsName_setprop name val)]
    exact h.chosen
  pinctrl := by rw [lookup_modify hn (keepsName_setprop name val), h.pinctrl]

end

section

variable {w : World} {T : DeviceTree} {script : Script}

theorem ready_setprop (h : Repr w.fdt T) (hr : Ready T) {id o : Nat} {n : DtNode}
    (hn : T.get? id = some n) (ho : DeviceTree.offset T id = some o) {name val : Bytes}
    (hz : 0 ∉ name) (hu : Unseen name val) (target : Target) :
    ReadyWorld (w.call target (.setprop name val) o) := by
  obtain ⟨-, h', -⟩ | ⟨-, h', -⟩ := h.setprop hn ho hz val
  · exact ⟨_, h', hr.setprop h.nodup hu id⟩
  · exact ⟨T, h', hr⟩

theorem ready_appendBootargs (h : ReadyWorld w) (s : Bytes) :
    Runs (fdtFixupAppendBootargs s) w fun _ w' => ReadyWorld w' := by
  obtain ⟨T, h, hr⟩ := h
  have habs : strChosenPath.head? = some slash := by decide
  obtain ⟨id, hc⟩ := Option.ne_none_iff_exists'.mp hr.chosen
  obtain ⟨n, hn⟩ := get?_of_mem (walk_mem h.rooted.root_mem hc)
  obtain ⟨o, ho⟩ := DeviceTree.offset_isSome (mem_of_get? hn)
  have hpos : ¬((o : Int) < 0) := by omega
  unfold fdtFixupAppendBootargs
  refine Runs.bind (runs_pathOffset h (by decide) (by rw [resolve, if_pos habs, hc]) ho ?_)
  rw [if_neg hpos]
  refine Runs.bind (Runs.pure ?_)
  beta_reduce
  rw [if_neg hpos]
  refine Runs.bind (runs_call (Runs.bind (Runs.get (Runs.bind (runs_call ?_)))))
  have hserial : ∀ i < sunxiMaxUarts, strBootargs ≠ serialPath i := by decide
  have hne : strBootargs ≠ strStatus := by decide
  have hset : ∀ val, ReadyWorld (((w.call .root (.pathOffset strChosenPath) 0).call
      (.path strChosenPath) (.getprop strBootargs) o).call (.path strChosenPath)
        (.setprop strBootargs val) o) := fun val =>
    ready_setprop (w := (w.call .root (.pathOffset strChosenPath) 0).call (.path strChosenPath)
      (.getprop strBootargs) o) h hr hn ho (by decide) ⟨hserial, fun e => absurd e hne⟩ _
  split
  · exact Runs.pure (hset _)
  · exact Runs.pure (hset _)

def uartPins (script : Script) (i : Nat) : Fixup Int :=
  (scriptFindEntry (scriptFindSection script (uartPara i)) strUartType >>= entryValue) >>= fun type =>
    uartGpios (scriptFindSection script (uartPara i)) type >>= fun gpios =>
      match gpios with
      | none => pure 0
      | some gpios => do
        let _ ← fdtAddPinctrlGroup strPinctrlPath (serialPath i) gpios (catChar strUart (uartIdx i))
        pure 0

theorem fixupUart_eq (script : Script) (i : Nat) : fixupUart script i =
    (scriptFindEntry (scriptFindSection script (uartPara i)) strUartUsed >>= entryValue) >>= fun used =>
      if used ≠ 1 then pure 0
      else pathOffset (serialPath i) >>= fun offset =>
        setpropString (.path (serialPath i)) offset strStatus strOkay >>= fun ret =>
          if ret ≠ 0 then pure ret else uartPins script i := by
  simp only [fixupUart, uartPins, bind_assoc]
  rfl

theorem ready_uartPins (h : ReadyWorld w) {i : Nat} {type : UInt32}
    (ht : script.single (uartPara i) strUartType = some type)
    (hkeys : ∀ key ∈ uartKeys type, (script.pin (uartPara i) key).isSome) :
    Runs (uartPins script i) w fun r w' => r = 0 ∧ ReadyWorld w' := by
  obtain ⟨T, h, hr⟩ := h
  obtain ⟨pins, hpins⟩ := Option.isSome_iff_exists.mp ((isSome_pins _).mpr hkeys)
  have hneg : errNotFound < 0 := by simp [errNotFound]
  refine (reads_single script (uartPara i) strUartType).runs ht
    ((reads_uartGpios_of_pins hpins).runs rfl ?_)
  split
  · exact Runs.pure ⟨rfl, T, h, hr⟩
  · refine Runs.bind ?_
    unfold fdtAddPinctrlGroup
    refine Runs.bind (runs_pathOffset_none h (by decide) (by decide) hr.pinctrl ?_)
    rw [if_pos hneg]
    exact Runs.pure (Runs.pure ⟨rfl, T, h, hr⟩)

theorem uartPins_fails {i : Nat} (hno : ∀ type ∈ script.single (uartPara i) strUartType,
    ¬∀ key ∈ uartKeys type, (script.pin (uartPara i) key).isSome) :
    ∃ e, Fails (uartPins script i) w e := by
  have htype := reads_single script (uartPara i) strUartType
  cases ht : script.single (uartPara i) strUartType with
  | none => exact htype.fails ht
  | some type =>
    have hmissing := hno type ht
    have hpins : script.pins (uartPara i) (uartKeys type) = none := by
      rw [← isSome_pins, Option.not_isSome_iff_eq_none] at hmissing
      exact hmissing
    have hkeys : uartKeys type ≠ [] := fun e => by
      rw [e] at hpins
      cases hpins
    refine htype.fails_right ht ((reads_uartGpios type).fails ?_)
    rw [if_neg hkeys, gpiosOf, hpins]
    rfl

theorem ready_fixupUart (h : ReadyWorld w) {i : Nat} (hi : i < sunxiMaxUarts) :
    (UartOk script i → Runs (fixupUart script i) w fun r w' => r = 0 ∧ ReadyWorld w') ∧
      (¬UartOk script i → ∃ e, Fails (fixupUart script i) w e) := by
  obtain ⟨T, h, hr⟩ := h
  have hused := reads_single script (uartPara i) strUartUsed
  obtain ⟨id, n, hid, hget, hstatus⟩ := hr.serial i hi
  obtain ⟨o, ho⟩ := DeviceTree.offset_isSome (mem_of_get? hget)
  obtain ⟨hz, -, -⟩ := serialPath_facts i hi
  have hserial : ∀ i < sunxiMaxUarts, strStatus ≠ serialPath i := by decide
  have hzs : 0 ∉ strStatus := by decide
  have hw : Repr (w.call .root (.pathOffset (serialPath i)) 0).fdt T := h
  have hready := ready_setprop hw hr hget ho hzs ⟨hserial, fun _ => rfl⟩ (.path (serialPath i))
  have hroom : setRoom n strStatus (strOkay ++ [0]).length ≤
      (w.call .root (.pathOffset (serialPath i)) 0).fdt.free.length := by
    simp only [setRoom, hstatus, Nat.sub_self, Nat.zero_le]
  rw [fixupUart_eq]
  cases hu : script.single (uartPara i) strUartUsed with
  | none =>
    refine ⟨fun hok => ?_, fun _ => hused.fails hu⟩
    obtain ⟨used, hmem, -⟩ := hok
    rw [hu] at hmem
    cases hmem
  | some used =>
    by_cases hone : used = 1
    · have hone' : ¬used ≠ 1 := not_not.mpr hone
      have hok : UartOk script i ↔ ∃ type ∈ script.single (uartPara i) strUartType,
          ∀ key ∈ uartKeys type, (script.pin (uartPara i) key).isSome := by
        unfold UartOk
        rw [hu]
        simp [hone]
      rw [hok]
      refine ⟨fun hex => hused.runs hu ?_, fun hno => hused.fails_right hu ?_⟩
      · obtain ⟨type, ht, hkeys⟩ := hex
        rw [if_neg hone']
        refine Runs.bind (runs_pathOffset h hz hid ho (Runs.bind (runs_setprop hw hget ho hzs hroom
          fun _ => ?_)))
        rw [if_neg (not_not.mpr rfl)]
        exact ready_uartPins hready ht hkeys
      · obtain ⟨e, he⟩ := uartPins_fails (w := (w.call .root (.pathOffset (serialPath i)) 0).call
          (.path (serialPath i)) (.setprop strStatus (strOkay ++ [0])) o)
          fun type ht hkeys => hno ⟨type, ht, hkeys⟩
        rw [if_neg hone']
        refine ⟨e, Fails.bind_right (runs_pathOffset h hz hid ho (Fails.bind_right (runs_setprop hw hget
          ho hzs hroom fun _ => ?_)))⟩
        rw [if_neg (not_not.mpr rfl)]
        exact he
    · refine ⟨fun _ => hused.runs hu ?_, fun hno => absurd ⟨used, hu, fun e => absurd e hone⟩ hno⟩
      rw [if_pos hone]
      exact Runs.pure ⟨rfl, T, h, hr⟩

theorem ready_uartLoop (is : List Nat) (his : ∀ i ∈ is, i < sunxiMaxUarts) (h : ReadyWorld w)
    (hno : ∃ i ∈ is, ¬UartOk script i) : ∃ e, Fails (uartLoop script is) w e := by
  induction is generalizing w with
  | nil =>
    obtain ⟨i, hi, -⟩ := hno
    cases hi
  | cons i is ih =>
    have hround := @ready_fixupUart _ script h _ (his i List.mem_cons_self)
    unfold uartLoop
    by_cases hok : UartOk script i
    · have hrest : ∃ i ∈ is, ¬UartOk script i := by
        obtain ⟨j, hj, hno⟩ := hno
        obtain rfl | hj := List.mem_cons.mp hj
        · exact absurd hok hno
        · exact ⟨j, hj, hno⟩
      obtain ⟨r, w', hrun, rfl, hw'⟩ := hround.1 hok
      obtain ⟨e, he⟩ := ih (fun j hj => his j (List.mem_cons_of_mem _ hj)) hw' hrest
      refine ⟨e, Fails.bind_right ⟨0, w', hrun, ?_⟩⟩
      beta_reduce
      rwa [if_neg (not_not.mpr rfl)]
    · obtain ⟨e, he⟩ := hround.2 hok
      exact ⟨e, he.bind_left⟩

theorem unseen_machine (val : Bytes) : Unseen strCompatible val ∧ Unseen strModel val := by
  have hserial : ∀ i < sunxiMaxUarts, strCompatible ≠ serialPath i ∧ strModel ≠ serialPath i := by
    decide
  have hne : strCompatible ≠ strStatus ∧ strModel ≠ strStatus := by decide
  exact ⟨⟨fun i hi => (hserial i hi).1, fun e => absurd e hne.1⟩,
    fun i hi => (hserial i hi).2, fun e => absurd e hne.2⟩

theorem ready_setString (h : Repr w.fdt T) (hr : Ready T) {name : Bytes} (hz : 0 ∉ name)
    (hu : ∀ val, Unseen name val) (str : Bytes)
    (hroom : propRoom name (str.length + 1) ≤ w.fdt.free.length) :
    Runs (setpropString .root 0 name str) w fun r w' => r = 0 ∧ ∃ T', Repr w'.fdt T' ∧ Ready T' ∧
      w.fdt.free.length ≤ w'.fdt.free.length + propRoom name (str.length + 1) := by
  obtain ⟨n, hn⟩ := get?_of_mem h.root_mem
  have hlen : (str ++ [0]).length = str.length + 1 := by simp
  have hle := setRoom_le n name (str ++ [0]).length
  rw [hlen] at hle
  unfold setpropString
  refine runs_setprop h hn h.offset_root hz (by rw [hlen]; omega) fun hl => ?_
  have hfree := hl.2
  rw [hlen] at hfree
  exact ⟨rfl, _, hl.1, hr.setprop h.nodup (hu _) _, by omega⟩

theorem ready_machine (h : Repr w.fdt T) (hr : Ready T) {string : Bytes}
    (hs : script.string strProduct strMachine = some string)
    (hroom : string.length + 64 ≤ w.fdt.free.length) :
    Runs (fdtFixupMachine [] script) w fun r w' => r = 0 ∧ ReadyWorld w' := by
  have hzero : ¬((0 : Int) < 0) := by omega
  have hc : propRoom strCompatible ([] : Bytes).length.succ = 27 := by decide
  have hm : strModel.length = 5 := by decide
  have hcstr : (cstr string).length ≤ string.length := by
    rw [← take_strlen]
    exact List.length_take_le' _ _
  have halign : align4 ((cstr string).length + 1) ≤ string.length + 4 := by unfold align4; omega
  unfold fdtFixupMachine
  refine Runs.bind ((ready_setString h hr (by decide) (fun val => (unseen_machine val).1) []
    (by rw [hc]; omega)).mono ?_)
  rintro r w₁ ⟨rfl, T₁, h₁, hr₁, hfree⟩
  rw [hc] at hfree
  rw [if_neg hzero, ← bind_assoc]
  refine (reads_string script strProduct strMachine).runs hs ?_
  refine Runs.bind ((ready_setString h₁ hr₁ (by decide) (fun val => (unseen_machine val).2) (cstr string)
    (by unfold propRoom; omega)).mono ?_)
  rintro r w₂ ⟨rfl, T₂, h₂, hr₂, -⟩
  rw [if_neg hzero]
  exact Runs.pure ⟨rfl, T₂, h₂, hr₂⟩

theorem machine_fails (h : Repr w.fdt T) (hr : Ready T)
    (hs : script.string strProduct strMachine = none) (hroom : 64 ≤ w.fdt.free.length) :
    ∃ e, Fails (fdtFixupMachine [] script) w e := by
  have hzero : ¬((0 : Int) < 0) := by omega
  have hc : propRoom strCompatible ([] : Bytes).length.succ = 27 := by decide
  obtain ⟨r, w₁, hrun, rfl, -⟩ := ready_setString h hr (by decide)
    (fun val => (unseen_machine val).1) [] (by rw [hc]; omega)
  obtain ⟨e, he⟩ := (reads_string script strProduct strMachine).fails (w := w₁) hs (f := fun string =>
    setpropString .root 0 strModel (cstr string) >>= fun ret => if ret < 0 then pure ret else pure 0)
  refine ⟨e, Fails.bind_right ⟨0, w₁, hrun, ?_⟩⟩
  beta_reduce
  rw [if_neg hzero, ← bind_assoc]
  exact he

end

def readyTree : DeviceTree :=
  .node 0 ⟨[], []⟩
    (.node 1 ⟨strAliases.tail, (List.range sunxiMaxUarts).map fun i =>
        (serialPath i, Bytes.ofString "/uart" ++ [0])⟩ .nil
      (.node 2 ⟨strUart, [(strStatus, strOkay ++ [0])]⟩ .nil
        (.node 3 ⟨strChosen, []⟩ .nil .nil))) .nil

theorem readyTree_repr {room : Nat} (h : room ≤ 2000000000) : Repr (readyTree.blob room) readyTree := by
  have hsize : readyTree.size DtNode.openSize 4 + 4 + readyTree.stringTable.length ≤ 1000 := by decide
  exact DeviceTree.repr_blob (by decide) (by decide) ⟨0, _, _, rfl⟩ (by omega)

theorem readyTree_ready : Ready readyTree where
  serial i hi := by
    have h : ∀ i < sunxiMaxUarts, readyTree.resolve (serialPath i) = some 2 := by decide
    exact ⟨2, _, h i hi, rfl, by decide⟩
  chosen := by decide
  pinctrl := by decide

def readyBlob (script : Script) : Fdt :=
  readyTree.blob (((script.string strProduct strMachine).getD []).length + 64)

theorem readyBlob_repr {script : Script}
    (hlen : ∀ s ∈ script.string strProduct strMachine, s.length < 2 ^ 30) :
    Repr (readyBlob script) readyTree := by
  refine readyTree_repr ?_
  cases hs : script.string strProduct strMachine with
  | none => decide
  | some s =>
    have hle := hlen s hs
    rw [Option.getD_some]
    omega

theorem fromFex_fails {script : Script} (hno : ¬ScriptOk script)
    (hlen : ∀ s ∈ script.string strProduct strMachine, s.length < 2 ^ 30) :
    ∃ e, Fails (fdtFixupFromFex [] script) ⟨readyBlob script, []⟩ e := by
  have hrepr := readyBlob_repr hlen
  have hfree : (readyBlob script).free.length =
      ((script.string strProduct strMachine).getD []).length + 64 := List.length_replicate
  unfold fdtFixupFromFex
  cases hs : script.string strProduct strMachine with
  | none =>
    obtain ⟨e, he⟩ := machine_fails (w := ⟨readyBlob script, []⟩) hrepr readyTree_ready hs
      (by rw [hfree]; omega)
    exact ⟨e, he.bind_left⟩
  | some string =>
    rw [hs, Option.getD_some] at hfree
    obtain ⟨r, w, hrun, rfl, hw⟩ := ready_machine (w := ⟨readyBlob script, []⟩) hrepr readyTree_ready hs
      (Nat.le_of_eq hfree.symm)
    suffices h : ∃ e, Fails (fdtFixupUarts script) w e by
      obtain ⟨e, he⟩ := h
      refine ⟨e, Fails.bind_right ⟨0, w, hrun, ?_⟩⟩
      beta_reduce
      rw [if_neg (not_not.mpr rfl)]
      exact he.bind_left
    have hport := reads_single script strUartPara strUartDebugPort
    unfold fdtFixupUarts
    rw [← bind_assoc]
    cases hp : script.single strUartPara strUartDebugPort with
    | none => exact hport.fails hp
    | some port =>
      refine hport.fails_right hp ?_
      obtain ⟨r, w', hrun', hw'⟩ :=
        ready_appendBootargs hw (catChar strConsole (48 + port).toUInt8 ++ strBaud)
      have hmissing : ∃ i ∈ List.range sunxiMaxUarts, ¬UartOk script i := by
        by_contra hall
        refine hno ⟨by rw [hs]; rfl, by rw [hp]; rfl, fun i hi => ?_⟩
        by_contra hi'
        exact hall ⟨i, List.mem_range.mpr hi, hi'⟩
      obtain ⟨e, he⟩ := ready_uartLoop _ (fun i hi => List.mem_range.mp hi) hw' hmissing
      exact ⟨e, Fails.bind_right ⟨r, w', hrun', he⟩⟩

/-- The fixup faults on no tree just if the script holds everything that is looked up. -/
theorem fdtFixupFromFex_safe_iff {script : Script}
    (hlen : ∀ s ∈ script.string strProduct strMachine, s.length < 2 ^ 30) :
    (∀ compatible fdt T, Repr fdt T → ∀ e, ¬Fails (fdtFixupFromFex compatible script) ⟨fdt, []⟩ e) ↔
      ScriptOk script := by
  constructor
  · intro hsafe
    by_contra hno
    obtain ⟨e, he⟩ := fromFex_fails hno hlen
    exact hsafe [] _ _ (readyBlob_repr hlen) e he
  · intro hok compatible fdt T _ e
    exact (Reports.fromFex hok compatible ⟨fdt, []⟩).not_fails e

theorem fdtFixupFromFex_safe_iff_quiet :
    (∀ compatible fdt T, Repr fdt T → ∀ e,
      ¬Fails (fdtFixupFromFex compatible quietScript) ⟨fdt, []⟩ e) ↔ ScriptOk quietScript :=
  fdtFixupFromFex_safe_iff (by decide)

def sevenUarts : Script := ⟨quietScript.sections.dropLast⟩

theorem sevenUarts_fails : ∃ e, Fails (fdtFixupFromFex [] sevenUarts) ⟨readyBlob sevenUarts, []⟩ e :=
  fromFex_fails (by decide) (by decide)

end Babelfish
