import Babelfish.Lookups
import Babelfish.Steps
import Babelfish.Libfdt.Flatten
import Babelfish.Libfdt.Outcome

/-! What the results of the fixups say about the updates that they make. -/

namespace Babelfish

open Libfdt Bytes

namespace Op

inductive IsUpdate : Op → Prop
  | addSubnode (name : Bytes) : IsUpdate (.addSubnode name)
  | setprop (name val : Bytes) : IsUpdate (.setprop name val)
  | appendprop (name val : Bytes) : IsUpdate (.appendprop name val)

/-- The call can do its work on the blob as it is. -/
def Applicable (fdt : Fdt) (offset : Int) : Op → Prop
  | pathOffset path => 0 ≤ fdtPathOffset fdt path
  | addSubnode name => SubnodeFits fdt offset name
  | setprop name val => SetFits fdt offset name val
  | appendprop name val => AppendFits fdt offset name val
  | _ => True

/-- The updates whose result `fdt_fixup_machine` and `fdt_fixup_uarts` look at. -/
def IsChecked (op : Op) : Prop :=
  ∃ name ∈ [strCompatible, strModel, strStatus], ∃ val, op = .setprop name val

end Op

namespace Call

/-- An update, or the lookup of the pin controller for a group. -/
def Required (c : Call) : Prop := c.op.IsUpdate ∨ c.op = .pathOffset strPinctrlPath

def Checked (c : Call) : Prop := c.op.IsChecked

def Applicable (c : Call) : Prop := c.op.Applicable c.fdt c.offset

def Succeeds (c : Call) : Prop := 0 ≤ c.ret

theorem Checked.required {c : Call} (h : c.Checked) : c.Required := by
  obtain ⟨name, -, val, hop⟩ := h
  exact Or.inl (hop ▸ .setprop name val)

theorem setprop_succeeds {c : Call} {name val : Bytes} (h : c.op = .setprop name val) :
    c.ret ≤ 0 ∧ (c.Succeeds ↔ c.ret = 0) := by
  have hle := (fdtSetprop_ok c.fdt c.offset name val).1
  have hret : c.ret = (fdtSetprop c.fdt c.offset name val).1 := by rw [ret, h, Op.run]
  unfold Succeeds
  omega

theorem Required.succeeds_iff {c : Call} (h : c.Required) : c.Succeeds ↔ c.Applicable := by
  obtain ⟨target, op, fdt, offset⟩ := c
  rcases h with h | h
  · cases h with
    | addSubnode name => exact fdtAddSubnode_nonneg
    | setprop name val =>
      rw [(setprop_succeeds rfl).2]
      exact (fdtSetprop_ok fdt offset name val).2
    | appendprop name val =>
      obtain ⟨hle, hok⟩ := fdtAppendprop_ok fdt offset name val
      refine Iff.trans ?_ hok
      simp only [Succeeds, ret, Op.run]
      omega
  · obtain rfl : op = .pathOffset strPinctrlPath := h
    exact Iff.rfl

end Call

/-- The program only adds calls to the record, and none that is checked. -/
def Unchecked {α : Type} (m : Fixup α) : Prop :=
  ∀ w, Runs m w fun _ w' => ∃ cs, w'.calls = w.calls ++ cs ∧ ∀ c ∈ cs, ¬c.Checked

namespace Unchecked

variable {α β : Type}

theorem pure (a : α) : Unchecked (Pure.pure a : Fixup α) := Adds.pure (by simp) a

theorem get : Unchecked (MonadState.get : Fixup World) := Adds.get (by simp)

theorem bind {m : Fixup α} {f : α → Fixup β} (hm : Unchecked m) (hf : ∀ a, Unchecked (f a)) :
    Unchecked (m >>= f) :=
  Adds.bind (fun _ _ h h' c hc => (List.mem_append.mp hc).elim (h c) (h' c)) hm hf

theorem ite {p : Prop} [Decidable p] {m m' : Fixup α} (hm : Unchecked m) (hm' : Unchecked m') :
    Unchecked (if p then m else m') := Adds.ite hm hm'

theorem call {op : Op} (h : ¬op.IsChecked) (target : Target) (offset : Int) :
    Unchecked (Babelfish.call target op offset) := Adds.call fun fdt c hc => by
  rw [List.mem_singleton] at hc
  exact hc ▸ h

theorem setprop {name : Bytes} (h : name ∉ [strCompatible, strModel, strStatus]) (val : Bytes)
    (target : Target) (offset : Int) :
    Unchecked (Babelfish.call target (.setprop name val) offset) :=
  call (by rintro ⟨name', hmem, val', he⟩; cases he; exact h hmem) target offset

theorem appendprop (name val : Bytes) (target : Target) (offset : Int) :
    Unchecked (Babelfish.call target (.appendprop name val) offset) :=
  call (by rintro ⟨name', hmem, val', he⟩; cases he) target offset

theorem pathOffset (path : Bytes) : Unchecked (Babelfish.pathOffset path) :=
  call (by rintro ⟨name', hmem, val', he⟩; cases he) _ _

theorem appendBootargs (s : Bytes) : Unchecked (fdtFixupAppendBootargs s) := by
  have hset : ∀ offset : Int, Unchecked (if offset < 0 then Pure.pure offset else do
      let len ← Babelfish.call (.path strChosenPath) (.getprop strBootargs) offset
      let w ← MonadState.get
      let ret ← setpropString (.path strChosenPath) offset strBootargs (cstr (newBootargs len
        (((fdtGetprop w.fdt offset strBootargs).1.map (cstrAt w.fdt)).getD []) s))
      if ret < 0 then Pure.pure ret else Pure.pure 0) := fun offset =>
    ite (pure _) (bind (call (by simp [Op.IsChecked]) _ _) fun len => bind get fun w =>
      bind (setprop (by decide) _ _ _) fun ret => ite (pure _) (pure _))
  refine bind (pathOffset _) fun chosen => ?_
  exact ite (bind (call (by simp [Op.IsChecked]) _ _) hset) (bind (pure _) hset)

theorem createPhandle (target : Target) (offset : Int) :
    Unchecked (fdtCreatePhandle target offset) := by
  have hset : ∀ phandle, Unchecked (fdtSetPhandle target offset phandle) := fun phandle =>
    bind (setprop (by decide) _ _ _) fun ret => ite (pure _) (setprop (by decide) _ _ _)
  exact bind (call (by simp [Op.IsChecked]) _ _) fun phandle =>
    ite (bind get fun w => bind (hset _) fun ret => ite (pure _) (pure _)) (pure _)

theorem pinctrlProp_not_mem (ngroup : Nat) :
    pinctrlProp ngroup ∉ [strCompatible, strModel, strStatus] := by
  have hhead : (pinctrlProp ngroup).head? = some 112 := by
    unfold pinctrlProp catChar
    split <;> rfl
  have hall : ∀ s ∈ [strCompatible, strModel, strStatus], s.head? ≠ some 112 := by decide
  exact fun h => hall _ h hhead

theorem newGroup (pinctrlPath parentPath device : Bytes) (pctrlOffset : Int) (pull drive : UInt32)
    (ngroup : Nat) :
    Unchecked (fdtNewGroup pinctrlPath parentPath device pctrlOffset pull drive ngroup) := by
  refine bind (call (by simp [Op.IsChecked]) _ _) fun offset => ite (pure _) ?_
  refine bind (setprop (by decide) _ _ _) fun _ => bind (setprop (by decide) _ _ _) fun _ => ?_
  refine bind (setprop (by decide) _ _ _) fun _ => bind (pathOffset _) fun _ => ?_
  refine bind (appendprop _ _ _ _) fun _ => bind (createPhandle _ _) fun _ => ?_
  exact bind (pathOffset _) fun _ => bind (setprop (pinctrlProp_not_mem ngroup) _ _ _) fun _ => pure _

theorem groupLoop (pinctrlPath parentPath device : Bytes) (pctrlOffset : Int) (gpios : List Gpio)
    (ngroup : Nat) :
    Unchecked (Babelfish.groupLoop pinctrlPath parentPath device pctrlOffset gpios ngroup) := by
  induction gpios generalizing ngroup with
  | nil => exact pure 0
  | cons g gpios ih =>
    refine bind (call (by simp [Op.IsChecked]) _ _) fun offset => ite ?_ ?_
    · refine bind (newGroup _ _ _ _ _ _ _) fun offset => ite (pure _) ?_
      exact bind (appendprop _ _ _ _) fun _ => ih _
    · exact bind (appendprop _ _ _ _) fun _ => ih _

theorem addPinctrlGroup (pinctrlPath parentPath : Bytes) (gpios : List Gpio) (device : Bytes) :
    Unchecked (fdtAddPinctrlGroup pinctrlPath parentPath gpios device) :=
  bind (pathOffset _) fun _ => ite (pure _) (groupLoop _ _ _ _ _ _)

theorem fixupTag (tags : List UInt32) : Unchecked (Babelfish.fixupTag tags) := by
  refine ite (bind (appendBootargs _) fun _ => pure _) (ite (ite (pure _) ?_) (ite ?_ (pure _)))
  · exact bind (pathOffset _) fun _ => bind (setprop (by decide) _ _ _) fun _ => pure _
  · refine bind (pathOffset _) fun _ => bind (setprop (by decide) _ _ _) fun _ => ?_
    exact bind (setprop (by decide) _ _ _) fun _ => pure _

theorem tagLoop (fuel : Nat) (tags : List UInt32) : Unchecked (Babelfish.tagLoop fuel tags) := by
  induction fuel generalizing tags with
  | zero => exact pure _
  | succ fuel ih => exact ite (pure _) (bind (fixupTag tags) fun _ => ih _)

end Unchecked

/-- The program only adds calls to the record; its result is zero if the checked ones succeed, and
negative if one of them fails. -/
def Reports (m : Fixup Int) : Prop :=
  ∀ w, Runs m w fun r w' => ∃ cs, w'.calls = w.calls ++ cs ∧ r ≤ 0 ∧
    (r = 0 ↔ ∀ c ∈ cs, c.Checked → c.Succeeds)

namespace Reports

variable {α : Type}

theorem zero : Reports (Pure.pure 0) := fun _ =>
  Runs.pure ⟨[], (List.append_nil _).symm, Int.le_refl _, by simp⟩

theorem bind_unchecked {m : Fixup α} {f : α → Fixup Int} (hm : Unchecked m)
    (hf : ∀ a, Reports (f a)) : Reports (m >>= f) := by
  intro w
  refine Runs.bind ((hm w).mono ?_)
  rintro a w₁ ⟨cs, hcs, hno⟩
  refine (hf a w₁).mono ?_
  rintro r w₂ ⟨cs', hcs', hle, hr⟩
  refine ⟨cs ++ cs', by rw [hcs', hcs, List.append_assoc], hle, hr.trans ?_⟩
  simp only [List.mem_append, or_imp, forall_and]
  exact ⟨fun h => ⟨fun c hc hch => absurd hch (hno c hc), h⟩, fun h => h.2⟩

theorem bind_reads {m : Fixup α} {a : α} {f : α → Fixup Int} (hm : Reads m (some a))
    (hf : Reports (f a)) : Reports (m >>= f) := fun w => hm.runs rfl (hf w)

theorem seq {p : Int → Prop} [DecidablePred p] (hp : ∀ r ≤ 0, p r ↔ r ≠ 0) {m k : Fixup Int}
    (hm : Reports m) (hk : Reports k) : Reports (m >>= fun r => if p r then pure r else k) := by
  intro w
  refine Runs.bind ((hm w).mono ?_)
  rintro r w₁ ⟨cs, hcs, hle, hr⟩
  by_cases hz : r = 0
  · rw [if_neg (mt (hp r hle).mp (not_not.mpr hz))]
    refine (hk w₁).mono ?_
    rintro r' w₂ ⟨cs', hcs', hle', hr'⟩
    refine ⟨cs ++ cs', by rw [hcs', hcs, List.append_assoc], hle', hr'.trans ?_⟩
    simp only [List.mem_append, or_imp, forall_and]
    exact (and_iff_right (hr.mp hz)).symm
  · rw [if_pos ((hp r hle).mpr hz)]
    exact Runs.pure ⟨cs, hcs, hle, hr⟩

theorem setprop {name : Bytes} (h : name ∈ [strCompatible, strModel, strStatus]) (val : Bytes)
    (target : Target) (offset : Int) : Reports (call target (.setprop name val) offset) := by
  intro w
  have hchecked : Call.Checked ⟨target, .setprop name val, w.fdt, offset⟩ := ⟨name, h, val, rfl⟩
  obtain ⟨hle, hok⟩ := Call.setprop_succeeds (c := ⟨target, .setprop name val, w.fdt, offset⟩) rfl
  refine runs_call ⟨[⟨target, .setprop name val, w.fdt, offset⟩], rfl, hle, ?_⟩
  rw [List.forall_mem_singleton, hok]
  exact (imp_iff_right hchecked).symm

variable {script : Script}

theorem machine (h : (script.string strProduct strMachine).isSome) (compatible : Bytes) :
    Reports (fdtFixupMachine compatible script) := by
  obtain ⟨string, hstring⟩ := Option.isSome_iff_exists.mp h
  have hread := reads_string script strProduct strMachine
  rw [hstring] at hread
  refine seq (p := (· < 0)) (fun r hr => by omega) (setprop (by decide) _ _ _) ?_
  rw [← bind_assoc]
  refine bind_reads hread ?_
  exact seq (p := (· < 0)) (fun r hr => by omega) (setprop (by decide) _ _ _) zero

theorem uart {i : Nat} (h : UartOk script i) : Reports (fixupUart script i) := by
  obtain ⟨used, hused, htype⟩ := h
  have hread := reads_single script (uartPara i) strUartUsed
  rw [hused] at hread
  unfold fixupUart
  simp only
  rw [← bind_assoc]
  refine bind_reads hread ?_
  by_cases hu : used = 1
  · rw [if_neg (not_not.mpr hu)]
    obtain ⟨type, ht, hkeys⟩ := htype hu
    have hread := reads_single script (uartPara i) strUartType
    obtain ⟨pins, hpins⟩ := Option.isSome_iff_exists.mp ((isSome_pins _).mpr hkeys)
    rw [ht] at hread
    refine bind_unchecked (Unchecked.pathOffset _) fun offset => ?_
    refine seq (p := (· ≠ 0)) (fun r hr => Iff.rfl) (setprop (by decide) _ _ _) ?_
    rw [← bind_assoc]
    refine bind_reads hread (bind_reads (reads_uartGpios_of_pins hpins) ?_)
    split
    · exact zero
    · exact bind_unchecked (Unchecked.addPinctrlGroup _ _ _ _) fun _ => zero
  · rw [if_pos hu]
    exact zero

theorem uartLoop (is : List Nat) (h : ∀ i ∈ is, UartOk script i) :
    Reports (Babelfish.uartLoop script is) := by
  induction is with
  | nil => exact zero
  | cons i is ih =>
    exact seq (p := (· ≠ 0)) (fun r hr => Iff.rfl) (uart (h i List.mem_cons_self))
      (ih fun j hj => h j (List.mem_cons_of_mem _ hj))

theorem uarts (h : ScriptOk script) : Reports (fdtFixupUarts script) := by
  obtain ⟨port, hport⟩ := Option.isSome_iff_exists.mp h.port
  have hread := reads_single script strUartPara strUartDebugPort
  rw [hport] at hread
  unfold fdtFixupUarts
  rw [← bind_assoc]
  refine bind_reads hread (bind_unchecked (Unchecked.appendBootargs _) fun _ => ?_)
  exact uartLoop _ fun i hi => h.uarts i (List.mem_range.mp hi)

theorem fromFex (h : ScriptOk script) (compatible : Bytes) :
    Reports (fdtFixupFromFex compatible script) := by
  refine seq (p := (· ≠ 0)) (fun r hr => Iff.rfl) (machine h.machine compatible) ?_
  exact seq (p := (· ≠ 0)) (fun r hr => Iff.rfl) (uarts h) zero

end Reports

def AllMade (w : World) : Prop := ∀ c ∈ w.calls, c.Required → c.Succeeds

def quietScript : Script where
  sections :=
    ⟨strProduct, [⟨strMachine, .string (Bytes.ofString "board")⟩]⟩ ::
      ⟨strUartPara, [⟨strUartDebugPort, .single 0⟩]⟩ ::
      (List.range sunxiMaxUarts).map fun i => ⟨uartPara i, [⟨strUartUsed, .single 0⟩]⟩

def bareTree : DeviceTree := .node 0 ⟨[], []⟩ .nil .nil

theorem bareTree_repr : Repr (bareTree.blob 0) bareTree :=
  DeviceTree.repr_blob (by decide) (by decide) ⟨0, _, _, rfl⟩ (by decide)

/-- A memory bank without `/memory` is dropped, and the result is zero. -/
theorem bank_dropped :
    Runs (fdtFixupFromAtags [4, atagMem, 1, 0, 0, 0]) ⟨bareTree.blob 0, []⟩ fun r w' =>
      r = 0 ∧ ¬AllMade w' := by
  have hz : 0 ∉ strMemoryPath := by decide
  have habs : strMemoryPath.head? = some slash := by decide
  have hneg : errNotFound < 0 := by simp [errNotFound]
  have hnone : bareTree.lookup strMemoryPath = none := by decide
  refine Runs.bind (Runs.bind (Runs.bind (runs_pathOffset_none bareTree_repr hz habs hnone
    (Runs.bind (runs_setprop_of_neg hneg (Runs.pure (Runs.pure (Runs.pure ⟨rfl, fun hall => ?_⟩))))))))
  have hsucc : (0 : Int) ≤ (fdtSetprop _ errNotFound strReg (memReg 0 1)).1 :=
    hall _ List.mem_concat_self (Or.inl (.setprop strReg (memReg 0 1)))
  rw [fdtSetprop_of_neg hneg] at hsucc
  simp [errBadOffset] at hsucc

end Babelfish
