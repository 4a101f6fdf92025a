import Babelfish.Lib.Decimal
import Babelfish.Unguarded

/-! How the pins of a group are spelled. -/

namespace Babelfish

open Libfdt Bytes DeviceTree

/-- A pin as the device tree spells it: `P`, the letter of the bank and the decimal number. -/
def pinSpelling (port portNum : UInt32) : Bytes :=
  Bytes.ofString "P" ++ UInt8.ofNat (64 + port.toNat) :: decimal portNum.toNat

def IsBank (port : UInt32) : Prop := 0 < port.toNat ∧ port.toNat ≤ 13

instance (port : UInt32) : Decidable (IsBank port) := inferInstanceAs (Decidable (_ ∧ _))

section

variable {port portNum : UInt32}

theorem toUInt8_letter (h : IsBank port) : (65 + port - 1).toUInt8 = UInt8.ofNat (64 + port.toNat) := by
  obtain ⟨hpos, hle⟩ := h
  have hnat : (65 + port - 1).toNat = 64 + port.toNat := by
    rw [UInt32.toNat_sub, UInt32.toNat_add]
    simp only [UInt32.reduceToNat]
    omega
  rw [← UInt8.toNat_inj, UInt32.toNat_toUInt8, UInt8.toNat_ofNat', hnat]

theorem toUInt8_ones : (48 + portNum % 10).toUInt8 = digit (portNum.toNat % 10) := by
  rw [← UInt8.toNat_inj, UInt32.toNat_toUInt8, UInt32.toNat_add, UInt32.toNat_mod,
    toNat_digit (Nat.mod_lt _ (by decide))]
  simp only [UInt32.reduceToNat]
  omega

theorem toUInt8_tens (h : portNum.toNat < 100) :
    (48 + portNum / 10).toUInt8 = digit (portNum.toNat / 10) := by
  rw [← UInt8.toNat_inj, UInt32.toNat_toUInt8, UInt32.toNat_add, UInt32.toNat_div,
    toNat_digit (by omega)]
  simp only [UInt32.reduceToNat]
  omega

theorem pinName_eq (h : IsBank port) : pinName port portNum =
    Bytes.ofString "P" ++ UInt8.ofNat (64 + port.toNat) ::
      (catChar [] (48 + portNum / 10).toUInt8 ++ [digit (portNum.toNat % 10)]) := by
  have hletter : UInt8.ofNat (64 + port.toNat) ≠ 0 := fun h0 => by
    have hnat := congrArg UInt8.toNat h0
    rw [UInt8.toNat_ofNat'] at hnat
    obtain ⟨hpos, hle⟩ := h
    simp at hnat
    omega
  have hones : digit (portNum.toNat % 10) ≠ 0 := fun h0 => by
    have hnat := congrArg UInt8.toNat h0
    rw [toNat_digit (Nat.mod_lt _ (by decide))] at hnat
    simp at hnat
  rw [pinName, toUInt8_letter h, toUInt8_ones]
  unfold catChar
  rw [if_neg hletter, if_neg hones]
  split <;> simp

theorem pinName_eq_spelling_iff (h : IsBank port) :
    pinName port portNum = pinSpelling port portNum ↔ 10 ≤ portNum.toNat ∧ portNum.toNat < 100 := by
  rw [pinName_eq h, pinSpelling, List.append_cancel_left_eq, List.cons_inj_right]
  constructor
  · intro heq
    have hlen := congrArg List.length heq
    rw [List.length_append, List.length_singleton] at hlen
    have hle : (decimal portNum.toNat).length ≤ 2 := by
      unfold catChar at hlen
      split at hlen <;> simp at hlen <;> omega
    have hlt := (length_decimal_le (by decide)).mp hle
    refine ⟨Nat.le_of_not_lt fun hsmall => ?_, hlt⟩
    have hzero : digit (portNum.toNat / 10) ≠ 0 := by
      rw [Nat.div_eq_of_lt hsmall]
      decide
    rw [toUInt8_tens hlt, catChar, if_neg hzero, decimal_of_lt hsmall] at hlen
    simp at hlen
  · rintro ⟨hle, hlt⟩
    have hzero : digit (portNum.toNat / 10) ≠ 0 := fun h0 => by
      have hnat := congrArg UInt8.toNat h0
      rw [toNat_digit (by omega)] at hnat
      simp at hnat
    rw [toUInt8_tens hlt, catChar, if_neg hzero, decimal_of_le hle, decimal_of_lt (by omega),
      List.nil_append]

theorem pinSpelling_inj {port' portNum' : UInt32} (h : IsBank port) (h' : IsBank port')
    (heq : pinSpelling port portNum = pinSpelling port' portNum') :
    port = port' ∧ portNum = portNum' := by
  obtain ⟨-, hle⟩ := h
  obtain ⟨-, hle'⟩ := h'
  obtain ⟨hletter, hnum⟩ := List.cons.inj (List.append_cancel_left heq)
  have hnat := congrArg UInt8.toNat hletter
  rw [UInt8.toNat_ofNat', UInt8.toNat_ofNat'] at hnat
  refine ⟨UInt32.toNat_inj.mp (by omega), UInt32.toNat_inj.mp (decimal_injective hnum)⟩

end

def Call.pins (c : Call) : Option Bytes :=
  match c.op with
  | .appendprop name val => if name = strPins then some val else none
  | _ => none

def pinsAppended (cs : List Call) : List Bytes := cs.filterMap Call.pins

theorem pinsAppended_append (cs cs' : List Call) :
    pinsAppended (cs ++ cs') = pinsAppended cs ++ pinsAppended cs' := List.filterMap_append

def NoPins {α : Type} (m : Fixup α) : Prop := Adds (fun cs => pinsAppended cs = []) m

namespace NoPins

variable {α β : Type}

theorem pure (a : α) : NoPins (Pure.pure a : Fixup α) :=
  Adds.pure (P := fun cs => pinsAppended cs = []) rfl a

theorem get : NoPins (MonadState.get : Fixup World) :=
  Adds.get (P := fun cs => pinsAppended cs = []) rfl

theorem bind {m : Fixup α} {f : α → Fixup β} (hm : NoPins m) (hf : ∀ a, NoPins (f a)) :
    NoPins (m >>= f) :=
  Adds.bind (fun cs cs' h h' => by rw [pinsAppended_append, h, h', List.append_nil]) hm hf

theorem ite {p : Prop} [Decidable p] {m m' : Fixup α} (hm : NoPins m) (hm' : NoPins m') :
    NoPins (if p then m else m') := Adds.ite hm hm'

theorem call {op : Op} (h : ∀ val, op ≠ .appendprop strPins val) (target : Target) (offset : Int) :
    NoPins (Babelfish.call target op offset) := Adds.call fun fdt => by
  have hnone : Call.pins ⟨target, op, fdt, offset⟩ = none := by
    unfold Call.pins
    split
    · rename_i name val hop
      exact if_neg fun hname : name = strPins => h val (hname ▸ hop)
    · rfl
  rw [pinsAppended, List.filterMap_cons_none hnone, List.filterMap_nil]

theorem pathOffset (path : Bytes) : NoPins (Babelfish.pathOffset path) := call (by simp) _ _

theorem createPhandle (target : Target) (offset : Int) : NoPins (fdtCreatePhandle target offset) := by
  have hset : ∀ phandle, NoPins (fdtSetPhandle target offset phandle) := fun phandle =>
    bind (call (by simp) _ _) fun ret => ite (pure _) (call (by simp) _ _)
  exact bind (call (by simp) _ _) fun phandle =>
    ite (bind get fun w => bind (hset _) fun ret => ite (pure _) (pure _)) (pure _)

theorem newGroup (pinctrlPath parentPath device : Bytes) (pctrlOffset : Int) (pull drive : UInt32)
    (ngroup : Nat) :
    NoPins (fdtNewGroup pinctrlPath parentPath device pctrlOffset pull drive ngroup) := by
  refine bind (call (by simp) _ _) fun offset => ite (pure _) ?_
  refine bind (call (by simp) _ _) fun _ => bind (call (by simp) _ _) fun _ => ?_
  refine bind (call (by simp) _ _) fun _ => bind (pathOffset _) fun _ => ?_
  refine bind (call (fun val h => ?_) _ _) fun _ => bind (createPhandle _ _) fun _ => ?_
  · cases h
  · exact bind (pathOffset _) fun _ => bind (call (by simp) _ _) fun _ => pure _

end NoPins

def Gpio.pinString (g : Gpio) : Bytes := pinName g.port g.portNum ++ [0]

/-- The pins that calls append are those of the first of some GPIOs, of all of them unless the result is
an error. -/
def AppendsPins (gpios : List Gpio) (r : Int) (cs : List Call) : Prop :=
  pinsAppended cs <+: gpios.map Gpio.pinString ∧ (0 ≤ r → pinsAppended cs = gpios.map Gpio.pinString)

theorem runs_groupLoop_pins (pinctrlPath parentPath device : Bytes) (pctrlOffset : Int)
    (gpios : List Gpio) (ngroup : Nat) (w : World) :
    Runs (groupLoop pinctrlPath parentPath device pctrlOffset gpios ngroup) w fun r w' =>
      ∃ cs, w'.calls = w.calls ++ cs ∧ AppendsPins gpios r cs := by
  induction gpios generalizing ngroup w with
  | nil => exact Runs.pure ⟨[], (List.append_nil _).symm, List.prefix_refl _, fun _ => rfl⟩
  | cons g gpios ih =>
    -- the pin itself, and the rounds behind it
    have hpin : ∀ (w₁ : World) (offset : Int) (ngroup : Nat) (cs : List Call),
        w₁.calls = w.calls ++ cs → pinsAppended cs = [] →
        Runs (appendpropString (.subnode pinctrlPath (groupName device g.pull g.drive)) offset strPins
            (pinName g.port g.portNum) >>= fun _ =>
          groupLoop pinctrlPath parentPath device pctrlOffset gpios ngroup) w₁ fun r w' =>
          ∃ cs, w'.calls = w.calls ++ cs ∧ AppendsPins (g :: gpios) r cs := by
      intro w₁ offset ngroup cs hcs hnone
      refine Runs.bind (runs_call ((ih ngroup _).mono ?_))
      rintro r w' ⟨cs', hcs', hprefix, hall⟩
      rw [World.call_calls, hcs, List.append_assoc, List.append_assoc] at hcs'
      have hstrings : pinsAppended (cs ++ ([⟨.subnode pinctrlPath (groupName device g.pull g.drive),
          .appendprop strPins (pinName g.port g.portNum ++ [0]), w₁.fdt, offset⟩] ++ cs')) =
          g.pinString :: pinsAppended cs' := by
        rw [pinsAppended_append, hnone]
        rfl
      refine ⟨_, hcs', ?_, fun hr => ?_⟩
      · rw [hstrings, List.map_cons]
        exact (List.prefix_cons_inj _).mpr hprefix
      · rw [hstrings, List.map_cons, hall hr]
    refine Runs.bind (runs_call ?_)
    split
    · refine Runs.bind ((NoPins.newGroup _ _ _ _ _ _ _ _).mono ?_)
      rintro offset w₁ ⟨cs, hcs, hnone⟩
      rw [World.call_calls, List.append_assoc] at hcs
      split
      · refine Runs.pure ⟨_, hcs, ?_, fun h => absurd h (by omega)⟩
        rw [pinsAppended_append, hnone]
        exact List.nil_prefix
      · exact hpin w₁ offset _ _ hcs (by rw [pinsAppended_append, hnone]; rfl)
    · exact hpin _ _ _ [_] rfl rfl

theorem runs_addPinctrlGroup_pins (pinctrlPath parentPath : Bytes) (gpios : List Gpio)
    (device : Bytes) (w : World) :
    Runs (fdtAddPinctrlGroup pinctrlPath parentPath gpios device) w fun r w' =>
      ∃ cs, w'.calls = w.calls ++ cs ∧ AppendsPins gpios r cs := by
  refine Runs.bind (runs_call ?_)
  split
  · exact Runs.pure ⟨[_], rfl, List.nil_prefix, fun h => absurd h (by omega)⟩
  · refine (runs_groupLoop_pins _ _ _ _ _ _ _).mono ?_
    rintro r w' ⟨cs, hcs, happ⟩
    rw [World.call_calls, List.append_assoc] at hcs
    exact ⟨_, hcs, happ⟩

/-- In every run each pin with these numbers that is reached is appended as the device tree spells it, and
all pins are reached unless the result is an error. -/
def PinSpelled (port portNum : UInt32) : Prop :=
  ∀ (pinctrlPath parentPath device : Bytes) (gpios : List Gpio) (w : World),
    Runs (fdtAddPinctrlGroup pinctrlPath parentPath gpios device) w fun r w' =>
      ∃ cs, w'.calls = w.calls ++ cs ∧ (0 ≤ r → (pinsAppended cs).length = gpios.length) ∧
        ∀ (i : Nat) (pull drive : UInt32), gpios[i]? = some ⟨port, portNum, drive, pull⟩ →
          ∀ val, (pinsAppended cs)[i]? = some val → val = pinSpelling port portNum ++ [0]

def groupTree : DeviceTree :=
  .node 0 ⟨[], []⟩
    (.node 1 ⟨Bytes.ofString "pinctrl", []⟩ (.node 2 ⟨strPinsBabelfish, []⟩ .nil .nil) .nil) .nil

theorem groupTree_repr : Repr (groupTree.blob 0) groupTree :=
  DeviceTree.repr_blob (by decide) (by decide) ⟨0, _, _, rfl⟩ (by decide)

theorem groupTree_appends (port portNum : UInt32) :
    Runs (fdtAddPinctrlGroup (Bytes.ofString "/pinctrl") [] [⟨port, portNum, 0, 0⟩] [])
      ⟨groupTree.blob 0, []⟩ fun r _ => r = 0 := by
  have hname : groupName [] 0 0 = strPinsBabelfish := by decide
  have hpos : ∀ o : Nat, ¬((o : Int) < 0) := fun o => by omega
  have ho : DeviceTree.offset groupTree 1 = some 8 := by decide
  have hg : DeviceTree.offset groupTree 2 = some 20 := by decide
  refine Runs.bind (runs_pathOffset groupTree_repr (by decide) (by decide) ho ?_)
  rw [if_neg (hpos 8)]
  refine Runs.bind ?_
  rw [hname]
  refine runs_subnodeOffset_some groupTree_repr (by decide) ho (by decide) hg ?_
  rw [if_neg (hpos 20)]
  exact Runs.bind (runs_call (Runs.pure rfl))

theorem pinSpelled_iff (port portNum : UInt32) :
    PinSpelled port portNum ↔ pinName port portNum = pinSpelling port portNum := by
  constructor
  · intro h
    obtain ⟨r, w', hrun, cs, hcs, hall, hspell⟩ :=
      h (Bytes.ofString "/pinctrl") [] [] [⟨port, portNum, 0, 0⟩] ⟨groupTree.blob 0, []⟩
    obtain ⟨cs', hcs', -, hall'⟩ := (runs_addPinctrlGroup_pins _ _ _ _ _).of_run hrun
    obtain rfl : cs = cs' := List.append_cancel_left (hcs ▸ hcs')
    have hr : 0 ≤ r := Int.le_of_eq ((groupTree_appends port portNum).of_run hrun).symm
    have hpin : (pinsAppended cs)[0]? = some (pinName port portNum ++ [0]) := by
      rw [hall' hr]
      rfl
    exact List.append_cancel_right (hspell 0 0 0 rfl _ hpin)
  · intro heq pinctrlPath parentPath device gpios w
    refine (runs_addPinctrlGroup_pins pinctrlPath parentPath gpios device w).mono ?_
    rintro r w' ⟨cs, hcs, hprefix, hall⟩
    refine ⟨cs, hcs, fun hr => by rw [hall hr, List.length_map], fun i pull drive hi val hval => ?_⟩
    obtain ⟨hlt, hget⟩ := List.getElem?_eq_some_iff.mp hval
    have hmap : (gpios.map Gpio.pinString)[i]? = some val := by
      rw [List.prefix_iff_getElem?.mp hprefix i hlt, hget]
    rw [List.getElem?_map, hi, Option.map_some, Option.some_inj] at hmap
    rw [← hmap, Gpio.pinString, heq]

end Babelfish
