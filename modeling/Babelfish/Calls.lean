import Babelfish.Lib.Runs
import Babelfish.Libfdt.ReadWrite

/-! The state of a fixup: the blob, and a record of the libfdt calls made on it so far. -/

namespace Babelfish

open Libfdt

inductive Op
  | pathOffset (path : Bytes)
  | subnodeOffset (name : Bytes)
  | getprop (name : Bytes)
  | getPhandle
  | addSubnode (name : Bytes)
  | setprop (name val : Bytes)
  | appendprop (name val : Bytes)
  deriving DecidableEq

namespace Op

def run (fdt : Fdt) (offset : Int) : Op → Int × Fdt
  | pathOffset path => (fdtPathOffset fdt path, fdt)
  | subnodeOffset name => (fdtSubnodeOffset fdt offset name, fdt)
  | getprop name => ((fdtGetprop fdt offset name).2, fdt)
  | getPhandle => (fdtGetPhandle fdt offset, fdt)
  | addSubnode name => fdtAddSubnode fdt offset name
  | setprop name val => fdtSetprop fdt offset name val
  | appendprop name val => fdtAppendprop fdt offset name val

end Op

/-- The node that a caller computed an offset for. -/
inductive Target
  | root
  | path (path : Bytes)
  | subnode (path name : Bytes)
  deriving DecidableEq

def Target.offset (fdt : Fdt) : Target → Int
  | root => 0
  | path p => fdtPathOffset fdt p
  | subnode p name => fdtSubnodeOffset fdt (fdtPathOffset fdt p) name

/-- A libfdt call with the blob as it was at that moment. -/
structure Call where
  target : Target
  op : Op
  fdt : Fdt
  offset : Int
  deriving DecidableEq

def Call.ret (c : Call) : Int := (c.op.run c.fdt c.offset).1

/-- The offset denotes the node it was computed for. -/
def Call.Fresh (c : Call) : Prop := c.offset = c.target.offset c.fdt

instance : DecidablePred Call.Fresh := fun c => inferInstanceAs (Decidable (c.offset = c.target.offset c.fdt))

structure World where
  fdt : Fdt
  calls : List Call

/-- What a C program may do that ends the model's run. -/
inductive Fault
  | nullDeref
  | wrongType
  deriving DecidableEq

abbrev Fixup := StateT World (Except Fault)

def World.call (w : World) (target : Target) (op : Op) (offset : Int) : World :=
  ⟨(op.run w.fdt offset).2, w.calls ++ [⟨target, op, w.fdt, offset⟩]⟩

def call (target : Target) (op : Op) (offset : Int) : Fixup Int := fun w =>
  .ok ((op.run w.fdt offset).1, w.call target op offset)

def pathOffset (path : Bytes) : Fixup Int := call .root (.pathOffset path) 0

def Adds {α : Type} (P : List Call → Prop) (m : Fixup α) : Prop :=
  ∀ w, Runs m w fun _ w' => ∃ cs, w'.calls = w.calls ++ cs ∧ P cs

theorem runs_call {target : Target} {op : Op} {offset : Int} {w : World} {Q : Int → World → Prop}
    (h : Q (op.run w.fdt offset).1 (w.call target op offset)) : Runs (call target op offset) w Q :=
  ⟨_, _, rfl, h⟩

@[simp] theorem World.call_fdt (w : World) (target : Target) (op : Op) (offset : Int) :
    (w.call target op offset).fdt = (op.run w.fdt offset).2 := rfl

@[simp] theorem World.call_calls (w : World) (target : Target) (op : Op) (offset : Int) :
    (w.call target op offset).calls = w.calls ++ [⟨target, op, w.fdt, offset⟩] := rfl

namespace Adds

variable {α β : Type} {P : List Call → Prop}

theorem pure (h : P []) (a : α) : Adds P (Pure.pure a) := fun _ =>
  Runs.pure ⟨[], (List.append_nil _).symm, h⟩

theorem get (h : P []) : Adds P (MonadState.get : Fixup World) := fun _ =>
  Runs.get ⟨[], (List.append_nil _).symm, h⟩

theorem bind (happend : ∀ cs cs', P cs → P cs' → P (cs ++ cs')) {m : Fixup α} {f : α → Fixup β}
    (hm : Adds P m) (hf : ∀ a, Adds P (f a)) : Adds P (m >>= f) := by
  intro w
  refine Runs.bind ((hm w).mono ?_)
  rintro a w₁ ⟨cs, hcs, h⟩
  refine (hf a w₁).mono ?_
  rintro b w₂ ⟨cs', hcs', h'⟩
  exact ⟨cs ++ cs', by rw [hcs', hcs, List.append_assoc], happend cs cs' h h'⟩

theorem ite {p : Prop} [Decidable p] {m m' : Fixup α} (hm : Adds P m) (hm' : Adds P m') :
    Adds P (if p then m else m') := by
  split
  · exact hm
  · exact hm'

theorem call {target : Target} {op : Op} {offset : Int}
    (h : ∀ fdt, P [⟨target, op, fdt, offset⟩]) : Adds P (Babelfish.call target op offset) := fun w =>
  runs_call ⟨[⟨target, op, w.fdt, offset⟩], rfl, h w.fdt⟩

theorem prefix_calls {m : Fixup α} (h : Adds P m) (w : World) :
    Runs m w fun _ w' => w.calls <+: w'.calls :=
  (h w).mono fun _ _ ⟨cs, hcs, _⟩ => ⟨cs, hcs.symm⟩

end Adds

end Babelfish
