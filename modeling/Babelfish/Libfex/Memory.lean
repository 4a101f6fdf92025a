import Babelfish.Lib.Ring
import Babelfish.Script

/-! The script tree in memory: the rings of `common.h` and the operations of `script.c` on them. What
`malloc` returns is an argument of each constructor. -/

namespace Babelfish.Libfex

open Bytes

abbrev Addr := UInt32

/-- The `list_entry` hooks, and the fields of the section or entry at an address. -/
structure Mem where
  links : Links Addr
  name : Addr → Bytes
  value : Addr → ScriptValue

/-! `offsetof` the hooks, and the sizes of the structs. -/

def offsetSections : Addr := 32
def offsetSectionEntries : Addr := 40
def offsetEntries : Addr := 36

def sizeofScript : Nat := 8
def sizeofSection : Nat := 48

/-- The size of an entry with the struct around it, the `string[]` it ends in included. -/
def sizeofEntry : ScriptValue → Nat
  | .single _ => 48
  | .string s => 48 + s.length
  | .gpio .. => 68
  | .null => 44

/-- What the `name` field holds: names are cut at 31 bytes. -/
def fieldName (name : Bytes) : Bytes := (cstr name).take 31

def scriptNew (ptr : Addr) (m : Mem) : Mem :=
  if ptr = 0 then m else { m with links := m.links.init ptr }

def scriptSectionNew (ptr script : Addr) (name : Bytes) (m : Mem) : Mem :=
  if ptr = 0 then m
  else { m with
    name := Function.update m.name ptr (fieldName name)
    links := (m.links.init (ptr + offsetSectionEntries)).append script (ptr + offsetSections) }

def scriptEntryNew (ptr scriptSection : Addr) (name : Bytes) (value : ScriptValue) (m : Mem) : Mem :=
  if ptr = 0 then m
  else { m with
    name := Function.update m.name ptr (fieldName name)
    value := Function.update m.value ptr value
    links := m.links.append (scriptSection + offsetSectionEntries) (ptr + offsetEntries) }

def scriptNullEntryNew (ptr scriptSection : Addr) (name : Bytes) : Mem → Mem :=
  scriptEntryNew ptr scriptSection name .null

def scriptSingleEntryNew (ptr scriptSection : Addr) (name : Bytes) (value : UInt32) : Mem → Mem :=
  scriptEntryNew ptr scriptSection name (.single value)

def scriptStringEntryNew (ptr scriptSection : Addr) (name : Bytes) (l : Nat) (s : Bytes) : Mem → Mem :=
  scriptEntryNew ptr scriptSection name (.string (s.take l ++ [0]))

def scriptGpioEntryNew (ptr scriptSection : Addr) (name : Bytes) (port num : UInt32)
    (data : Vector UInt32 4) : Mem → Mem :=
  scriptEntryNew ptr scriptSection name (.gpio port num data)

/-- The `if (!list_empty(..)) list_remove(..)` of the deletions. -/
def unlink (hook : Addr) (m : Mem) : Mem :=
  if m.links.prev hook = hook then m else { m with links := m.links.remove hook }

/-- `free` does nothing, whichever the container. -/
def scriptEntryDelete (entry : Addr) (m : Mem) : Mem := unlink (entry + offsetEntries) m

/-- The loop of `script_section_delete`; `none` if it takes more than `fuel` rounds. -/
def deleteEntries (scriptSection : Addr) (fuel : Nat) (m : Mem) : Option Mem :=
  match m.links.last (scriptSection + offsetSectionEntries), fuel with
  | none, _ => some m
  | some _, 0 => none
  | some o, fuel + 1 => deleteEntries scriptSection fuel (scriptEntryDelete (o - offsetEntries) m)

def scriptSectionDelete (scriptSection : Addr) (fuel : Nat) (m : Mem) : Option Mem := do
  let m ← deleteEntries scriptSection fuel m
  return unlink (scriptSection + offsetSections) m

def deleteSections (script : Addr) (rounds fuel : Nat) (m : Mem) : Option Mem :=
  match m.links.last script, fuel with
  | none, _ => some m
  | some _, 0 => none
  | some o, fuel + 1 => do
    let m ← scriptSectionDelete (o - offsetSections) rounds m
    deleteSections script rounds fuel m

def scriptDelete (script : Addr) (fuel : Nat) (m : Mem) : Option Mem :=
  deleteSections script fuel fuel m

/-- The loops of the two lookups: `offset` is that of the hooks, `o` the one to look at next. -/
def findLoop (offset head : Addr) (name : Bytes) (m : Mem) :
    (fuel : Nat) → (o : Option Addr) → Option (Option Addr)
  | _, none => some none
  | 0, some _ => none
  | fuel + 1, some o =>
    if strcmp (m.name (o - offset)) name = 0 then some (some (o - offset))
    else findLoop offset head name m fuel (m.links.after head o)

/-- `some none` is `NULL`. -/
def scriptFindSection (script : Addr) (name : Bytes) (fuel : Nat) (m : Mem) : Option (Option Addr) :=
  findLoop offsetSections script name m fuel (m.links.first script)

def scriptFindEntry (scriptSection : Addr) (name : Bytes) (fuel : Nat) (m : Mem) :
    Option (Option Addr) :=
  findLoop offsetEntries (scriptSection + offsetSectionEntries) name m fuel
    (m.links.first (scriptSection + offsetSectionEntries))

inductive ScriptOp
  | scriptNew (ptr : Addr)
  | sectionNew (ptr script : Addr) (name : Bytes)
  | nullEntryNew (ptr scriptSection : Addr) (name : Bytes)
  | singleEntryNew (ptr scriptSection : Addr) (name : Bytes) (value : UInt32)
  | stringEntryNew (ptr scriptSection : Addr) (name : Bytes) (l : Nat) (s : Bytes)
  | gpioEntryNew (ptr scriptSection : Addr) (name : Bytes) (port num : UInt32) (data : Vector UInt32 4)
  | entryDelete (entry : Addr)
  | sectionDelete (scriptSection : Addr)
  | scriptDelete (script : Addr)

def ScriptOp.run (fuel : Nat) (m : Mem) : ScriptOp → Option Mem
  | .scriptNew ptr => some (Libfex.scriptNew ptr m)
  | .sectionNew ptr script name => some (scriptSectionNew ptr script name m)
  | .nullEntryNew ptr scriptSection name => some (scriptNullEntryNew ptr scriptSection name m)
  | .singleEntryNew ptr scriptSection name value =>
    some (scriptSingleEntryNew ptr scriptSection name value m)
  | .stringEntryNew ptr scriptSection name l s =>
    some (scriptStringEntryNew ptr scriptSection name l s m)
  | .gpioEntryNew ptr scriptSection name port num data =>
    some (scriptGpioEntryNew ptr scriptSection name port num data m)
  | .entryDelete entry => some (scriptEntryDelete entry m)
  | .sectionDelete scriptSection => scriptSectionDelete scriptSection fuel m
  | .scriptDelete script => Libfex.scriptDelete script fuel m

def runOps (fuel : Nat) (m : Mem) (ops : List ScriptOp) : Option Mem := ops.foldlM (ScriptOp.run fuel) m

inductive Kind
  | script
  | scriptSection (script : Addr) (name : Bytes)
  | scriptEntry (scriptSection : Addr) (name : Bytes) (value : ScriptValue)
  deriving DecidableEq

structure Obj where
  addr : Addr
  kind : Kind
  deriving DecidableEq

namespace Obj

def size (o : Obj) : Nat :=
  match o.kind with
  | .script => sizeofScript
  | .scriptSection .. => sizeofSection
  | .scriptEntry _ _ value => sizeofEntry value

def head? (o : Obj) : Option Addr :=
  match o.kind with
  | .script => some o.addr
  | .scriptSection .. => some (o.addr + offsetSectionEntries)
  | .scriptEntry .. => none

def within (o : Obj) : Option Addr :=
  match o.kind with
  | .script => none
  | .scriptSection script _ => some script
  | .scriptEntry scriptSection _ _ => some (scriptSection + offsetSectionEntries)

def hook (o : Obj) : Addr :=
  match o.kind with
  | .script => o.addr
  | .scriptSection .. => o.addr + offsetSections
  | .scriptEntry .. => o.addr + offsetEntries

def name (o : Obj) : Bytes :=
  match o.kind with
  | .script => []
  | .scriptSection _ name => name
  | .scriptEntry _ name _ => name

end Obj

def elems (live : List Obj) (h : Addr) : List Addr :=
  (live.filter fun o => o.within = some h).map Obj.hook

def under (live : List Obj) (script : Addr) (o : Obj) : Bool :=
  o.within = some script || live.any fun s => s.within = some script && o.within = s.head?

def create (live : List Obj) (ptr : Addr) (kind : Kind) : List Obj :=
  if ptr = 0 then live else live ++ [⟨ptr, kind⟩]

def ScriptOp.apply (live : List Obj) : ScriptOp → List Obj
  | .scriptNew ptr => create live ptr .script
  | .sectionNew ptr script name => create live ptr (.scriptSection script name)
  | .nullEntryNew ptr scriptSection name => create live ptr (.scriptEntry scriptSection name .null)
  | .singleEntryNew ptr scriptSection name value =>
    create live ptr (.scriptEntry scriptSection name (.single value))
  | .stringEntryNew ptr scriptSection name l s =>
    create live ptr (.scriptEntry scriptSection name (.string (s.take l ++ [0])))
  | .gpioEntryNew ptr scriptSection name port num data =>
    create live ptr (.scriptEntry scriptSection name (.gpio port num data))
  | .entryDelete entry => live.filter fun o => o.addr ≠ entry
  | .sectionDelete scriptSection => live.filter fun o =>
      o.addr ≠ scriptSection ∧ o.within ≠ some (scriptSection + offsetSectionEntries)
  | .scriptDelete script => live.filter fun o => o.addr ≠ script ∧ ¬under live script o

def Apart (a b : Obj) : Prop :=
  a.addr.toNat + a.size ≤ b.addr.toNat ∨ b.addr.toNat + b.size ≤ a.addr.toNat

def Placed (o : Obj) : Prop := o.addr ≠ 0 ∧ o.addr.toNat + o.size ≤ 2 ^ 32

/-- `malloc` has failed, or its block shares no memory with a live object. -/
def Allocated (live : List Obj) (ptr : Addr) (kind : Kind) : Prop :=
  ptr = 0 ∨ Placed ⟨ptr, kind⟩ ∧ ∀ o ∈ live, Apart o ⟨ptr, kind⟩

def IsScript (live : List Obj) (a : Addr) : Prop := ⟨a, .script⟩ ∈ live

def IsSection (live : List Obj) (a : Addr) : Prop :=
  ∃ script name, ⟨a, .scriptSection script name⟩ ∈ live

def IsEntry (live : List Obj) (a : Addr) : Prop :=
  ∃ s name value, ⟨a, .scriptEntry s name value⟩ ∈ live

/-- The operation works on live objects only, and allocates memory that none of them has. -/
def ScriptOp.Allowed (live : List Obj) : ScriptOp → Prop
  | .scriptNew ptr => Allocated live ptr .script
  | .sectionNew ptr script name =>
    IsScript live script ∧ Allocated live ptr (.scriptSection script name)
  | .nullEntryNew ptr s name => IsSection live s ∧ Allocated live ptr (.scriptEntry s name .null)
  | .singleEntryNew ptr s name value =>
    IsSection live s ∧ Allocated live ptr (.scriptEntry s name (.single value))
  | .stringEntryNew ptr s name l bytes =>
    IsSection live s ∧ Allocated live ptr (.scriptEntry s name (.string (bytes.take l ++ [0])))
  | .gpioEntryNew ptr s name port num data =>
    IsSection live s ∧ Allocated live ptr (.scriptEntry s name (.gpio port num data))
  | .entryDelete entry => IsEntry live entry
  | .sectionDelete s => IsSection live s
  | .scriptDelete script => IsScript live script

def liveAfter (live : List Obj) (ops : List ScriptOp) : List Obj := ops.foldl ScriptOp.apply live

def AllowedOps (live : List Obj) : List ScriptOp → Prop
  | [] => True
  | op :: ops => op.Allowed live ∧ AllowedOps (op.apply live) ops

end Babelfish.Libfex
