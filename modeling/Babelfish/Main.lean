import Babelfish.Libfex.ScriptBin
import Babelfish.Makes
import Babelfish.Soc

/-! `main`, up to the jump into the kernel, in a build without `CUSTOM_DTB`. -/

namespace Babelfish

open Libfdt

/-- What the program finds on a board: the registers, the words that the stack holds where `cpt` and `fdt`
are, the start of the heap, the memory with the FEX image, the strings that a pointer may point to, the
tags, and what `fdt_open_into` makes of a device tree. -/
structure Board where
  registers : Registers
  cpt : UInt32
  fdt : UInt32
  heapBase : UInt32
  mem : Libfex.Image
  strings : UInt32 → Bytes
  tags : List UInt32
  openInto : Local Dtb → Int × Fdt

def scriptBaseAddress : UInt32 := 0x43000000

def sizeofScript : UInt32 := 8

/-- `if (soc->compatible)` fails. -/
def Soc.compatibleIsNull (soc : Soc) : Bool :=
  match soc.compatible with
  | .assigned _ => false
  | .stale word => word == 0

/-- The string that `soc->compatible` points to. -/
def Soc.compatibleString (soc : Soc) (strings : UInt32 → Bytes) : Bytes :=
  match soc.compatible with
  | .assigned s => s
  | .stale word => strings word

/-- `script_new` and `script_decompile_bin`; `none` is the return of zero. -/
def readScript (b : Board) (heapBase : UInt32) : Fixup (Option Script) :=
  let (p, heapBase) := Heap.malloc heapBase sizeofScript
  if p = 0 then throw .nullDeref
  else pure (((Libfex.scriptDecompileBin b.mem scriptBaseAddress ⟨[]⟩).run heapBase).map Prod.fst)

def bootargsRequests (bootargs : Bytes) (fdt : Fdt) : List UInt32 :=
  let chosen := fdtPathOffset fdt strChosenPath
  let (offset, fdt) := if chosen < 0 then fdtAddSubnode fdt 0 strChosen else (chosen, fdt)
  if offset < 0 then []
  else
    let len := (fdtGetprop fdt offset strBootargs).2
    if 0 < len then [UInt32.ofNat (len.toNat + strlen bootargs + 2)]
    else [UInt32.ofNat (strlen bootargs + 2)]

def tagRequests : Nat → List UInt32 → World → List UInt32
  | 0, _, _ => []
  | fuel + 1, tags, w =>
    if tagWord tags 0 = 0 then []
    else
      let requests := if tagWord tags 1 = atagCmdline then
        bootargsRequests (Bytes.cstr (tagBytes (tags.drop 2))) w.fdt else []
      match (fixupTag tags).run w with
      | .ok (_, w') => requests ++ tagRequests fuel (tags.drop (tagWord tags 0).toNat) w'
      | .error _ => requests

def heapAfterTags (b : Board) (heapBase : UInt32) (w : World) : UInt32 :=
  Heap.baseAfter heapBase (tagRequests b.tags.length b.tags w)

/-- The fixups of the device tree that was opened; whether the kernel is started behind them. -/
def mainFixups (b : Board) (soc : Soc) (heapBase : UInt32) : Fixup Bool := do
  let w ← get
  let ret ← fdtFixupFromAtags b.tags
  if ret ≠ 0 then pure false
  else
    let script ← readScript b (heapAfterTags b heapBase w)
    match script with
    | none => pure false
    | some script =>
      let ret ← fdtFixupFromFex (soc.compatibleString b.strings) script
      if ret ≠ 0 then pure false else pure true

/-- A run of `main`: what `fdt_open_into` was called with, and if the fixups were come to, how they have
ended and whether the kernel was started. -/
structure Boot where
  opened : Option (Local Dtb)
  fixed : Option (Except Fault (Bool × World))

def main (b : Board) : Boot :=
  match matchSoc b.registers b.cpt b.fdt b.heapBase with
  | (none, _) => ⟨none, none⟩
  | (some soc, heapBase) =>
    if soc.compatibleIsNull then ⟨none, none⟩
    else
      let (ret, fdt) := b.openInto soc.fdt
      if ret ≠ 0 then ⟨some soc.fdt, none⟩
      else ⟨some soc.fdt, some ((mainFixups b soc heapBase).run ⟨fdt, []⟩)⟩

/-- The run ends before a device tree is opened, or opens that of the SoC whose compatible string is the
only one written. -/
def Boot.Consistent (boot : Boot) : Prop :=
  boot.opened = none ∨ ∃ d : Dtb, boot.opened = some (.assigned d) ∧
    ∀ started w, boot.fixed = some (.ok (started, w)) → ∀ c ∈ w.calls, c.WritesCompatible d.compatible

theorem makes_readScript {P : Call → Prop} (b : Board) (heapBase : UInt32) :
    Makes P (readScript b heapBase) := Makes.ite (Makes.throw _) (Makes.pure _)

theorem makes_mainFixups (b : Board) (soc : Soc) (heapBase : UInt32) :
    Makes (Call.WritesCompatible (soc.compatibleString b.strings)) (mainFixups b soc heapBase) := by
  refine Makes.bind (Makes.of_adds (Adds.get (by simp))) fun w => ?_
  refine Makes.bind ((Makes.fromAtags _).mono fun c hc => hc.writes _) fun ret => Makes.ite (Makes.pure _) ?_
  refine Makes.bind (makes_readScript b _) ?_
  rintro (_ | script)
  · exact Makes.pure _
  · exact Makes.bind (Makes.fromFex _ script) fun _ => Makes.ite (Makes.pure _) (Makes.pure _)

theorem main_consistent {b : Board} (h : b.registers.Tell) : (main b).Consistent := by
  unfold main
  split
  · exact Or.inl rfl
  · rename_i soc heapBase hsoc
    obtain ⟨d, rfl⟩ := matchSoc_assigned h hsoc
    refine Or.inr ⟨d, ?_⟩
    simp only [Soc.compatibleIsNull, Bool.false_eq_true, if_false]
    split
    · exact ⟨rfl, fun started w hw => by cases hw⟩
    · refine ⟨rfl, fun started w hw => ?_⟩
      obtain ⟨cs, hcs, hwrites⟩ := makes_mainFixups b ⟨.assigned d.compatible, .assigned d⟩ heapBase _ _ _
        (Option.some.inj hw)
      rw [hcs, List.nil_append]
      exact hwrites

/-- A board with words on the stack that are not `NULL`, on which no device tree can be opened. -/
def staleBoard (r : Registers) : Board where
  registers := r
  cpt := 1
  fdt := 1
  heapBase := 4096
  mem := fun _ => 0
  strings := fun _ => []
  tags := []
  openInto := fun _ => (errBadOffset, bareTree.blob 0)

theorem main_staleBoard {r : Registers} (h : ¬r.Tell) :
    (main (staleBoard r)).opened = some (.stale 1) := by
  have hbase : (4096 : UInt32) ≠ 0 := by decide
  have hmatch : matchSoc (staleBoard r).registers (staleBoard r).cpt (staleBoard r).fdt
      (staleBoard r).heapBase = (some ⟨.stale 1, .stale 1⟩, 4096 + Heap.aligned sizeofSoc) :=
    matchSoc_stale h 1 1 hbase
  unfold main
  rw [hmatch]
  rfl

/-- The device tree is that of the SoC in every run just if the registers tell the SoC. -/
theorem matchSoc_assigned_iff (r : Registers) :
    ((∀ cpt fdt heapBase soc heapBase', matchSoc r cpt fdt heapBase = (some soc, heapBase') →
      soc.Assigned) ↔ r.Tell) ∧
    ((∀ b : Board, b.registers = r → (main b).Consistent) ↔ r.Tell) := by
  refine ⟨⟨fun h => ?_, fun h _ _ _ _ _ => matchSoc_assigned h⟩, ⟨fun h => ?_, fun h b hb =>
    main_consistent (hb ▸ h)⟩⟩
  · by_contra hno
    have hbase : (4096 : UInt32) ≠ 0 := by decide
    obtain ⟨d, hd⟩ := h 1 1 4096 _ _ (matchSoc_stale hno 1 1 hbase)
    cases hd
  · by_contra hno
    have hstale := main_staleBoard hno
    obtain hnone | ⟨d, hopened, -⟩ := h (staleBoard r) rfl
    · rw [hstale] at hnone
      cases hnone
    · rw [hstale] at hopened
      cases hopened

def sharedRegisters : Registers := ⟨0, fun _ => 0x16250000, 0⟩

theorem sharedRegisters_stale :
    matchSoc sharedRegisters 1 1 4096 = (some ⟨.stale 1, .stale 1⟩, 4104) ∧
      (main (staleBoard sharedRegisters)).opened = some (.stale 1) :=
  ⟨by decide, by rfl⟩

end Babelfish
