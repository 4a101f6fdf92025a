import Babelfish.Lib.Bytes

/-! The flattened device tree of `fdt.h` and the tag scanner of `fdt.c`. Offsets and results are C
`int`s: an offset is never negative, a negative result is an error code. -/

namespace Babelfish.Libfdt

abbrev errNotFound : Int := -1
abbrev errExists : Int := -2
abbrev errNoSpace : Int := -3
abbrev errBadOffset : Int := -4
abbrev errBadPath : Int := -5
abbrev errTruncated : Int := -8
abbrev errBadStructure : Int := -11
abbrev errInternal : Int := -13

/-- A blob that `fdt_open_into` has opened, from its structure block on: the strings block follows
the structure block, and `free` is what is left up to `totalsize`. Its header passes every check. -/
structure Fdt where
  dtStruct : Bytes
  dtStrings : Bytes
  free : Bytes
  deriving DecidableEq

inductive FdtTag
  | beginNode | endNode | prop | nop | fend
  deriving DecidableEq

def FdtTag.code : FdtTag → Nat
  | .beginNode => 1
  | .endNode => 2
  | .prop => 3
  | .nop => 4
  | .fend => 9

def FdtTag.ofCode : Nat → Option FdtTag
  | 1 => some .beginNode
  | 2 => some .endNode
  | 3 => some .prop
  | 4 => some .nop
  | 9 => some .fend
  | _ => none

@[simp] theorem FdtTag.ofCode_code (t : FdtTag) : FdtTag.ofCode t.code = some t := by
  cases t <;> rfl

def fdtTagAlign (n : Int) : Int := (n + 3) / 4 * 4

/-- `fdt_offset_ptr(fdt, offset, len) != NULL`; the sum is formed in `unsigned int`. -/
def fdtOffsetPtr (fdt : Fdt) (offset len : Int) : Bool :=
  let stop := (offset + len) % 4294967296
  decide (offset % 4294967296 ≤ stop) && decide (stop ≤ fdt.dtStruct.length)

def fdt32At (fdt : Fdt) (offset : Int) : Nat := Bytes.readBe32 (fdt.dtStruct.drop offset.toNat)

def cstrAt (fdt : Fdt) (offset : Int) : Bytes := Bytes.cstr (fdt.dtStruct.drop offset.toNat)

def fdtNextTag (fdt : Fdt) (startoffset : Int) : FdtTag × Int :=
  if !fdtOffsetPtr fdt startoffset 4 then (.fend, errTruncated)
  else
    match FdtTag.ofCode (fdt32At fdt startoffset) with
    | some .beginNode =>
      let stop := startoffset + 4 + (cstrAt fdt (startoffset + 4)).length
      if !fdtOffsetPtr fdt stop 1 then (.fend, errBadStructure)
      else finish .beginNode (stop + 1)
    | some .prop =>
      if !fdtOffsetPtr fdt (startoffset + 4) 4 then (.fend, errBadStructure)
      else finish .prop ((startoffset + 12 + fdt32At fdt (startoffset + 4)) % 4294967296)
    | some tag => finish tag (startoffset + 4)
    | none => (.fend, errBadStructure)
where
  finish (tag : FdtTag) (offset : Int) : FdtTag × Int :=
    if !fdtOffsetPtr fdt startoffset (offset - startoffset) then (.fend, errBadStructure)
    else (tag, fdtTagAlign offset)

def fdtCheckNodeOffset (fdt : Fdt) (offset : Int) : Int :=
  if offset < 0 ∨ offset % 4 ≠ 0 then errBadOffset
  else
    match fdtNextTag fdt offset with
    | (.beginNode, next) => next
    | _ => errBadOffset

def fdtCheckPropOffset (fdt : Fdt) (offset : Int) : Int :=
  if offset < 0 ∨ offset % 4 ≠ 0 then errBadOffset
  else
    match fdtNextTag fdt offset with
    | (.prop, next) => next
    | _ => errBadOffset

/-- Bounds the loops over tags: a tag takes at least four bytes of a block. -/
def fdtFuel (fdt : Fdt) : Nat := fdt.dtStruct.length + 1

/-- The loop of `fdt_next_node`; `none` is a `NULL` depth pointer. -/
def nextNodeLoop (fdt : Fdt) : Nat → Int → Option Int → Int × Option Int
  | 0, _, depth => (errBadStructure, depth)
  | fuel + 1, offset, depth =>
    match fdtNextTag fdt offset with
    | (.prop, next) => nextNodeLoop fdt fuel next depth
    | (.nop, next) => nextNodeLoop fdt fuel next depth
    | (.beginNode, _) => (offset, depth.map (· + 1))
    | (.endNode, next) =>
      match depth with
      | some d => if d - 1 < 0 then (next, some (d - 1)) else nextNodeLoop fdt fuel next (some (d - 1))
      | none => nextNodeLoop fdt fuel next none
    | (.fend, next) =>
      (if 0 ≤ next ∨ next = errTruncated ∧ depth = none then errNotFound else next, depth)

def fdtNextNode (fdt : Fdt) (offset : Int) (depth : Option Int) : Int × Option Int :=
  if 0 ≤ offset then
    let next := fdtCheckNodeOffset fdt offset
    if next < 0 then (next, depth) else nextNodeLoop fdt (fdtFuel fdt) next depth
  else nextNodeLoop fdt (fdtFuel fdt) 0 depth

/-- `_fdt_find_string`: where a terminated string occurs first in a string table. -/
def fdtFindString (strtab s : Bytes) : Option Nat :=
  (List.range (strtab.length + 1 - (s.length + 1))).find? fun p =>
    (strtab.drop p).take (s.length + 1) == s ++ [0]

end Babelfish.Libfdt
