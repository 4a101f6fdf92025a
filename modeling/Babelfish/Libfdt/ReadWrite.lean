import Babelfish.Libfdt.ReadOnly

/-! The edits of `fdt_rw.c` that the fixups use. Each returns its `int` result and the blob. -/

namespace Babelfish.Libfdt

/-- `_fdt_splice_struct`: makes room for `newlen` bytes in place of `oldlen` at an offset of the
structure block. Only what follows is moved, so added bytes read as what stood there before. -/
def fdtSpliceStruct (fdt : Fdt) (p oldlen newlen : Int) : Int × Fdt :=
  let data := fdt.dtStruct ++ fdt.dtStrings
  if oldlen < 0 ∨ data.length < p + oldlen then (errBadOffset, fdt)
  else if fdt.free.length < newlen - oldlen then (errNoSpace, fdt)
  else
    let old := oldlen.toNat
    let new := newlen.toNat
    let stop := p.toNat + old
    let stale := ((data ++ fdt.free).drop stop).take (new - old)
    let data' := data.take (p.toNat + min old new) ++ (stale ++ data.drop stop)
    let structSize := fdt.dtStruct.length + new - old
    (0, { dtStruct := data'.take structSize
          dtStrings := data'.drop structSize
          free := data.drop (data.length - (old - new)) ++ fdt.free.drop (new - old) })

def Fdt.write (fdt : Fdt) (p : Int) (bs : Bytes) : Fdt :=
  { fdt with
    dtStruct := fdt.dtStruct.take p.toNat ++ bs ++ fdt.dtStruct.drop (p.toNat + bs.length) }

/-- `_fdt_find_add_string`: the offset of a string in the strings block, or an error. -/
def fdtFindAddString (fdt : Fdt) (s : Bytes) : Int × Fdt :=
  match fdtFindString fdt.dtStrings s with
  | some p => (p, fdt)
  | none =>
    let len := s.length + 1
    if fdt.free.length < len then (errNoSpace, fdt)
    else (fdt.dtStrings.length,
      { fdt with dtStrings := fdt.dtStrings ++ (s ++ [0]), free := fdt.free.drop len })

/-- `_fdt_resize_property`; the second component is `*prop`. -/
def fdtResizeProperty (fdt : Fdt) (nodeoffset : Int) (name : Bytes) (len : Int) :
    Int × Int × Fdt :=
  let prop := fdtGetProperty fdt nodeoffset name
  if prop < 0 then (prop, prop, fdt)
  else
    let r := fdtSpliceStruct fdt (prop + 12) (fdtTagAlign (propLen fdt prop)) (fdtTagAlign len)
    if r.1 ≠ 0 then (r.1, prop, r.2)
    else (0, prop, r.2.write (prop + 4) (Bytes.be32 len.toNat))

def fdtAddProperty (fdt : Fdt) (nodeoffset : Int) (name : Bytes) (len : Int) : Int × Int × Fdt :=
  let nextoffset := fdtCheckNodeOffset fdt nodeoffset
  if nextoffset < 0 then (nextoffset, nextoffset, fdt)
  else
    let s := fdtFindAddString fdt name
    if s.1 < 0 then (s.1, nextoffset, s.2)
    else
      let r := fdtSpliceStruct s.2 nextoffset 0 (12 + fdtTagAlign len)
      if r.1 ≠ 0 then (r.1, nextoffset, r.2)
      else (0, nextoffset,
        ((r.2.write nextoffset (Bytes.be32 FdtTag.prop.code)).write (nextoffset + 8)
          (Bytes.be32 s.1.toNat)).write (nextoffset + 4) (Bytes.be32 len.toNat))

def fdtSetprop (fdt : Fdt) (nodeoffset : Int) (name val : Bytes) : Int × Fdt :=
  let r := fdtResizeProperty fdt nodeoffset name val.length
  let r := if r.1 = errNotFound then fdtAddProperty r.2.2 nodeoffset name val.length else r
  if r.1 ≠ 0 then (r.1, r.2.2) else (0, r.2.2.write (r.2.1 + 12) val)

def fdtAppendprop (fdt : Fdt) (nodeoffset : Int) (name val : Bytes) : Int × Fdt :=
  let prop := fdtGetProperty fdt nodeoffset name
  if 0 ≤ prop then
    let oldlen := propLen fdt prop
    let newlen := val.length + oldlen
    let r := fdtSpliceStruct fdt (prop + 12) (fdtTagAlign oldlen) (fdtTagAlign newlen)
    if r.1 ≠ 0 then r
    else (0, (r.2.write (prop + 4) (Bytes.be32 newlen.toNat)).write (prop + 12 + oldlen) val)
  else
    let r := fdtAddProperty fdt nodeoffset name val.length
    if r.1 ≠ 0 then (r.1, r.2.2) else (0, r.2.2.write (r.2.1 + 12) val)

/-- The `do` loop of `fdt_add_subnode_namelen`, which looks for the end of the properties. -/
def skipProps (fdt : Fdt) : Nat → Int → Int
  | 0, offset => offset
  | fuel + 1, offset =>
    match fdtNextTag fdt offset with
    | (.prop, next) => skipProps fdt fuel next
    | (.nop, next) => skipProps fdt fuel next
    | _ => offset

def fdtAddSubnode (fdt : Fdt) (parentoffset : Int) (name : Bytes) : Int × Fdt :=
  let offset := fdtSubnodeOffset fdt parentoffset name
  if 0 ≤ offset then (errExists, fdt)
  else if offset ≠ errNotFound then (offset, fdt)
  else
    let offset := skipProps fdt (fdtFuel fdt) (fdtNextTag fdt parentoffset).2
    let namelen := Bytes.align4 (name.length + 1)
    let r := fdtSpliceStruct fdt offset 0 (4 + namelen + 4)
    if r.1 ≠ 0 then r
    else (offset,
      (((r.2.write offset (Bytes.be32 FdtTag.beginNode.code)).write (offset + 4)
        (List.replicate namelen 0)).write (offset + 4) name).write (offset + (4 + namelen))
          (Bytes.be32 FdtTag.endNode.code))

end Babelfish.Libfdt
