import Babelfish.Libfdt.Blob

/-! The lookups of `fdt_ro.c` that the fixups use. -/

namespace Babelfish.Libfdt

def slash : UInt8 := 47

def atSign : UInt8 := 64

-- for `n = 0` `memcmp` goes on up to a difference; no caller looks up an empty name
def fdtNodenameEq (fdt : Fdt) (offset : Int) (s : Bytes) : Bool :=
  if !fdtOffsetPtr fdt (offset + 4) (s.length + 1) then false
  else
    let p := fdt.dtStruct.drop (offset + 4).toNat
    if p.take s.length ≠ s then false
    else p[s.length]? == some 0 || !s.contains atSign && p[s.length]? == some atSign

def fdtString (fdt : Fdt) (stroffset : Nat) : Bytes := Bytes.cstr (fdt.dtStrings.drop stroffset)

def nextprop (fdt : Fdt) : Nat → Int → Int
  | 0, _ => errBadStructure
  | fuel + 1, offset =>
    match fdtNextTag fdt offset with
    | (.fend, next) => if 0 ≤ next then errBadStructure else next
    | (.prop, _) => offset
    | (.nop, next) => nextprop fdt fuel next
    | _ => errNotFound

def subnodeLoop (fdt : Fdt) (name : Bytes) : Nat → Int → Int → Int
  | 0, _, _ => errBadStructure
  | fuel + 1, offset, depth =>
    if 0 ≤ offset ∧ 0 ≤ depth then
      if depth = 1 ∧ fdtNodenameEq fdt offset name then offset
      else
        let r := fdtNextNode fdt offset (some depth)
        subnodeLoop fdt name fuel r.1 (r.2.getD 0)
    else if depth < 0 then errNotFound
    else offset

def fdtSubnodeOffset (fdt : Fdt) (parentoffset : Int) (name : Bytes) : Int :=
  subnodeLoop fdt name (fdtFuel fdt) parentoffset 0

def fdtFirstPropertyOffset (fdt : Fdt) (nodeoffset : Int) : Int :=
  let offset := fdtCheckNodeOffset fdt nodeoffset
  if offset < 0 then offset else nextprop fdt (fdtFuel fdt) offset

def fdtNextPropertyOffset (fdt : Fdt) (offset : Int) : Int :=
  let offset := fdtCheckPropOffset fdt offset
  if offset < 0 then offset else nextprop fdt (fdtFuel fdt) offset

def propLen (fdt : Fdt) (prop : Int) : Int :=
  let len : Int := fdt32At fdt (prop + 4)
  if len < 2147483648 then len else len - 4294967296

def propNameoff (fdt : Fdt) (prop : Int) : Nat := fdt32At fdt (prop + 8)

-- the name is not empty, as for nodes
def propertyLoop (fdt : Fdt) (name : Bytes) : Nat → Int → Int
  | 0, _ => errBadStructure
  | fuel + 1, offset =>
    if offset < 0 then offset
    else if fdtCheckPropOffset fdt offset < 0 then errInternal
    else if fdtString fdt (propNameoff fdt offset) == name then offset
    else propertyLoop fdt name fuel (fdtNextPropertyOffset fdt offset)

/-- The offset of a property, or in place of `NULL` the error left in `*lenp`. -/
def fdtGetProperty (fdt : Fdt) (nodeoffset : Int) (name : Bytes) : Int :=
  propertyLoop fdt name (fdtFuel fdt) (fdtFirstPropertyOffset fdt nodeoffset)

/-- The value of a property as an offset of the structure block, and `*lenp`. -/
def fdtGetprop (fdt : Fdt) (nodeoffset : Int) (name : Bytes) : Option Int × Int :=
  let prop := fdtGetProperty fdt nodeoffset name
  if prop < 0 then (none, prop) else (some (prop + 12), propLen fdt prop)

def strPhandle : Bytes := Bytes.ofString "phandle"

def strLinuxPhandle : Bytes := Bytes.ofString "linux,phandle"

def fdtGetPhandle (fdt : Fdt) (nodeoffset : Int) : Nat :=
  match fdtGetprop fdt nodeoffset strPhandle with
  | (some php, 4) => fdt32At fdt php
  | _ =>
    match fdtGetprop fdt nodeoffset strLinuxPhandle with
    | (some php, 4) => fdt32At fdt php
    | _ => 0

/-- The components of a path: what stands between slashes, empty stretches left out. -/
def pathComponents (path : Bytes) : List Bytes :=
  (path.splitOn slash).filter fun c => !c.isEmpty

def pathLoop (fdt : Fdt) : Int → List Bytes → Int
  | offset, [] => offset
  | offset, c :: cs =>
    let offset := fdtSubnodeOffset fdt offset c
    if offset < 0 then offset else pathLoop fdt offset cs

def strAliases : Bytes := Bytes.ofString "/aliases"

/-- `fdt_get_alias_namelen`; `"/aliases"` is absolute, so its path lookup is the loop alone. -/
def fdtGetAlias (fdt : Fdt) (name : Bytes) : Option Bytes :=
  let aliasoffset := pathLoop fdt 0 (pathComponents strAliases)
  if aliasoffset < 0 then none
  else (fdtGetprop fdt aliasoffset name).1.map (cstrAt fdt)

/-- `fdt_path_offset` with a bound on how often an alias may lead to an alias. -/
def fdtPathOffsetAux (fdt : Fdt) : Nat → Bytes → Int
  | 0, _ => errBadPath
  | fuel + 1, path =>
    if path.head? = some slash then pathLoop fdt 0 (pathComponents path)
    else
      match fdtGetAlias fdt (path.takeWhile (· ≠ slash)) with
      | none => errBadPath
      | some p => pathLoop fdt (fdtPathOffsetAux fdt fuel p) (pathComponents (path.dropWhile (· ≠ slash)))

/-- More alias steps than the largest block has bytes are a cycle, on which the C code does not
return. -/
def aliasFuel : Nat := 2147483648

def fdtPathOffset (fdt : Fdt) (path : Bytes) : Int := fdtPathOffsetAux fdt aliasFuel path

end Babelfish.Libfdt
