import Babelfish.Lib.Region
import Babelfish.Libfdt.Tree
import Babelfish.Strings.Move

/-! A whole blob in the memory: its header, its blocks, and `fdt_open_into` of `fdt_rw.c`, which copies one
and puts its blocks in order. -/

namespace Babelfish.Libfdt

open Bytes Strings

abbrev errBadState : Int := -7
abbrev errBadMagic : Int := -9
abbrev errBadVersion : Int := -10
abbrev errBadLayout : Int := -12

/-- The words of `struct fdt_header`. -/
inductive HdrField
  | magic | totalsize | offDtStruct | offDtStrings | offMemRsvmap | version | lastCompVersion
  | bootCpuidPhys | sizeDtStrings | sizeDtStruct
  deriving DecidableEq

def HdrField.offset : HdrField → Nat
  | .magic => 0
  | .totalsize => 4
  | .offDtStruct => 8
  | .offDtStrings => 12
  | .offMemRsvmap => 16
  | .version => 20
  | .lastCompVersion => 24
  | .bootCpuidPhys => 28
  | .sizeDtStrings => 32
  | .sizeDtStruct => 36

def fdtMagic : UInt32 := 0xd00dfeed

def fdtSwMagic : UInt32 := ~~~fdtMagic

def fdtGetHeader (m : Memory) (fdt : Addr) (f : HdrField) : UInt32 :=
  UInt32.ofNat (readBe32 (m.read (fdt + UInt32.ofNat f.offset) 4))

def fdtSetHdr (m : Memory) (fdt : Addr) (f : HdrField) (val : UInt32) : Memory :=
  m.store (fdt + UInt32.ofNat f.offset) (be32 val.toNat)

def fdtCheckHeader (m : Memory) (fdt : Addr) : Int :=
  if fdtGetHeader m fdt .magic = fdtMagic then
    if fdtGetHeader m fdt .version < 16 then errBadVersion
    else if 17 < fdtGetHeader m fdt .lastCompVersion then errBadVersion
    else 0
  else if fdtGetHeader m fdt .magic = fdtSwMagic then
    if fdtGetHeader m fdt .sizeDtStruct = 0 then errBadState else 0
  else errBadMagic

def fdtMemRsv (m : Memory) (fdt : Addr) (n : Nat) : Addr :=
  fdt + fdtGetHeader m fdt .offMemRsvmap + UInt32.ofNat (16 * n)

def readBe64 (bs : Bytes) : Nat := readBe32 bs * 4294967296 + readBe32 (bs.drop 4)

/-- `none` if no entry up to the end of the address space ends the map. -/
def numMemRsvLoop (m : Memory) (fdt : Addr) : Nat → Nat → Option Nat
  | 0, _ => none
  | fuel + 1, i =>
    if readBe64 (m.read (fdtMemRsv m fdt i + 8) 8) ≠ 0 then numMemRsvLoop m fdt fuel (i + 1) else some i

def fdtNumMemRsv (m : Memory) (fdt : Addr) : Option Nat :=
  numMemRsvLoop m fdt ((4294967296 - (fdtMemRsv m fdt 0).toNat) / 16) 0

def fdtGetMemRsv (m : Memory) (fdt : Addr) (n : Nat) : Except Int (Nat × Nat) :=
  let err := fdtCheckHeader m fdt
  if err ≠ 0 then .error err
  else .ok (readBe64 (m.read (fdtMemRsv m fdt n) 8), readBe64 (m.read (fdtMemRsv m fdt n + 8) 8))

def fdtMove (m : Memory) (fdt buf : Addr) (bufsize : Int) : Int × Memory :=
  let err := fdtCheckHeader m fdt
  if err ≠ 0 then (err, m)
  else if UInt32.ofInt bufsize < fdtGetHeader m fdt .totalsize then (errNoSpace, m)
  else (0, (memmove m buf fdt (fdtGetHeader m fdt .totalsize)).2)

def fdtBlocksMisordered (m : Memory) (fdt : Addr) (memRsvSize structSize : UInt32) : Bool :=
  decide (fdtGetHeader m fdt .offMemRsvmap < 40) ||
    decide (fdtGetHeader m fdt .offDtStruct < fdtGetHeader m fdt .offMemRsvmap + memRsvSize) ||
    decide (fdtGetHeader m fdt .offDtStrings < fdtGetHeader m fdt .offDtStruct + structSize) ||
    decide (fdtGetHeader m fdt .totalsize <
      fdtGetHeader m fdt .offDtStrings + fdtGetHeader m fdt .sizeDtStrings)

/-- The header check in front of every call of `fdt_rw.c`; it also sets a later version back. -/
def fdtRwCheckHeader (m : Memory) (fdt : Addr) : Int × Memory :=
  let err := fdtCheckHeader m fdt
  if err ≠ 0 then (err, m)
  else if fdtGetHeader m fdt .version < 17 then (errBadVersion, m)
  else if fdtBlocksMisordered m fdt 16 (fdtGetHeader m fdt .sizeDtStruct) then (errBadLayout, m)
  else (0, if 17 < fdtGetHeader m fdt .version then fdtSetHdr m fdt .version 17 else m)

/-- A block of the old tree is moved to its place in the new one, whose header then points to it. -/
def packBlock (m : Memory) (old new : Addr) (f : HdrField) (off size : UInt32) : Memory :=
  fdtSetHdr (memmove m (new + off) (old + fdtGetHeader m old f) size).2 new f off

def fdtPackblocks (m : Memory) (old new : Addr) (memRsvSize structSize : UInt32) : Memory :=
  let memRsvOff : UInt32 := 40
  let structOff := memRsvOff + memRsvSize
  let stringsOff := structOff + structSize
  let m := packBlock m old new .offMemRsvmap memRsvOff memRsvSize
  let m := packBlock m old new .offDtStruct structOff structSize
  let m := fdtSetHdr m new .sizeDtStruct structSize
  let m := packBlock m old new .offDtStrings stringsOff (fdtGetHeader m old .sizeDtStrings)
  fdtSetHdr m new .sizeDtStrings (fdtGetHeader m old .sizeDtStrings)

def fdtPack (m : Memory) (fdt : Addr) : Option (Int × Memory) :=
  let r := fdtRwCheckHeader m fdt
  if r.1 ≠ 0 then some r
  else
    (fdtNumMemRsv r.2 fdt).map fun n =>
      let m := fdtPackblocks r.2 fdt fdt (UInt32.ofNat ((n + 1) * 16)) (fdtGetHeader r.2 fdt .sizeDtStruct)
      (0, fdtSetHdr m fdt .totalsize
        (fdtGetHeader m fdt .offDtStrings + fdtGetHeader m fdt .sizeDtStrings))

/-- `while (fdt_next_tag(fdt, struct_size, &struct_size) != FDT_END);` -/
def structEndLoop (fdt : Fdt) : Nat → Int → Option Int
  | 0, _ => none
  | fuel + 1, structSize =>
    match fdtNextTag fdt structSize with
    | (.fend, next) => some next
    | (_, next) => structEndLoop fdt fuel next

/-- A blob of a version before 17 does not say how long its structure block is: tags are looked for up to
the end of the address space. -/
def unsizedStruct (m : Memory) (fdt : Addr) : Fdt :=
  let start := fdt + fdtGetHeader m fdt .offDtStruct
  ⟨m.read start (4294967295 - start.toNat), [], []⟩

def structSizeOf (m : Memory) (fdt : Addr) : Option Int :=
  if 17 ≤ fdtGetHeader m fdt .version then some (fdtGetHeader m fdt .sizeDtStruct).toInt32.toInt
  else structEndLoop (unsizedStruct m fdt) (fdtFuel (unsizedStruct m fdt)) 0

/-- The blocks have to be put in order: first at the beginning of the buffer or right after the old tree,
and then in the buffer. -/
def openReordered (m : Memory) (fdt buf : Addr) (bufsize : Int) (memRsvSize structSize : UInt32) :
    Int × Memory :=
  let fdtend := fdt + fdtGetHeader m fdt .totalsize
  let newsize := 40 + memRsvSize + structSize + fdtGetHeader m fdt .sizeDtStrings
  if bufsize < newsize.toInt32.toInt then (errNoSpace, m)
  else
    let overlaps := decide (fdt < buf + newsize) && decide (buf < fdtend)
    let tmp := if overlaps then fdtend else buf
    if overlaps && decide (buf + UInt32.ofInt bufsize < tmp + newsize) then (errNoSpace, m)
    else
      let m := fdtPackblocks m fdt tmp memRsvSize structSize
      let m := (memmove m buf tmp newsize).2
      let m := fdtSetHdr m buf .magic fdtMagic
      let m := fdtSetHdr m buf .totalsize (UInt32.ofInt bufsize)
      let m := fdtSetHdr m buf .version 17
      let m := fdtSetHdr m buf .lastCompVersion 16
      (0, fdtSetHdr m buf .bootCpuidPhys (fdtGetHeader m fdt .bootCpuidPhys))

def openSized (m : Memory) (fdt buf : Addr) (bufsize : Int) (memRsvSize structSize : UInt32) :
    Int × Memory :=
  if fdtBlocksMisordered m fdt memRsvSize structSize then
    openReordered m fdt buf bufsize memRsvSize structSize
  else
    let r := fdtMove m fdt buf bufsize
    if r.1 ≠ 0 then r
    else
      let m := fdtSetHdr r.2 buf .version 17
      let m := fdtSetHdr m buf .sizeDtStruct structSize
      (0, fdtSetHdr m buf .totalsize (UInt32.ofInt bufsize))

/-- `none` where one of its loops does not end. -/
def fdtOpenInto (m : Memory) (fdt buf : Addr) (bufsize : Int) : Option (Int × Memory) :=
  if fdtCheckHeader m fdt ≠ 0 then some (fdtCheckHeader m fdt, m)
  else
    (fdtNumMemRsv m fdt).bind fun n => (structSizeOf m fdt).map fun structSize =>
      if structSize < 0 ∧ fdtGetHeader m fdt .version < 17 then (structSize, m)
      else openSized m fdt buf bufsize (UInt32.ofNat ((n + 1) * 16)) (UInt32.ofInt structSize)

end Babelfish.Libfdt
