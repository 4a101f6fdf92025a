import Babelfish.Calls

/-! The functions of `fdt_tools.c`. -/

namespace Babelfish

open Libfdt

/-- A `uint32_t` stored in an `int`. -/
def toInt32 (n : Nat) : Int :=
  let n := n % 4294967296
  if n < 2147483648 then n else n - 4294967296

def allocPhandleLoop (fdt : Fdt) : Nat → Int → Int → Int
  | 0, _, phandle => phandle
  | fuel + 1, offset, phandle =>
    if offset < 0 then phandle
    else
      let newPhandle := toInt32 (fdtGetPhandle fdt offset)
      allocPhandleLoop fdt fuel (fdtNextNode fdt offset none).1
        (if phandle < newPhandle then newPhandle else phandle)

def fdtAllocPhandle (fdt : Fdt) : Int :=
  allocPhandleLoop fdt (fdtFuel fdt) (fdtNextNode fdt (-1) none).1 0 + 1

def setpropU32 (target : Target) (offset : Int) (name : Bytes) (val : UInt32) : Fixup Int :=
  call target (.setprop name (Bytes.be32 val.toNat)) offset

def setpropString (target : Target) (offset : Int) (name str : Bytes) : Fixup Int :=
  call target (.setprop name (str ++ [0])) offset

def appendpropString (target : Target) (offset : Int) (name str : Bytes) : Fixup Int :=
  call target (.appendprop name (str ++ [0])) offset

def fdtSetPhandle (target : Target) (offset : Int) (phandle : UInt32) : Fixup Int := do
  let ret ← setpropU32 target offset strPhandle phandle
  if ret < 0 then pure ret
  else setpropU32 target offset strLinuxPhandle phandle

def fdtCreatePhandle (target : Target) (offset : Int) : Fixup UInt32 := do
  let phandle ← call target .getPhandle offset
  if phandle = 0 then
    let w ← get
    let phandle := UInt32.ofInt (fdtAllocPhandle w.fdt)
    let ret ← fdtSetPhandle target offset phandle
    if ret < 0 then pure 0 else pure phandle
  else pure (UInt32.ofInt phandle)

structure Gpio where
  port : UInt32
  portNum : UInt32
  drive : UInt32
  pull : UInt32
  deriving DecidableEq, Inhabited

/-- `strncat(s, &c, 1)`. -/
def catChar (s : Bytes) (c : UInt8) : Bytes := if c = 0 then s else s ++ [c]

def pullSuffix (pull : UInt32) : Bytes :=
  if pull = 1 then Bytes.ofString "_pullup"
  else if pull = 2 then Bytes.ofString "_pulldown"
  else []

def driveSuffix (drive : UInt32) : Bytes :=
  if drive = 1 then Bytes.ofString "_20mA"
  else if drive = 2 then Bytes.ofString "_30mA"
  else if drive = 3 then Bytes.ofString "_40mA"
  else []

def strPinsBabelfish : Bytes := Bytes.ofString "_pins_babelfish"

/-- The node name that the two `switch` statements build. -/
def groupName (device : Bytes) (pull drive : UInt32) : Bytes :=
  device ++ strPinsBabelfish ++ pullSuffix pull ++ driveSuffix drive

/-- The `default` branches of the two `switch` statements clear what they do not know. -/
def normPull (pull : UInt32) : UInt32 := if pull = 1 ∨ pull = 2 then pull else 0

def normDrive (drive : UInt32) : UInt32 := if drive = 1 ∨ drive = 2 ∨ drive = 3 then drive else 0

/-- The pin formatter: bank letter and two digits, each a `char`. -/
def pinName (port portNum : UInt32) : Bytes :=
  catChar (catChar (catChar (Bytes.ofString "P") (65 + port - 1).toUInt8) (48 + portNum / 10).toUInt8)
    (48 + portNum % 10).toUInt8

def strDrive : Bytes := Bytes.ofString "allwinner,drive"
def strPull : Bytes := Bytes.ofString "allwinner,pull"
def strFunction : Bytes := Bytes.ofString "allwinner,function"
def strPins : Bytes := Bytes.ofString "allwinner,pins"
def strPinctrlNames : Bytes := Bytes.ofString "pinctrl-names"
def strPinctrl : Bytes := Bytes.ofString "pinctrl-"
def strDefault : Bytes := Bytes.ofString "default"

def pinctrlProp (ngroup : Nat) : Bytes := catChar strPinctrl (48 + UInt8.ofNat ngroup)

/-- What is done for a group that is not there yet; the offset of its node, or an error. -/
def fdtNewGroup (pinctrlPath parentPath device : Bytes) (pctrlOffset : Int) (pull drive : UInt32)
    (ngroup : Nat) : Fixup Int := do
  let name := groupName device pull drive
  let group := Target.subnode pinctrlPath name
  let offset ← call (.path pinctrlPath) (.addSubnode name) pctrlOffset
  if offset < 0 then pure offset
  else
    let _ ← setpropU32 group offset strDrive (normDrive drive)
    let _ ← setpropU32 group offset strPull (normPull pull)
    let _ ← setpropString group offset strFunction device
    let parentOffset ← pathOffset parentPath
    let _ ← appendpropString (.path parentPath) parentOffset strPinctrlNames strDefault
    let phandle ← fdtCreatePhandle group offset
    let parentOffset ← pathOffset parentPath
    let _ ← setpropU32 (.path parentPath) parentOffset (pinctrlProp ngroup) phandle
    pure offset

def groupLoop (pinctrlPath parentPath device : Bytes) (pctrlOffset : Int) :
    List Gpio → Nat → Fixup Int
  | [], _ => pure 0
  | g :: gpios, ngroup => do
    let name := groupName device g.pull g.drive
    let pin := pinName g.port g.portNum
    let offset ← call (.path pinctrlPath) (.subnodeOffset name) pctrlOffset
    if offset < 0 then
      let offset ← fdtNewGroup pinctrlPath parentPath device pctrlOffset g.pull g.drive ngroup
      if offset < 0 then pure offset
      else
        let _ ← appendpropString (.subnode pinctrlPath name) offset strPins pin
        groupLoop pinctrlPath parentPath device pctrlOffset gpios (ngroup + 1)
    else
      let _ ← appendpropString (.subnode pinctrlPath name) offset strPins pin
      groupLoop pinctrlPath parentPath device pctrlOffset gpios ngroup

def fdtAddPinctrlGroup (pinctrlPath parentPath : Bytes) (gpios : List Gpio) (device : Bytes) :
    Fixup Int := do
  let pctrlOffset ← pathOffset pinctrlPath
  if pctrlOffset < 0 then pure pctrlOffset
  else groupLoop pinctrlPath parentPath device pctrlOffset gpios 0

end Babelfish
