import Babelfish.FdtTools
import Babelfish.Script

/-! The fixups of `fixup.c`. -/

namespace Babelfish

open Libfdt Bytes

def strPinctrlPath : Bytes := Bytes.ofString "/soc@01c00000/pinctrl@01c20800"

def strChosenPath : Bytes := Bytes.ofString "/chosen"
def strChosen : Bytes := Bytes.ofString "chosen"
def strBootargs : Bytes := Bytes.ofString "bootargs"
def strSpace : Bytes := Bytes.ofString " "

/-- The buffer with the new arguments; `old` is what `old_args` points to and `len` its length. -/
def newBootargs (len : Int) (old bootargs : Bytes) : Bytes :=
  if 0 < len then
    strcat (strcat (strcpy (malloc (len.toNat + strlen bootargs + 2)) old) strSpace) bootargs
  else strcpy (malloc (strlen bootargs + 2)) bootargs

def fdtFixupAppendBootargs (bootargs : Bytes) : Fixup Int := do
  let chosen ← pathOffset strChosenPath
  let offset ← if chosen < 0 then call .root (.addSubnode strChosen) 0 else pure chosen
  if offset < 0 then pure offset
  else
    let len ← call (.path strChosenPath) (.getprop strBootargs) offset
    let w ← get
    let oldArgs := ((fdtGetprop w.fdt offset strBootargs).1.map (cstrAt w.fdt)).getD []
    let ret ← setpropString (.path strChosenPath) offset strBootargs
      (cstr (newBootargs len oldArgs bootargs))
    if ret < 0 then pure ret else pure 0

/-! Lookups in the script, with the dereferences that they lead to. -/

def scriptFindEntry (s : Option ScriptSection) (name : Bytes) : Fixup (Option ScriptEntry) :=
  match s with
  | none => throw .nullDeref
  | some s => pure (findEntryLoop name s.entries)

def entryValue (entry : Option ScriptEntry) : Fixup UInt32 :=
  match entry with
  | none => throw .nullDeref
  | some ⟨_, .single v⟩ => pure v
  | some _ => throw .wrongType

def entryString (entry : Option ScriptEntry) : Fixup Bytes :=
  match entry with
  | none => throw .nullDeref
  | some ⟨_, .string s⟩ => pure s
  | some _ => throw .wrongType

def gpioEntryToStruct (entry : Option ScriptEntry) : Fixup Gpio :=
  match entry with
  | none => throw .nullDeref
  | some ⟨_, .gpio port portNum data⟩ => pure ⟨port, portNum, data[1], data[2]⟩
  | some _ => throw .wrongType

/-- A pin with its four words `mul_sel`, `pull`, `drv_level` and `data`. -/
structure Script.Pin where
  port : UInt32
  portNum : UInt32
  data : Vector UInt32 4
  deriving DecidableEq

def Script.Pin.gpio (p : Script.Pin) : Gpio := ⟨p.port, p.portNum, p.data[1], p.data[2]⟩

/-! `fdt_fixup_machine`. -/

def strCompatible : Bytes := Bytes.ofString "compatible"
def strModel : Bytes := Bytes.ofString "model"
def strProduct : Bytes := Bytes.ofString "product"
def strMachine : Bytes := Bytes.ofString "machine"

def fdtFixupMachine (compatible : Bytes) (script : Script) : Fixup Int := do
  let ret ← setpropString .root 0 strCompatible compatible
  if ret < 0 then pure ret
  else
    let entry ← scriptFindEntry (scriptFindSection script strProduct) strMachine
    let string ← entryString entry
    let ret ← setpropString .root 0 strModel (cstr string)
    if ret < 0 then pure ret else pure 0

/-! `fdt_fixup_uarts`. -/

def strUartPara : Bytes := Bytes.ofString "uart_para"
def strUartDebugPort : Bytes := Bytes.ofString "uart_debug_port"
def strConsole : Bytes := Bytes.ofString "console=ttyS"
def strBaud : Bytes := Bytes.ofString ",115200"
def strUartUsed : Bytes := Bytes.ofString "uart_used"
def strUartType : Bytes := Bytes.ofString "uart_type"
def strSerial : Bytes := Bytes.ofString "serial"
def strUart : Bytes := Bytes.ofString "uart"
def strStatus : Bytes := Bytes.ofString "status"
def strOkay : Bytes := Bytes.ofString "okay"

def strTx : Bytes := Bytes.ofString "uart_tx"
def strRx : Bytes := Bytes.ofString "uart_rx"
def strRts : Bytes := Bytes.ofString "uart_rts"
def strCts : Bytes := Bytes.ofString "uart_cts"
def strRing : Bytes := Bytes.ofString "uart_ring"
def strDcd : Bytes := Bytes.ofString "uart_dcd"
def strDsr : Bytes := Bytes.ofString "uart_dsr"
def strDtr : Bytes := Bytes.ofString "uart_dtr"

def uartGpio (s : Option ScriptSection) (key : Bytes) : Fixup Gpio := do
  let entry ← scriptFindEntry s key
  gpioEntryToStruct entry

/-- `case 2`; `above` is what the cases that fall through have filled in. -/
def uartCase2 (s : Option ScriptSection) (above : List Gpio) : Fixup (List Gpio) := do
  let rx ← uartGpio s strRx
  let tx ← uartGpio s strTx
  pure (tx :: rx :: above)

def uartCase4 (s : Option ScriptSection) (above : List Gpio) : Fixup (List Gpio) := do
  let cts ← uartGpio s strCts
  let rts ← uartGpio s strRts
  uartCase2 s (rts :: cts :: above)

def uartCase8 (s : Option ScriptSection) : Fixup (List Gpio) := do
  let dtr ← uartGpio s strDtr
  let dsr ← uartGpio s strDsr
  let dcd ← uartGpio s strDcd
  let ring ← uartGpio s strRing
  uartCase4 s [ring, dcd, dsr, dtr]

/-- The `switch` on `uart_type`; `none` is the `default` case, which continues the loop. -/
def uartGpios (s : Option ScriptSection) (type : UInt32) : Fixup (Option (List Gpio)) :=
  if type = 8 then some <$> uartCase8 s
  else if type = 4 then some <$> uartCase4 s []
  else if type = 2 then some <$> uartCase2 s []
  else pure none

def uartIdx (i : Nat) : UInt8 := 48 + UInt8.ofNat i

def fixupUart (script : Script) (i : Nat) : Fixup Int := do
  let para := scriptFindSection script (catChar strUartPara (uartIdx i))
  let entry ← scriptFindEntry para strUartUsed
  let used ← entryValue entry
  if used ≠ 1 then pure 0
  else
    let serial := catChar strSerial (uartIdx i)
    let offset ← pathOffset serial
    let ret ← setpropString (.path serial) offset strStatus strOkay
    if ret ≠ 0 then pure ret
    else
      let entry ← scriptFindEntry para strUartType
      let type ← entryValue entry
      let gpios ← uartGpios para type
      match gpios with
      | none => pure 0
      | some gpios =>
        let _ ← fdtAddPinctrlGroup strPinctrlPath serial gpios (catChar strUart (uartIdx i))
        pure 0

def uartLoop (script : Script) : List Nat → Fixup Int
  | [] => pure 0
  | i :: is => do
    let ret ← fixupUart script i
    if ret ≠ 0 then pure ret else uartLoop script is

def sunxiMaxUarts : Nat := 8

def fdtFixupUarts (script : Script) : Fixup Int := do
  let entry ← scriptFindEntry (scriptFindSection script strUartPara) strUartDebugPort
  let port ← entryValue entry
  let _ ← fdtFixupAppendBootargs (catChar strConsole (48 + port).toUInt8 ++ strBaud)
  uartLoop script (List.range sunxiMaxUarts)

def fdtFixupFromFex (compatible : Bytes) (script : Script) : Fixup Int := do
  let ret ← fdtFixupMachine compatible script
  if ret ≠ 0 then pure ret
  else
    let ret ← fdtFixupUarts script
    if ret ≠ 0 then pure ret else pure 0

/-! `fdt_fixup_from_atags`. -/

def atagCore : UInt32 := 0x54410001
def atagMem : UInt32 := 0x54410002
def atagInitrd2 : UInt32 := 0x54420005
def atagCmdline : UInt32 := 0x54410009

def strMemoryPath : Bytes := Bytes.ofString "/memory"
def strReg : Bytes := Bytes.ofString "reg"
def strInitrdStart : Bytes := Bytes.ofString "linux,initrd-start"
def strInitrdEnd : Bytes := Bytes.ofString "linux,initrd-end"

def tagWord (tags : List UInt32) (i : Nat) : UInt32 := tags[i]?.getD 0

def tagBytes (tags : List UInt32) : Bytes := tags.flatMap fun w => le32 w.toNat

def memReg (start size : UInt32) : Bytes := be32 start.toNat ++ be32 size.toNat

def fixupTag (tags : List UInt32) : Fixup Unit :=
  if tagWord tags 1 = atagCmdline then do
    let _ ← fdtFixupAppendBootargs (cstr (tagBytes (tags.drop 2)))
  else if tagWord tags 1 = atagMem then
    if tagWord tags 2 = 0 then pure ()
    else do
      let offset ← pathOffset strMemoryPath
      let _ ← call (.path strMemoryPath)
        (.setprop strReg (memReg (tagWord tags 3) (tagWord tags 2))) offset
  else if tagWord tags 1 = atagInitrd2 then do
    let offset ← pathOffset strChosenPath
    let _ ← setpropU32 (.path strChosenPath) offset strInitrdStart (tagWord tags 2)
    let _ ← setpropU32 (.path strChosenPath) offset strInitrdEnd (tagWord tags 2 + tagWord tags 3)
  else pure ()

/-- `for_each_tag`; every tag takes at least one word of the list. -/
def tagLoop : Nat → List UInt32 → Fixup Unit
  | 0, _ => pure ()
  | fuel + 1, tags =>
    if tagWord tags 0 = 0 then pure ()
    else do
      fixupTag tags
      tagLoop fuel (tags.drop (tagWord tags 0).toNat)

def fdtFixupFromAtags (tags : List UInt32) : Fixup Int := do
  tagLoop tags.length tags
  pure 0

end Babelfish
