import Babelfish.CString

/-! The script tree of `script.h` and its lookups. -/

namespace Babelfish

/-- `enum script_value_type` with what the entries of each type hold. -/
inductive ScriptValue
  | single (value : UInt32)
  | string (s : Bytes)
  | gpio (port portNum : UInt32) (data : Vector UInt32 4)
  | null
  deriving DecidableEq

structure ScriptEntry where
  name : Bytes
  value : ScriptValue
  deriving DecidableEq

structure ScriptSection where
  name : Bytes
  entries : List ScriptEntry
  deriving DecidableEq

structure Script where
  sections : List ScriptSection
  deriving DecidableEq

/-- `script_find_section`; `none` is `NULL`. -/
def scriptFindSection (script : Script) (name : Bytes) : Option ScriptSection :=
  script.sections.find? fun s => strcmp s.name name = 0

def findEntryLoop (name : Bytes) (entries : List ScriptEntry) : Option ScriptEntry :=
  entries.find? fun e => strcmp e.name name = 0

end Babelfish
