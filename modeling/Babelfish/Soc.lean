import Babelfish.Heap
import Babelfish.Lib.Bytes

/-! `match_soc`, which tells on what SoC the program runs. -/

namespace Babelfish

/-- The embedded device trees. -/
inductive Dtb
  | sun4iA10
  | sun5iA10s
  | sun5iA13
  | sun6iA31
  | sun7iA20
  deriving DecidableEq

def compatibleA10 : Bytes := Bytes.ofString "allwinner,sun4i-a10"
def compatibleA10s : Bytes := Bytes.ofString "allwinner,sun5i-a10s"
def compatibleA13 : Bytes := Bytes.ofString "allwinner,sun5i-a13"
def compatibleA31 : Bytes := Bytes.ofString "allwinner,sun6i-a31"
def compatibleA20 : Bytes := Bytes.ofString "allwinner,sun7i-a20"

def sramIdSun4i : UInt32 := 0x1623
def sramIdSun5i : UInt32 := 0x1625
def sramIdSun6i : UInt32 := 0x1633
def sramIdSun7i : UInt32 := 0x1651

def Dtb.compatible : Dtb → Bytes
  | sun4iA10 => compatibleA10
  | sun5iA10s => compatibleA10s
  | sun5iA13 => compatibleA13
  | sun6iA31 => compatibleA31
  | sun7iA20 => compatibleA20

/-- A local variable: what it is assigned or, before that, the word that the stack holds. -/
inductive Local (α : Type)
  | assigned (a : α)
  | stale (word : UInt32)
  deriving DecidableEq

structure Soc where
  compatible : Local Bytes
  fdt : Local Dtb
  deriving DecidableEq

structure Registers where
  version : UInt32
  readBack : UInt32 → UInt32
  sid : UInt32

namespace Registers

def sramId (r : Registers) : UInt32 := r.readBack (r.version ||| (1 : UInt32) <<< 15) >>> 16 &&& 0xffff

def sidField (r : Registers) : UInt32 := r.sid >>> 12 &&& 0xf

end Registers

/-- The two `switch` statements; `none` is the outer `default`. The inner one has none. -/
def selectSoc (r : Registers) (soc : Soc) : Option Soc :=
  if r.sramId = sramIdSun4i then some ⟨.assigned compatibleA10, .assigned .sun4iA10⟩
  else if r.sramId = sramIdSun5i then
    if r.sidField = 3 then some ⟨.assigned compatibleA13, .assigned .sun5iA13⟩
    else if r.sidField = 7 then some ⟨.assigned compatibleA10s, .assigned .sun5iA10s⟩
    else some soc
  else if r.sramId = sramIdSun6i then some ⟨.assigned compatibleA31, .assigned .sun6iA31⟩
  else if r.sramId = sramIdSun7i then some ⟨.assigned compatibleA20, .assigned .sun7iA20⟩
  else none

def sizeofSoc : UInt32 := 8

/-- The new `struct soc`, or `NULL`, and `heap_base`; `cpt` and `fdt` are what the stack holds. -/
def matchSoc (r : Registers) (cpt fdt heapBase : UInt32) : Option Soc × UInt32 :=
  match selectSoc r ⟨.stale cpt, .stale fdt⟩ with
  | none => (none, heapBase)
  | some soc =>
    let (p, heapBase) := Heap.malloc heapBase sizeofSoc
    if p = 0 then (none, heapBase) else (some soc, heapBase)

/-- Both fields were assigned, and belong to the same SoC. -/
def Soc.Assigned (soc : Soc) : Prop := ∃ d : Dtb, soc = ⟨.assigned d.compatible, .assigned d⟩

/-- The registers tell the SoC: the id that is shared comes with a field for one of those that share it. -/
def Registers.Tell (r : Registers) : Prop := r.sramId = sramIdSun5i → r.sidField = 3 ∨ r.sidField = 7

theorem selectSoc_assigned {r : Registers} {soc soc' : Soc} (h : r.Tell)
    (hsoc : selectSoc r soc = some soc') : soc'.Assigned := by
  unfold selectSoc at hsoc
  split at hsoc
  · cases hsoc
    exact ⟨.sun4iA10, rfl⟩
  · split at hsoc
    · rename_i hid
      split at hsoc
      · cases hsoc
        exact ⟨.sun5iA13, rfl⟩
      · rename_i hne
        rw [if_pos ((h hid).resolve_left hne)] at hsoc
        cases hsoc
        exact ⟨.sun5iA10s, rfl⟩
    · split at hsoc
      · cases hsoc
        exact ⟨.sun6iA31, rfl⟩
      · split at hsoc
        · cases hsoc
          exact ⟨.sun7iA20, rfl⟩
        · cases hsoc

/-- Without a case of the inner `switch` both variables keep what the stack held. -/
theorem selectSoc_stale {r : Registers} (h : ¬r.Tell) (soc : Soc) : selectSoc r soc = some soc := by
  obtain ⟨hid, hfield⟩ := Classical.not_imp.mp h
  obtain ⟨h3, h7⟩ := not_or.mp hfield
  have hne : r.sramId ≠ sramIdSun4i := by
    rw [hid]
    decide
  rw [selectSoc, if_neg hne, if_pos hid, if_neg h3, if_neg h7]

theorem matchSoc_assigned {r : Registers} {cpt fdt heapBase heapBase' : UInt32} {soc : Soc} (h : r.Tell)
    (hsoc : matchSoc r cpt fdt heapBase = (some soc, heapBase')) : soc.Assigned := by
  unfold matchSoc at hsoc
  split at hsoc
  · cases hsoc
  · rename_i soc' hselect
    simp only at hsoc
    split at hsoc
    · cases hsoc
    · cases hsoc
      exact selectSoc_assigned h hselect

theorem matchSoc_stale {r : Registers} (h : ¬r.Tell) (cpt fdt : UInt32) {heapBase : UInt32}
    (hbase : heapBase ≠ 0) : matchSoc r cpt fdt heapBase =
      (some ⟨.stale cpt, .stale fdt⟩, heapBase + Heap.aligned sizeofSoc) := by
  rw [matchSoc, selectSoc_stale h]
  exact if_neg hbase

end Babelfish
