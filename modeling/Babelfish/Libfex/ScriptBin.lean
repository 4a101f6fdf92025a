import Babelfish.Libfex.Memory
import Babelfish.Heap

/-! The decoder of `script_bin.c`. An image is the memory around the address that it is loaded at; the
script is the tree that its constructors make, and each of them asks `malloc` for its object. -/

namespace Babelfish.Libfex

open Bytes

/-- Memory at each address; the image is the part from `bin` on. -/
abbrev Image := UInt32 → UInt8

def bytesAt (mem : Image) (a : UInt32) (n : Nat) : Bytes :=
  (List.range n).map fun i => mem (a + UInt32.ofNat i)

def wordAt (mem : Image) (a : UInt32) : UInt32 :=
  (mem a).toUInt32 ||| (mem (a + 1)).toUInt32 <<< 8 ||| (mem (a + 2)).toUInt32 <<< 16 |||
    (mem (a + 3)).toUInt32 <<< 24

/-- `PTR(bin, offset << 2)` -/
def ptr (bin offset : UInt32) : UInt32 := bin + offset <<< 2

/-! `enum script_value_type`. -/

def typeSingleWord : UInt32 := 1
def typeString : UInt32 := 2
def typeGpio : UInt32 := 4
def typeNull : UInt32 := 5

def gpioBankMax : UInt32 := 13

/-! The fields of the packed structs; sections and entries take 40 bytes. -/

def headSections (mem : Image) (bin : UInt32) : UInt32 := wordAt mem bin

def headSection (bin : UInt32) (i : Nat) : UInt32 := bin + 16 + 40 * UInt32.ofNat i

def sectionName (mem : Image) (sec : UInt32) : Bytes := bytesAt mem sec 32
def sectionLength (mem : Image) (sec : UInt32) : UInt32 := wordAt mem (sec + 32)
def sectionOffset (mem : Image) (sec : UInt32) : UInt32 := wordAt mem (sec + 36)

def sectionEntry (mem : Image) (bin sec : UInt32) (j : Nat) : UInt32 :=
  ptr bin (sectionOffset mem sec) + 40 * UInt32.ofNat j

def entryName (mem : Image) (entry : UInt32) : Bytes := bytesAt mem entry 32
def entryData (mem : Image) (bin entry : UInt32) : UInt32 := ptr bin (wordAt mem (entry + 32))
def entryType (mem : Image) (entry : UInt32) : UInt32 := wordAt mem (entry + 36) >>> 16 &&& 0xffff
def entryWords (mem : Image) (entry : UInt32) : UInt32 := wordAt mem (entry + 36) &&& 0xffff

/-- Programs that allocate: the state is `heap_base`, and `none` is the return of zero when `malloc` has
returned `NULL`. -/
abbrev Alloc := StateT UInt32 Option

def alloc (size : Nat) : Alloc Unit := fun heapBase =>
  let (p, heapBase) := Heap.malloc heapBase (UInt32.ofNat size)
  if p = 0 then none else some ((), heapBase)

def appendEntry (s : ScriptSection) (name : Bytes) (value : ScriptValue) : Alloc ScriptSection := do
  alloc (sizeofEntry value)
  return { s with entries := s.entries ++ [⟨fieldName name, value⟩] }

/-- The scan `for (p=v, pe=v+bytes; *p && p!=pe; p++)` with `n` bytes left up to `pe`: where it ends, and
the addresses that it examines. -/
def seekEnd (mem : Image) : (n : Nat) → (p : UInt32) → UInt32 × List UInt32
  | 0, p => (p, [p])
  | n + 1, p =>
    if mem p = 0 then (p, [p])
    else
      let (q, examined) := seekEnd mem n (p + 1)
      (q, p :: examined)

/-- `words << 2` -/
def stringBytes (mem : Image) (entry : UInt32) : Nat := (entryWords mem entry <<< 2).toNat

/-- The `string[]` of a new string entry: what the scan has passed, and a terminator. -/
def storedString (mem : Image) (bin entry : UInt32) : Bytes :=
  let v := entryData mem bin entry
  let p := (seekEnd mem (stringBytes mem entry) v).1
  bytesAt mem v (p - v).toNat ++ [0]

/-- One round of the loop of `decompile_section`. The assertions only print, as the `default` case does. -/
def decompileEntry (mem : Image) (bin entry : UInt32) (s : ScriptSection) : Alloc ScriptSection :=
  let data := entryData mem bin entry
  let type := entryType mem entry
  if type = typeSingleWord then appendEntry s (entryName mem entry) (.single (wordAt mem data))
  else if type = typeString then
    appendEntry s (entryName mem entry) (.string (storedString mem bin entry))
  else if type = typeGpio then
    appendEntry s (entryName mem entry) (.gpio (wordAt mem data) (wordAt mem (data + 4))
      #v[wordAt mem (data + 8), wordAt mem (data + 12), wordAt mem (data + 16), wordAt mem (data + 20)])
  else if type = typeNull then appendEntry s (entryName mem entry) .null
  else return s

/-- `for (i = section->length; i--; entry++)` -/
def entryLoop (mem : Image) (bin : UInt32) : (i : Nat) → (entry : UInt32) → ScriptSection →
    Alloc ScriptSection
  | 0, _, s => return s
  | i + 1, entry, s => do
    let s ← decompileEntry mem bin entry s
    entryLoop mem bin i (entry + 40) s

def decompileSection (mem : Image) (bin sec : UInt32) (script : Script) : Alloc Script := do
  alloc sizeofSection
  let s ← entryLoop mem bin (sectionLength mem sec).toNat (ptr bin (sectionOffset mem sec))
    ⟨fieldName (sectionName mem sec), []⟩
  return ⟨script.sections ++ [s]⟩

/-- The number of rounds of `for (i=0; i < head->sections; i++)`; the count is signed. -/
def sectionCount (mem : Image) (bin : UInt32) : Nat :=
  let sections := (headSections mem bin).toNat
  if sections < 2 ^ 31 then sections else 0

def sectionLoop (mem : Image) (bin : UInt32) : List Nat → Script → Alloc Script
  | [], script => return script
  | i :: is, script => do
    let script ← decompileSection mem bin (headSection bin i) script
    sectionLoop mem bin is script

/-- The script is returned with 1; `none` is 0. -/
def scriptDecompileBin (mem : Image) (bin : UInt32) (script : Script) : Alloc Script :=
  sectionLoop mem bin (List.range (sectionCount mem bin)) script

/-! The end of a string. -/

theorem length_bytesAt (mem : Image) (a : UInt32) (n : Nat) : (bytesAt mem a n).length = n := by
  simp [bytesAt]

theorem bytesAt_succ (mem : Image) (a : UInt32) (n : Nat) :
    bytesAt mem a (n + 1) = mem a :: bytesAt mem (a + 1) n := by
  have hstep : ∀ i : Nat, a + UInt32.ofNat (i + 1) = a + 1 + UInt32.ofNat i := fun i => by
    rw [UInt32.ofNat_add, UInt32.add_comm (UInt32.ofNat i), ← UInt32.add_assoc]
    rfl
  unfold bytesAt
  rw [List.range_succ_eq_map, List.map_cons, List.map_map]
  refine List.cons_eq_cons.mpr ⟨congrArg mem (UInt32.add_zero a), ?_⟩
  exact List.map_congr_left fun i _ => congrArg mem (hstep i)

theorem seekEnd_eq (mem : Image) (n : Nat) (p : UInt32) :
    seekEnd mem n p = (p + UInt32.ofNat (cstr (bytesAt mem p n)).length,
      (List.range ((cstr (bytesAt mem p n)).length + 1)).map fun i => p + UInt32.ofNat i) := by
  induction n generalizing p with
  | zero => simp [seekEnd, bytesAt, cstr]
  | succ n ih =>
    have hstep : ∀ i : Nat, p + 1 + UInt32.ofNat i = p + UInt32.ofNat (i + 1) := fun i => by
      rw [UInt32.ofNat_add, UInt32.add_comm (UInt32.ofNat i), ← UInt32.add_assoc]
      rfl
    rw [bytesAt_succ, seekEnd, cstr]
    by_cases hz : mem p = 0
    · simp [hz]
    · rw [if_neg hz, if_neg hz, ih, List.length_cons]
      generalize (cstr (bytesAt mem (p + 1) n)).length = k
      refine Prod.ext (hstep k) ?_
      rw [List.range_succ_eq_map (n := k + 1), List.map_cons, List.map_map]
      refine List.cons_eq_cons.mpr ⟨(UInt32.add_zero p).symm, ?_⟩
      exact List.map_congr_left fun i _ => hstep i

theorem stringBytes_lt (mem : Image) (entry : UInt32) :
    stringBytes mem entry = 4 * (entryWords mem entry).toNat ∧ stringBytes mem entry < 262144 := by
  have hle : (entryWords mem entry).toNat ≤ 0xffff := by
    rw [entryWords, UInt32.toNat_and]
    exact Nat.and_le_right
  have hshift : (entryWords mem entry <<< 2).toNat = (entryWords mem entry).toNat * 4 % 2 ^ 32 := by
    rw [UInt32.toNat_shiftLeft, Nat.shiftLeft_eq]
    rfl
  unfold stringBytes
  omega

/-- The 4 * `words` bytes at the offset of a string entry. -/
def stringField (mem : Image) (bin entry : UInt32) : Bytes :=
  bytesAt mem (entryData mem bin entry) (stringBytes mem entry)

theorem length_cstr_le_length (bs : Bytes) : (cstr bs).length ≤ bs.length := by
  rw [← take_strlen]
  exact List.length_take_le' _ _

theorem bytesAt_take (mem : Image) (a : UInt32) {k n : Nat} (h : k ≤ n) :
    bytesAt mem a k = (bytesAt mem a n).take k := by
  unfold bytesAt
  rw [← List.map_take, List.take_range, Nat.min_eq_left h]

theorem storedString_eq (mem : Image) (bin entry : UInt32) :
    storedString mem bin entry = cstr (stringField mem bin entry) ++ [0] := by
  have hlt := (stringBytes_lt mem entry).2
  have hle := length_cstr_le_length (stringField mem bin entry)
  have hlen : (stringField mem bin entry).length = stringBytes mem entry := length_bytesAt _ _ _
  have hp : (entryData mem bin entry + UInt32.ofNat (cstr (stringField mem bin entry)).length -
      entryData mem bin entry).toNat = (cstr (stringField mem bin entry)).length := by
    rw [UInt32.add_comm, UInt32.add_sub_cancel, UInt32.toNat_ofNat']
    omega
  rw [storedString, seekEnd_eq, ← stringField, hp, bytesAt_take mem _ (hlen ▸ hle), ← stringField]
  exact congrArg (· ++ [0]) (take_strlen _)

def decodedValue (mem : Image) (bin entry : UInt32) : Option ScriptValue :=
  let data := entryData mem bin entry
  let type := entryType mem entry
  if type = typeSingleWord then some (.single (wordAt mem data))
  else if type = typeString then some (.string (cstr (stringField mem bin entry) ++ [0]))
  else if type = typeGpio then some (.gpio (wordAt mem data) (wordAt mem (data + 4))
    #v[wordAt mem (data + 8), wordAt mem (data + 12), wordAt mem (data + 16), wordAt mem (data + 20)])
  else if type = typeNull then some .null
  else none

end Babelfish.Libfex
