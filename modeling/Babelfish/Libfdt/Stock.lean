import Babelfish.Libfdt.Write

/-! Trees with the room for edits: what an edit takes, to the last byte, and what one without room
leaves. -/

namespace Babelfish.Libfdt

open Bytes Forest

structure Stock where
  tree : DeviceTree
  strings : Bytes
  free : Nat

/-- What `_fdt_find_add_string` adds to a strings block. -/
def newName (strings name : Bytes) : Bytes :=
  if (fdtFindString strings name).isSome then [] else name ++ [0]

theorem length_newName_le (strings name : Bytes) : (newName strings name).length ≤ name.length + 1 := by
  unfold newName
  split <;> simp

def propNeed (strings name : Bytes) (len : Nat) : Nat := (newName strings name).length + (12 + align4 len)

def nodeRoom (name : Bytes) : Nat := 8 + align4 (name.length + 1)

namespace Stock

/-- An edit to `T'` that needs `name` behind the strings and `need` bytes in place of `give`. Where only
the name fits, it is left behind. -/
def splice (S : Stock) (T' : DeviceTree) (name : Bytes) (need give : Nat) : Bool × Stock :=
  if name.length + need ≤ S.free + give then
    (true, ⟨T', S.strings ++ name, S.free + give - (name.length + need)⟩)
  else if name.length ≤ S.free then (false, ⟨S.tree, S.strings ++ name, S.free - name.length⟩)
  else (false, S)

def value (S : Stock) (i : Nat) (name : Bytes) : Option Bytes := (S.tree.get? i).bind (·.getprop name)

/-- A property of a node gets a value of `len` bytes, which makes the tree `T'`. -/
def put (S : Stock) (i : Nat) (name : Bytes) (len : Nat) (T' : DeviceTree) : Bool × Stock :=
  match S.value i name with
  | some v => S.splice T' [] (align4 len) (align4 v.length)
  | none => S.splice T' (newName S.strings name) (12 + align4 len) 0

def setprop (S : Stock) (i : Nat) (name val : Bytes) : Bool × Stock :=
  S.put i name val.length (S.tree.modify i (DtNode.setprop name val))

def appendprop (S : Stock) (i : Nat) (name val : Bytes) : Bool × Stock :=
  S.put i name (((S.value i name).getD []).length + val.length)
    (S.tree.modify i (DtNode.appendprop name val))

def addSubnode (S : Stock) (i new : Nat) (name : Bytes) : Bool × Stock :=
  S.splice (S.tree.addFirst i new ⟨name, []⟩) [] (nodeRoom name) 0

variable {S : Stock} {T' : DeviceTree} {i : Nat} {name val : Bytes} {need give len : Nat}

theorem splice_fst (S : Stock) (T' : DeviceTree) (name : Bytes) (need give : Nat) :
    (S.splice T' name need give).1 = decide (name.length + need ≤ S.free + give) := by
  unfold splice
  split
  · rename_i h
    exact (decide_eq_true h).symm
  · rename_i h
    rw [decide_eq_false h]
    split <;> rfl

theorem splice_of_le (h : name.length + need ≤ S.free + give) : S.splice T' name need give =
    (true, ⟨T', S.strings ++ name, S.free + give - (name.length + need)⟩) := if_pos h

theorem splice_tree (S : Stock) (T' : DeviceTree) (name : Bytes) (need give : Nat) :
    (S.splice T' name need give).2.tree =
      if (S.splice T' name need give).1 then T' else S.tree := by
  unfold splice
  split
  · rfl
  · split <;> rfl

theorem put_tree (S : Stock) (i : Nat) (name : Bytes) (len : Nat) (T' : DeviceTree) :
    (S.put i name len T').2.tree = if (S.put i name len T').1 then T' else S.tree := by
  unfold put
  split <;> exact splice_tree _ _ _ _ _

theorem put_eq_some {v : Bytes} (h : S.value i name = some v) :
    S.put i name len T' = S.splice T' [] (align4 len) (align4 v.length) := by
  unfold put
  rw [h]

theorem put_eq_none (h : S.value i name = none) :
    S.put i name len T' = S.splice T' (newName S.strings name) (12 + align4 len) 0 := by
  unfold put
  rw [h]

end Stock

structure Stocked (fdt : Fdt) (S : Stock) : Prop where
  repr : Repr fdt S.tree
  strings : fdt.dtStrings = S.strings
  free : fdt.free.length = S.free

theorem Repr.stocked {fdt : Fdt} {T : DeviceTree} (h : Repr fdt T) :
    Stocked fdt ⟨T, fdt.dtStrings, fdt.free.length⟩ := ⟨h, rfl, rfl⟩

/-- A call returns `ok` or lacks the room, and leaves a blob with what the edit of the stock leaves. -/
structure Edits (ok : Int) (r : Int × Fdt) (b : Bool × Stock) : Prop where
  ret : r.1 = if b.1 then ok else errNoSpace
  stocked : Stocked r.2 b.2

end Babelfish.Libfdt
