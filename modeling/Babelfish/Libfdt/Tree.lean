import Babelfish.Lib.Assoc
import Babelfish.Lib.View
import Babelfish.Libfdt.Token

/-! Device trees as trees, the blobs that represent them, and what a node of the tree is in the
blob. -/

namespace Babelfish.Libfdt

open Bytes Forest

structure DtNode where
  name : Bytes
  props : List (Bytes × Bytes)
  deriving DecidableEq

/-- A forest with one root; the labels only tell nodes apart. -/
abbrev DeviceTree := Forest DtNode

namespace DtNode

def getprop (n : DtNode) (name : Bytes) : Option Bytes := n.props.lookup name

def setprop (name val : Bytes) (n : DtNode) : DtNode :=
  { n with props := Assoc.upsert name (fun _ => val) val n.props }

def appendprop (name val : Bytes) (n : DtNode) : DtNode :=
  { n with props := Assoc.upsert name (· ++ val) val n.props }

/-- A path component names a node in full or without its unit address. -/
def nameMatches (s name : Bytes) : Bool :=
  name.take s.length == s &&
    (name.length == s.length || !s.contains atSign && name[s.length]? == some atSign)

def isNamed (s : Bytes) (n : DtNode) : Bool := nameMatches s n.name

@[simp] theorem name_setprop (name val : Bytes) (n : DtNode) : (n.setprop name val).name = n.name :=
  rfl

@[simp] theorem name_appendprop (name val : Bytes) (n : DtNode) :
    (n.appendprop name val).name = n.name := rfl

@[simp] theorem isNamed_setprop (s name val : Bytes) (n : DtNode) :
    (n.setprop name val).isNamed s = n.isNamed s := rfl

@[simp] theorem isNamed_appendprop (s name val : Bytes) (n : DtNode) :
    (n.appendprop name val).isNamed s = n.isNamed s := rfl

@[simp] theorem getprop_setprop_self (name val : Bytes) (n : DtNode) :
    (n.setprop name val).getprop name = some val := by
  simp only [getprop, setprop, Assoc.lookup_upsert_self]
  cases n.props.lookup name <;> rfl

theorem getprop_setprop_of_ne {name other : Bytes} (h : other ≠ name) (val : Bytes) (n : DtNode) :
    (n.setprop name val).getprop other = n.getprop other := Assoc.lookup_upsert_of_ne h _ _ _

@[simp] theorem getprop_appendprop_self (name val : Bytes) (n : DtNode) :
    (n.appendprop name val).getprop name = some ((n.getprop name).getD [] ++ val) := by
  simp only [getprop, appendprop, Assoc.lookup_upsert_self]
  cases n.props.lookup name <;> rfl

theorem getprop_appendprop_of_ne {name other : Bytes} (h : other ≠ name) (val : Bytes)
    (n : DtNode) : (n.appendprop name val).getprop other = n.getprop other :=
  Assoc.lookup_upsert_of_ne h _ _ _

def cell (n : DtNode) (name : Bytes) : Option Nat :=
  match n.getprop name with
  | some v => if v.length = 4 then some (readBe32 v) else none
  | none => none

def phandle (n : DtNode) : Nat :=
  match n.cell strPhandle with
  | some p => p
  | none => (n.cell strLinuxPhandle).getD 0

def propSize (p : Bytes × Bytes) : Nat := 12 + align4 p.2.length

def openSize (n : DtNode) : Nat := 4 + align4 (n.name.length + 1) + (n.props.map propSize).sum

end DtNode

def HasString (strings : Bytes) (nameoff : Nat) (name : Bytes) : Prop :=
  0 ∉ name ∧ ∃ rest, strings.drop nameoff = name ++ 0 :: rest

theorem HasString.append {strings : Bytes} {nameoff : Nat} {name : Bytes}
    (h : HasString strings nameoff name) (more : Bytes) :
    HasString (strings ++ more) nameoff name := by
  obtain ⟨hz, rest, hr⟩ := h
  have hle : nameoff ≤ strings.length := by
    by_contra hlt
    rw [List.drop_eq_nil_of_le (by omega)] at hr
    simp at hr
  exact ⟨hz, rest ++ more, by rw [List.drop_append_of_le_length hle, hr]; simp⟩

theorem HasString.fdtString {fdt : Fdt} {nameoff : Nat} {name : Bytes}
    (h : HasString fdt.dtStrings nameoff name) : fdtString fdt nameoff = name := by
  obtain ⟨hz, rest, hr⟩ := h
  rw [Libfdt.fdtString, hr, cstr_append hz]

inductive PropsEnc (strings : Bytes) : List (Bytes × Bytes) → List Tok → Prop
  | nil : PropsEnc strings [] []
  | cons {name value pad : Bytes} {nameoff : Nat} {props : List (Bytes × Bytes)} {ts : List Tok} :
      HasString strings nameoff name → PropsEnc strings props ts →
      PropsEnc strings ((name, value) :: props) (.prop nameoff value pad :: ts)

def NodeEnc (strings : Bytes) (n : DtNode) (ts : List Tok) : Prop :=
  ∃ pad ps, ts = .beginNode n.name pad :: ps ∧ PropsEnc strings n.props ps

abbrev TreeEnc (strings : Bytes) : DeviceTree → List Tok → Prop :=
  Flat (NodeEnc strings) [.endNode]

theorem PropsEnc.weight {strings : Bytes} {props : List (Bytes × Bytes)} {ts : List Tok}
    (h : PropsEnc strings props ts) : Forest.weight Tok.size ts = (props.map DtNode.propSize).sum := by
  induction h with
  | nil => rfl
  | cons _ _ ih => simp [ih, Tok.size, DtNode.propSize]

theorem NodeEnc.weight {strings : Bytes} {n : DtNode} {ts : List Tok} (h : NodeEnc strings n ts) :
    Forest.weight Tok.size ts = n.openSize := by
  obtain ⟨pad, ps, rfl, hp⟩ := h
  simp [hp.weight, Tok.size, DtNode.openSize]

theorem TreeEnc.weight {strings : Bytes} {T : DeviceTree} {ts : List Tok} (h : TreeEnc strings T ts) :
    Forest.weight Tok.size ts = T.size DtNode.openSize 4 :=
  Flat.weight_eq (fun _ _ hn => NodeEnc.weight hn) h

theorem PropsEnc.mono {strings : Bytes} {props : List (Bytes × Bytes)} {ts : List Tok}
    (h : PropsEnc strings props ts) (more : Bytes) : PropsEnc (strings ++ more) props ts := by
  induction h with
  | nil => exact .nil
  | cons hs _ ih => exact .cons (hs.append more) ih

theorem NodeEnc.mono {strings : Bytes} {n : DtNode} {ts : List Tok} (h : NodeEnc strings n ts)
    (more : Bytes) : NodeEnc (strings ++ more) n ts := by
  obtain ⟨pad, ps, rfl, hp⟩ := h
  exact ⟨pad, ps, rfl, hp.mono more⟩

theorem PropsEnc.append_left {strings : Bytes} {ps₁ ps₂ : List (Bytes × Bytes)} {ts : List Tok}
    (h : PropsEnc strings (ps₁ ++ ps₂) ts) :
    ∃ ts₁ ts₂, ts = ts₁ ++ ts₂ ∧ PropsEnc strings ps₁ ts₁ ∧ PropsEnc strings ps₂ ts₂ := by
  induction ps₁ generalizing ts with
  | nil => exact ⟨[], ts, rfl, .nil, h⟩
  | cons p ps ih =>
    cases h with
    | cons hs h =>
      obtain ⟨ts₁, ts₂, rfl, h₁, h₂⟩ := ih h
      exact ⟨_ :: ts₁, ts₂, rfl, .cons hs h₁, h₂⟩

theorem PropsEnc.append {strings : Bytes} {ps₁ ps₂ : List (Bytes × Bytes)} {ts₁ ts₂ : List Tok}
    (h₁ : PropsEnc strings ps₁ ts₁) (h₂ : PropsEnc strings ps₂ ts₂) :
    PropsEnc strings (ps₁ ++ ps₂) (ts₁ ++ ts₂) := by
  induction h₁ with
  | nil => exact h₂
  | cons hs _ ih => exact .cons hs ih

namespace DeviceTree

def offset (T : DeviceTree) (id : Nat) : Option Nat := Forest.offset DtNode.openSize 4 id T

def root : DeviceTree → Nat
  | .nil => 0
  | .node i _ _ _ => i

def Rooted (T : DeviceTree) : Prop := ∃ i n sub, T = .node i n sub .nil

theorem Rooted.root_mem {T : DeviceTree} (h : Rooted T) : T.root ∈ T.ids := by
  obtain ⟨i, n, sub, rfl⟩ := h
  simp [root, Forest.ids]

theorem Rooted.update {T : DeviceTree} (h : Rooted T) (i : Nat)
    (f : DtNode → DeviceTree → DtNode × DeviceTree) : Rooted (T.update i f) := by
  obtain ⟨k, n, sub, rfl⟩ := h
  by_cases hk : k = i
  · exact ⟨k, (f n sub).1, (f n sub).2, by simp [Forest.update, hk]⟩
  · exact ⟨k, n, sub.update i f, by simp [Forest.update, hk]⟩

theorem stays_modify {T : DeviceTree} {id o : Nat} {n : DtNode} (hnodup : T.ids.Nodup)
    (hn : T.get? id = some n) (ho : offset T id = some o) (g : DtNode → DtNode) :
    (T.modify id g).get? id = some (g n) ∧ offset (T.modify id g) id = some o := by
  refine ⟨?_, (Forest.offset_update_of_precedes hnodup (Or.inr rfl) _).trans ho⟩
  rw [Forest.get?_modify_self, hn, Option.map_some]

def lookup (T : DeviceTree) (path : Bytes) : Option Nat :=
  T.walk T.root ((pathComponents path).map DtNode.isNamed)

def aliasPath (T : DeviceTree) (name : Bytes) : Option Bytes :=
  match (T.lookup strAliases).bind fun id => T.get? id with
  | some n =>
    match n.getprop name with
    | some v => if 0 ∈ v ∧ v.head? = some slash then some (cstr v) else none
    | none => none
  | none => none

def resolve (T : DeviceTree) (path : Bytes) : Option Nat :=
  if path.head? = some slash then T.lookup path
  else
    ((T.aliasPath (path.takeWhile (· ≠ slash))).bind T.lookup).bind fun id =>
      T.walk id ((pathComponents (path.dropWhile (· ≠ slash))).map DtNode.isNamed)

end DeviceTree

structure Repr (fdt : Fdt) (T : DeviceTree) : Prop where
  enc : ∃ ts, At fdt 0 (ts ++ [.fend]) ∧ TreeEnc fdt.dtStrings T ts
  nodup : T.ids.Nodup
  rooted : DeviceTree.Rooted T
  small : fdt.dtStruct.length + fdt.dtStrings.length + fdt.free.length < 2147483648

theorem Repr.root_mem {fdt : Fdt} {T : DeviceTree} (h : Repr fdt T) :
    DeviceTree.root T ∈ T.ids := h.rooted.root_mem

theorem DeviceTree.offset_isSome {T : DeviceTree} {id : Nat} (h : id ∈ T.ids) :
    ∃ o, T.offset id = some o := Forest.offset_isSome DtNode.openSize 4 h

theorem Repr.offset_root {fdt : Fdt} {T : DeviceTree} (h : Repr fdt T) :
    DeviceTree.offset T (DeviceTree.root T) = some 0 := by
  obtain ⟨i, n, sub, rfl⟩ := h.rooted
  simp [DeviceTree.root, DeviceTree.offset, Forest.offset]

theorem Repr.split {fdt : Fdt} {T : DeviceTree} (h : Repr fdt T) {id : Nat} {n : DtNode}
    {sub : DeviceTree} (hf : T.find? id = some (n, sub)) :
    ∃ pre pad ps ss post,
      At fdt 0 (pre ++ (.beginNode n.name pad :: ps ++ (ss ++ (.endNode :: post)))) ∧
      PropsEnc fdt.dtStrings n.props ps ∧ TreeEnc fdt.dtStrings sub ss ∧
      DeviceTree.offset T id = some (Forest.weight Tok.size pre) ∧
      ∀ (f : DtNode → DeviceTree → DtNode × DeviceTree) (more : Bytes) (as ss' : List Tok),
        NodeEnc (fdt.dtStrings ++ more) (f n sub).1 as →
        TreeEnc (fdt.dtStrings ++ more) (f n sub).2 ss' →
        ∃ ts, TreeEnc (fdt.dtStrings ++ more) (T.update id f) ts ∧
          ts ++ [.fend] = pre ++ (as ++ (ss' ++ (.endNode :: post))) := by
  obtain ⟨ts, hat, henc⟩ := h.enc
  have hweight : ∀ n ts, NodeEnc fdt.dtStrings n ts → Forest.weight Tok.size ts = n.openSize :=
    fun _ _ hn => hn.weight
  obtain ⟨pre, as, ss, post, rfl, ⟨pad, ps, rfl, hps⟩, hss, ho, hedit⟩ :=
    henc.split hweight h.nodup hf
  refine ⟨pre, pad, ps, ss, post ++ [.fend], by simpa using hat, hps, hss, ho, ?_⟩
  intro f more as ss' has hss'
  exact ⟨_, hedit (NodeEnc (fdt.dtStrings ++ more)) (fun _ _ hn => hn.mono more) f as ss' has hss',
    by simp⟩

end Babelfish.Libfdt
