import Babelfish.Fixup
import Babelfish.Libfdt.Path
import Babelfish.Libfdt.Resolve

/-! What the fixups from ATAGs may touch in a tree: `/chosen`, which they may make, and the `reg`
property of `/memory`. -/

namespace Babelfish

open Libfdt Bytes Forest DeviceTree

def chosenProps : List Bytes := [strBootargs, strInitrdStart, strInitrdEnd]

def Touched (T : DeviceTree) (j : Nat) (name : Bytes) : Prop :=
  T.lookup strChosenPath = some j ∧ name ∈ chosenProps ∨
    T.lookup strMemoryPath = some j ∧ name = strReg

/-- `T` is `T₀` but for properties that may be set, and `/chosen` if it was made. -/
structure Frame (T₀ T : DeviceTree) : Prop where
  rooted₀ : T₀.Rooted
  nodup : T.ids.Nodup
  rooted : T.Rooted
  root : T.root = T₀.root
  memory : T.lookup strMemoryPath = T₀.lookup strMemoryPath
  chosen : ∀ id, T₀.lookup strChosenPath = some id → T.lookup strChosenPath = some id
  fresh : T₀.lookup strChosenPath = none → ∀ id, T.lookup strChosenPath = some id → id ∉ T₀.ids
  mem : ∀ j, j ∈ T.ids ↔ j ∈ T₀.ids ∨ T.lookup strChosenPath = some j
  kept : ∀ j n₀, T₀.get? j = some n₀ → ∃ n, T.get? j = some n ∧ n.name = n₀.name ∧
    ∀ name, n.getprop name = n₀.getprop name ∨ Touched T j name
  made : ∀ j n, j ∉ T₀.ids → T.get? j = some n → n.name = strChosen ∧
    ∀ name, n.getprop name ≠ none → name ∈ chosenProps
  kids : ∀ j ∈ T₀.ids, T.kids j =
    if j = T₀.root ∧ T₀.lookup strChosenPath = none then (T.lookup strChosenPath).toList ++ T₀.kids j
    else T₀.kids j
  madeKids : ∀ j, j ∉ T₀.ids → T.kids j = []

theorem pathComponents_chosen : pathComponents strChosenPath = [strChosen] := by decide

def strMemory : Bytes := Bytes.ofString "memory"

theorem pathComponents_memory : pathComponents strMemoryPath = [strMemory] := by decide

theorem kids_eq_nil {T : DeviceTree} {j : Nat} (h : j ∉ T.ids) : T.kids j = [] := by
  simp [Forest.kids, find?_eq_none h]

section

variable {T₀ T : DeviceTree} {i : Nat}

theorem Frame.refl (hn : T₀.ids.Nodup) (hr : T₀.Rooted) : Frame T₀ T₀ where
  rooted₀ := hr
  nodup := hn
  rooted := hr
  root := rfl
  memory := rfl
  chosen _ h := h
  fresh h id hid := by rw [h] at hid; cases hid
  mem j := ⟨Or.inl, fun h => h.elim id fun hc => walk_mem hr.root_mem hc⟩
  kept j n h := ⟨n, h, rfl, fun _ => Or.inl rfl⟩
  made j n hj h := absurd (mem_of_get? h) hj
  kids j _ := by
    split
    · rename_i h
      rw [h.2, Option.toList_none, List.nil_append]
    · rfl
  madeKids j hj := kids_eq_nil hj

theorem chosen_ne_memory (hn : T.ids.Nodup) (h : T.lookup strChosenPath = some i) :
    T.lookup strMemoryPath ≠ some i :=
  lookup_ne hn pathComponents_chosen pathComponents_memory (by decide) (by decide) (by decide) h

theorem touched_modify (hn : T.ids.Nodup) {g : DtNode → DtNode} (hg : KeepsName g) (j : Nat)
    (name : Bytes) : Touched (T.modify i g) j name ↔ Touched T j name := by
  unfold Touched
  rw [lookup_modify hn hg, lookup_modify hn hg]

theorem Frame.setprop (h : Frame T₀ T) {name : Bytes} (ht : Touched T i name) (val : Bytes) :
    Frame T₀ (T.modify i (DtNode.setprop name val)) := by
  have hkeep := keepsName_setprop name val
  have hchosen := lookup_modify h.nodup hkeep (i := i) strChosenPath
  refine
    { rooted₀ := h.rooted₀
      nodup := by rw [ids_modify]; exact h.nodup
      rooted := h.rooted.update _ _
      root := (root_update T i _).trans h.root
      memory := (lookup_modify h.nodup hkeep _).trans h.memory
      chosen := fun id hid => hchosen.trans (h.chosen id hid)
      fresh := fun hnone id hid => h.fresh hnone id (hchosen.symm.trans hid)
      mem := fun j => by rw [ids_modify, hchosen]; exact h.mem j
      kept := ?_
      made := ?_
      kids := fun j hj => by rw [kids_modify h.nodup, hchosen]; exact h.kids j hj
      madeKids := fun j hj => by rw [kids_modify h.nodup]; exact h.madeKids j hj }
  · intro j n₀ hj
    obtain ⟨n, hn, hname, hprops⟩ := h.kept j n₀ hj
    by_cases hji : j = i
    · subst hji
      refine ⟨n.setprop name val, by rw [get?_modify_self, hn]; rfl, hname, fun p => ?_⟩
      rw [touched_modify h.nodup hkeep]
      by_cases hp : p = name
      · exact Or.inr (hp ▸ ht)
      · rw [DtNode.getprop_setprop_of_ne hp]
        exact hprops p
    · refine ⟨n, by rw [get?_modify_of_ne hji h.nodup, hn], hname, fun p => ?_⟩
      rw [touched_modify h.nodup hkeep]
      exact hprops p
  · intro j n hj hn
    by_cases hji : j = i
    · subst hji
      rw [get?_modify_self, Option.map_eq_some_iff] at hn
      obtain ⟨n', hn', rfl⟩ := hn
      obtain ⟨hname, hprops⟩ := h.made j n' hj hn'
      refine ⟨hname, fun p hp => ?_⟩
      by_cases hpn : p = name
      · rcases ht with ⟨-, hm⟩ | ⟨hm, -⟩
        · exact hpn ▸ hm
        · exact absurd (walk_mem h.rooted₀.root_mem (h.memory ▸ hm)) hj
      · rw [DtNode.getprop_setprop_of_ne hpn] at hp
        exact hprops p hp
    · rw [get?_modify_of_ne hji h.nodup] at hn
      exact h.made j n hj hn

theorem lookup_chosen_addFirst (hr : T.Rooted) (new : Nat) :
    DeviceTree.lookup (T.addFirst T.root new ⟨strChosen, []⟩) strChosenPath = some new := by
  have hroot : DeviceTree.root (T.addFirst T.root new ⟨strChosen, []⟩) = T.root := root_update T _ _
  rw [lookup_eq_childOf pathComponents_chosen, hroot, childOf_addFirst_self hr.root_mem]
  simp [DtNode.isNamed, DtNode.nameMatches_self]

theorem lookup_memory_addFirst (hn : T.ids.Nodup) (hr : T.Rooted) {new : Nat} (hfresh : new ∉ T.ids) :
    DeviceTree.lookup (T.addFirst T.root new ⟨strChosen, []⟩) strMemoryPath =
      T.lookup strMemoryPath :=
  lookup_addFirst_eq hr hn hfresh (by decide) (by decide)

theorem Frame.create (h : Frame T₀ T) (hnone : T.lookup strChosenPath = none) {new : Nat}
    (hfresh : new ∉ T.ids) : Frame T₀ (T.addFirst T.root new ⟨strChosen, []⟩) := by
  have hchosen := lookup_chosen_addFirst h.rooted new
  have hmemory := lookup_memory_addFirst h.nodup h.rooted hfresh
  have hroot := h.rooted.root_mem
  have hnone₀ : T₀.lookup strChosenPath = none := by
    cases hc : T₀.lookup strChosenPath with
    | none => rfl
    | some id => rw [h.chosen id hc] at hnone; cases hnone
  have hmem : ∀ j, j ∈ T.ids ↔ j ∈ T₀.ids := fun j => by
    rw [h.mem, hnone]
    simp
  have hne : ∀ j ∈ T₀.ids, j ≠ new := fun j hj e => hfresh ((hmem new).mpr (e ▸ hj))
  refine
    { rooted₀ := h.rooted₀
      nodup := nodup_addFirst h.nodup hfresh _
      rooted := h.rooted.update _ _
      root := (root_update T _ _).trans h.root
      memory := hmemory.trans h.memory
      chosen := fun id hid => by rw [hnone₀] at hid; cases hid
      fresh := fun _ id hid hm => ?_
      mem := fun j => ?_
      kept := ?_
      made := ?_
      kids := ?_
      madeKids := ?_ }
  · rw [hchosen, Option.some.injEq] at hid
    exact hfresh ((hmem new).mpr (hid ▸ hm))
  · rw [mem_ids_addFirst h.nodup hroot, hmem, hchosen, Option.some.injEq, or_comm, eq_comm]
  · intro j n₀ hj
    obtain ⟨n, hn, hname, hprops⟩ := h.kept j n₀ hj
    refine ⟨n, by rw [get?_addFirst_of_ne (hne j (mem_of_get? hj)) h.nodup, hn], hname, fun p => ?_⟩
    refine (hprops p).imp_right fun ht => ?_
    rcases ht with ⟨hc, -⟩ | ht
    · rw [hnone] at hc
      cases hc
    · exact Or.inr ⟨hmemory.trans ht.1, ht.2⟩
  · intro j n hj hn
    by_cases hjn : j = new
    · subst hjn
      rw [get?_addFirst_new hroot hfresh, Option.some.injEq] at hn
      subst hn
      exact ⟨rfl, fun p hp => absurd rfl hp⟩
    · rw [get?_addFirst_of_ne hjn h.nodup] at hn
      exact absurd ((hmem j).mp (mem_of_get? hn)) hj
  · intro j hj
    by_cases hjr : j = T.root
    · subst hjr
      have hold := h.kids T.root hj
      rw [hnone, Option.toList_none, List.nil_append, ite_self] at hold
      rw [kids_addFirst_self hroot, if_pos ⟨h.root, hnone₀⟩, hchosen, hold]
      rfl
    · have hold := h.kids j hj
      rw [if_neg fun e => hjr (e.1.trans h.root.symm)] at hold
      rw [kids_addFirst_of_ne hjr (hne j hj) h.nodup, hold, if_neg fun e => hjr (e.1.trans h.root.symm)]
  · intro j hj
    by_cases hjn : j = new
    · subst hjn
      exact kids_addFirst_new hroot hfresh
    · have hjr : j ≠ T.root := fun e => hj ((hmem j).mp (e ▸ hroot))
      rw [kids_addFirst_of_ne hjr hjn h.nodup]
      exact h.madeKids j hj

def propAt (T : DeviceTree) (path name : Bytes) : Option Bytes :=
  (T.lookup path).bind fun id => (T.get? id).bind fun n => n.getprop name

def readProp (fdt : Fdt) (path name : Bytes) : Option Bytes :=
  let offset := fdtPathOffset fdt path
  if offset < 0 then none
  else
    match fdtGetprop fdt offset name with
    | (some p, len) => some ((fdt.dtStruct.drop p.toNat).take len.toNat)
    | (none, _) => none

theorem readProp_of_offset {fdt : Fdt} (h : Repr fdt T) {path : Bytes} {o : Nat} {n : DtNode}
    (hn : T.get? i = some n) (ho : DeviceTree.offset T i = some o) (hp : fdtPathOffset fdt path = o)
    (name : Bytes) : readProp fdt path name = n.getprop name := by
  have hpos : ¬((o : Int) < 0) := by omega
  unfold readProp
  rw [hp, if_neg hpos]
  cases hv : n.getprop name with
  | none => rw [h.getprop_none hn ho hv]
  | some v =>
    obtain ⟨p, hget, -, rest, hdrop⟩ := h.getprop_some hn ho hv
    simp only [hget, Int.toNat_natCast, hdrop, List.take_left]

theorem readProp_resolve {fdt : Fdt} (h : Repr fdt T) {path : Bytes} (hz : 0 ∉ path) {n : DtNode}
    (hr : T.resolve path = some i) (hn : T.get? i = some n) (name : Bytes) :
    readProp fdt path name = n.getprop name := by
  obtain ⟨o, ho⟩ := DeviceTree.offset_isSome (mem_of_get? hn)
  exact readProp_of_offset h hn ho (h.pathOffset hz hr ho) name

theorem readProp_eq {fdt : Fdt} (h : Repr fdt T) {path : Bytes} (hz : 0 ∉ path)
    (habs : path.head? = some slash) (name : Bytes) : readProp fdt path name = propAt T path name := by
  have hneg : errNotFound < 0 := by simp [errNotFound]
  unfold propAt
  cases hl : T.lookup path with
  | none =>
    unfold readProp
    rw [(h.pathOffset_abs hz habs).1 hl, if_pos hneg, Option.bind_none]
  | some i =>
    obtain ⟨n, hn⟩ := get?_of_mem (walk_mem h.root_mem hl)
    have hr : T.resolve path = some i := by rw [resolve, if_pos habs, hl]
    rw [readProp_resolve h hz hr hn, Option.bind_some, hn, Option.bind_some]

theorem propAt_setprop_self {path : Bytes} (hn : T.ids.Nodup) (hr : T.Rooted)
    (h : T.lookup path = some i) (name val : Bytes) :
    propAt (T.modify i (DtNode.setprop name val)) path name = some val := by
  obtain ⟨n, hget⟩ := get?_of_mem (walk_mem hr.root_mem h)
  unfold propAt
  rw [lookup_modify hn (keepsName_setprop name val), h, Option.bind_some, get?_modify_self, hget]
  simp

theorem propAt_setprop_of_ne {path name other : Bytes} (hn : T.ids.Nodup)
    (h : T.lookup path = some i → other ≠ name) (val : Bytes) :
    propAt (T.modify i (DtNode.setprop name val)) path other = propAt T path other := by
  unfold propAt
  rw [lookup_modify hn (keepsName_setprop name val)]
  cases hl : T.lookup path with
  | none => rfl
  | some j =>
    simp only [Option.bind_some]
    by_cases hj : j = i
    · subst hj
      rw [get?_modify_self]
      cases T.get? j with
      | none => rfl
      | some n => simp [DtNode.getprop_setprop_of_ne (h hl)]
    · rw [get?_modify_of_ne hj hn]

@[ext] structure Initrd where
  chosen : Bool
  start : Option Bytes
  stop : Option Bytes
  deriving DecidableEq

def initrdOf (T : DeviceTree) : Initrd :=
  ⟨(T.lookup strChosenPath).isSome, propAt T strChosenPath strInitrdStart,
    propAt T strChosenPath strInitrdEnd⟩

theorem initrdOf_setprop {name : Bytes} (hn : T.ids.Nodup)
    (h : T.lookup strChosenPath = some i → name ≠ strInitrdStart ∧ name ≠ strInitrdEnd) (val : Bytes) :
    initrdOf (T.modify i (DtNode.setprop name val)) = initrdOf T := by
  unfold initrdOf
  rw [lookup_modify hn (keepsName_setprop name val),
    propAt_setprop_of_ne hn fun hc => (h hc).1.symm, propAt_setprop_of_ne hn fun hc => (h hc).2.symm]

theorem propAt_chosen_addFirst (hr : T.Rooted) {new : Nat} (hfresh : new ∉ T.ids) (name : Bytes) :
    propAt (T.addFirst T.root new ⟨strChosen, []⟩) strChosenPath name = none := by
  unfold propAt
  rw [lookup_chosen_addFirst hr, Option.bind_some, get?_addFirst_new hr.root_mem hfresh]
  rfl

theorem initrdOf_addFirst (hr : T.Rooted) (hnone : T.lookup strChosenPath = none) {new : Nat}
    (hfresh : new ∉ T.ids) :
    initrdOf (T.addFirst T.root new ⟨strChosen, []⟩) = { initrdOf T with chosen := true } := by
  have hprop : ∀ name, propAt T strChosenPath name = none := fun name => by
    rw [propAt, hnone, Option.bind_none]
  unfold initrdOf
  rw [lookup_chosen_addFirst hr, propAt_chosen_addFirst hr hfresh, propAt_chosen_addFirst hr hfresh,
    hprop, hprop]
  rfl

theorem propAt_memory_addFirst (hn : T.ids.Nodup) (hr : T.Rooted) {new : Nat} (hfresh : new ∉ T.ids)
    (name : Bytes) :
    propAt (T.addFirst T.root new ⟨strChosen, []⟩) strMemoryPath name =
      propAt T strMemoryPath name := by
  unfold propAt
  rw [lookup_memory_addFirst hn hr hfresh]
  cases hl : T.lookup strMemoryPath with
  | none => rfl
  | some j =>
    have hj : j ≠ new := fun e => hfresh (e ▸ walk_mem hr.root_mem hl)
    rw [Option.bind_some, Option.bind_some, get?_addFirst_of_ne hj hn]

end

end Babelfish
