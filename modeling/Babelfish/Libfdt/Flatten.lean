import Babelfish.Libfdt.Tree

/-! Every tree whose names are C strings is represented by a blob. -/

namespace Babelfish.Libfdt

open Bytes Forest

def DtNode.toks (strings : Bytes) (n : DtNode) : List Tok :=
  .beginNode n.name (List.replicate (pad4 (n.name.length + 1)) 0) :: n.props.map fun p =>
    .prop ((fdtFindString strings p.1).getD 0) p.2 (List.replicate (pad4 p.2.length) 0)

namespace DeviceTree

def toks (strings : Bytes) : DeviceTree → List Tok
  | .nil => []
  | .node _ n sub next => n.toks strings ++ (toks strings sub ++ (.endNode :: toks strings next))

def propNames : DeviceTree → List Bytes
  | .nil => []
  | .node _ n sub next => n.props.map Prod.fst ++ (propNames sub ++ propNames next)

def names : DeviceTree → List Bytes
  | .nil => []
  | .node _ n sub next => n.name :: (names sub ++ names next)

def stringTable (T : DeviceTree) : Bytes := T.propNames.flatMap (· ++ [0])

def blob (T : DeviceTree) (room : Nat) : Fdt :=
  ⟨encode (toks (stringTable T) T ++ [.fend]), stringTable T, List.replicate room 0⟩

end DeviceTree

theorem fdtFindString_hasString {strings s : Bytes} (hz : 0 ∉ s) {l₁ l₂ : Bytes}
    (h : strings = l₁ ++ (s ++ 0 :: l₂)) :
    ∃ p, fdtFindString strings s = some p ∧ p < strings.length ∧ HasString strings p s := by
  have hex : (fdtFindString strings s).isSome := by
    rw [fdtFindString, List.find?_isSome]
    refine ⟨l₁.length, List.mem_range.mpr ?_, ?_⟩
    · rw [h]
      simp only [List.length_append, List.length_cons]
      omega
    · rw [h, List.drop_left, show s ++ 0 :: l₂ = (s ++ [0]) ++ l₂ by simp,
        show s.length + 1 = (s ++ [0]).length by simp, List.take_left, beq_self_eq_true]
  obtain ⟨p, hp⟩ := Option.isSome_iff_exists.mp hex
  have hlt := List.mem_range.mp (List.mem_of_find?_eq_some hp)
  have heq := List.find?_some hp
  rw [beq_iff_eq] at heq
  refine ⟨p, hp, by omega, hz, (strings.drop p).drop (s.length + 1), ?_⟩
  conv_lhs => rw [← List.take_append_drop (s.length + 1) (strings.drop p), heq]
  simp

theorem exists_split_flatMap {s : Bytes} {ss : List Bytes} (h : s ∈ ss) :
    ∃ l₁ l₂ : Bytes, ss.flatMap (· ++ [0]) = l₁ ++ (s ++ 0 :: l₂) := by
  obtain ⟨as, bs, rfl⟩ := List.append_of_mem h
  exact ⟨as.flatMap (· ++ [0]), bs.flatMap (· ++ [0]), by simp⟩

section

variable {strings : Bytes} {T : DeviceTree}

theorem PropsEnc.of_names {props : List (Bytes × Bytes)}
    (h : ∀ s ∈ props.map Prod.fst, HasString strings ((fdtFindString strings s).getD 0) s) :
    PropsEnc strings props (props.map fun p => .prop ((fdtFindString strings p.1).getD 0) p.2
      (List.replicate (pad4 p.2.length) 0)) := by
  induction props with
  | nil => exact .nil
  | cons p props ih =>
    exact .cons (h p.1 (by simp)) (ih fun s hs => h s (List.mem_cons_of_mem _ hs))

theorem TreeEnc.of_names
    (h : ∀ s ∈ T.propNames, HasString strings ((fdtFindString strings s).getD 0) s) :
    TreeEnc strings T (T.toks strings) := by
  induction T with
  | nil => exact .nil
  | node i n sub next ihs ihn =>
    simp only [DeviceTree.propNames, List.mem_append] at h
    exact .node ⟨_, _, rfl, .of_names fun s hs => h s (Or.inl hs)⟩
      (ihs fun s hs => h s (Or.inr (Or.inl hs))) (ihn fun s hs => h s (Or.inr (Or.inr hs)))

theorem toks_wf (hlt : ∀ s ∈ T.propNames, (fdtFindString strings s).getD 0 < 4294967296)
    (hz : ∀ s ∈ T.names, 0 ∉ s) : ∀ t ∈ T.toks strings, t.Wf := by
  induction T with
  | nil => simp [DeviceTree.toks]
  | node i n sub next ihs ihn =>
    simp only [DeviceTree.propNames, List.mem_append] at hlt
    simp only [DeviceTree.names, List.mem_cons, List.mem_append] at hz
    intro t ht
    simp only [DeviceTree.toks, DtNode.toks, List.mem_append, List.mem_cons] at ht
    rcases ht with (rfl | ht) | ht | rfl | ht
    · exact ⟨hz _ (Or.inl rfl), List.length_replicate⟩
    · obtain ⟨p, hp, rfl⟩ := List.mem_map.mp ht
      exact ⟨hlt p.1 (Or.inl (List.mem_map_of_mem hp)), List.length_replicate⟩
    · exact ihs (fun s hs => hlt s (Or.inr (Or.inl hs))) (fun s hs => hz s (Or.inr (Or.inl hs))) t ht
    · trivial
    · exact ihn (fun s hs => hlt s (Or.inr (Or.inr hs))) (fun s hs => hz s (Or.inr (Or.inr hs))) t ht

end

theorem DeviceTree.repr_blob {T : DeviceTree} {room : Nat} (hz : ∀ s ∈ T.names ++ T.propNames, 0 ∉ s)
    (hn : T.ids.Nodup) (hr : T.Rooted)
    (hsmall : T.size DtNode.openSize 4 + 4 + T.stringTable.length + room < 2147483648) :
    Repr (T.blob room) T := by
  have hfind : ∀ s ∈ T.propNames, ∃ p, fdtFindString T.stringTable s = some p ∧
      p < T.stringTable.length ∧ HasString T.stringTable p s := fun s hs => by
    obtain ⟨l₁, l₂, h⟩ := exists_split_flatMap hs
    exact fdtFindString_hasString (hz s (List.mem_append_right _ hs)) h
  have henc : TreeEnc T.stringTable T (T.toks T.stringTable) := .of_names fun s hs => by
    obtain ⟨p, hp, -, hstr⟩ := hfind s hs
    rwa [hp, Option.getD_some]
  have hwf : ∀ t ∈ T.toks T.stringTable ++ [.fend], t.Wf := fun t ht => by
    rcases List.mem_append.mp ht with ht | ht
    · refine toks_wf (fun s hs => ?_) (fun s hs => hz s (List.mem_append_left _ hs)) t ht
      obtain ⟨p, hp, hlt, -⟩ := hfind s hs
      rw [hp, Option.getD_some]
      omega
    · rw [List.mem_singleton] at ht
      subst ht
      trivial
  have hlen : (T.blob room).dtStruct.length = T.size DtNode.openSize 4 + 4 := by
    rw [blob, length_encode hwf, weight_append, TreeEnc.weight henc]
    rfl
  refine ⟨⟨T.toks T.stringTable, ⟨rfl, Nat.zero_le _, rfl, hwf, by omega⟩, henc⟩, hn, hr, ?_⟩
  rw [hlen]
  simpa [blob] using hsmall

end Babelfish.Libfdt
