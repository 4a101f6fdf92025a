import Babelfish.Libfdt.Tree

/-! Paths and aliases keep leading to the same nodes while properties change and nodes are added. -/

namespace Babelfish.Libfdt

open Bytes Forest

theorem DtNode.nameMatches_eq {s name : Bytes} (hat : atSign ∉ name)
    (h : nameMatches s name = true) : s = name := by
  simp only [nameMatches, Bool.and_eq_true, beq_iff_eq, Bool.or_eq_true] at h
  obtain ⟨htake, hlen | ⟨-, hget⟩⟩ := h
  · rw [← htake, ← hlen, List.take_length]
  · exact absurd (List.mem_iff_getElem?.mpr ⟨_, hget⟩) hat

theorem DtNode.nameMatches_self (s : Bytes) : nameMatches s s = true := by
  simp [nameMatches]

theorem DtNode.isPrefix_of_nameMatches {s name : Bytes} (h : nameMatches s name = true) :
    s <+: name := by
  simp only [nameMatches, Bool.and_eq_true, beq_iff_eq] at h
  exact h.1 ▸ List.take_prefix _ _

theorem DtNode.eq_of_nameMatches {s s' name : Bytes} (hat : atSign ∉ s) (hat' : atSign ∉ s')
    (h : nameMatches s name = true) (h' : nameMatches s' name = true) : s = s' := by
  have hshort : ∀ {s s' : Bytes}, atSign ∉ s' → nameMatches s name = true →
      nameMatches s' name = true → s'.length ≤ s.length := by
    intro s s' hat' h h'
    have hp := isPrefix_of_nameMatches h
    have hp' := isPrefix_of_nameMatches h'
    by_contra hlt
    simp only [nameMatches, Bool.and_eq_true, beq_iff_eq, Bool.or_eq_true] at h
    rcases h.2 with hlen | ⟨-, hget⟩
    · have := hp'.length_le
      omega
    · refine hat' (List.mem_iff_getElem?.mpr ⟨s.length, ?_⟩)
      obtain ⟨rest, rfl⟩ := hp'
      rwa [List.getElem?_append_left (by omega)] at hget
  have hlen : s.length = s'.length := Nat.le_antisymm (hshort hat h' h) (hshort hat' h h')
  obtain ⟨r, hr⟩ := isPrefix_of_nameMatches h
  obtain ⟨r', hr'⟩ := isPrefix_of_nameMatches h'
  exact List.append_inj_left (hr.trans hr'.symm) hlen

namespace DeviceTree

variable {T : DeviceTree}

theorem lookup_eq_childOf {path c : Bytes} (hc : pathComponents path = [c]) :
    T.lookup path = T.childOf T.root (DtNode.isNamed c) := by
  unfold lookup childOf
  rw [hc, List.map_singleton]
  simp only [walk]
  cases T.find? T.root with
  | none => rfl
  | some r =>
    obtain ⟨n, sub⟩ := r
    cases hk : sub.child? (DtNode.isNamed c) <;> simp [hk]

theorem lookup_named (hn : T.ids.Nodup) {path c : Bytes} (hc : pathComponents path = [c]) {i : Nat}
    (h : T.lookup path = some i) : ∃ n, T.get? i = some n ∧ n.isNamed c = true :=
  (childOf_spec hn (lookup_eq_childOf hc ▸ h)).2

theorem lookup_ne (hn : T.ids.Nodup) {path path' c c' : Bytes} (hc : pathComponents path = [c])
    (hc' : pathComponents path' = [c']) (hat : atSign ∉ c) (hat' : atSign ∉ c') (hne : c ≠ c')
    {i : Nat} (h : T.lookup path = some i) : T.lookup path' ≠ some i := by
  intro h'
  obtain ⟨n, hget, hnamed⟩ := lookup_named hn hc h
  obtain ⟨n', hget', hnamed'⟩ := lookup_named hn hc' h'
  obtain rfl : n = n' := by simpa [hget] using hget'
  exact hne (DtNode.eq_of_nameMatches hat hat' hnamed hnamed')

def KeepsName (g : DtNode → DtNode) : Prop := ∀ n, (g n).name = n.name

theorem keepsName_setprop (name val : Bytes) : KeepsName (DtNode.setprop name val) := fun _ => rfl

theorem keepsName_appendprop (name val : Bytes) : KeepsName (DtNode.appendprop name val) :=
  fun _ => rfl

theorem KeepsName.isNamed {g : DtNode → DtNode} (hg : KeepsName g) (s : Bytes) (n : DtNode) :
    (g n).isNamed s = n.isNamed s := by simp only [DtNode.isNamed, hg n]

theorem root_update (T : DeviceTree) (i : Nat) (f) : DeviceTree.root (T.update i f) = T.root := by
  cases T with
  | nil => rfl
  | node k n sub next =>
    by_cases hk : k = i <;> simp [update, hk, root]

theorem mem_isNamed {cs : List Bytes} {p : DtNode → Bool} (h : p ∈ cs.map DtNode.isNamed) :
    ∃ c ∈ cs, p = DtNode.isNamed c := by
  obtain ⟨c, hc, rfl⟩ := List.mem_map.mp h
  exact ⟨c, hc, rfl⟩

section Modify

variable {i : Nat} {g : DtNode → DtNode}

theorem walk_modify_isNamed (hn : T.ids.Nodup) (hg : KeepsName g) (id : Nat) (cs : List Bytes) :
    (T.modify i g).walk id (cs.map DtNode.isNamed) = T.walk id (cs.map DtNode.isNamed) := by
  refine walk_modify hn (fun p hp n => ?_) i id
  obtain ⟨c, -, rfl⟩ := mem_isNamed hp
  exact hg.isNamed c n

theorem lookup_modify (hn : T.ids.Nodup) (hg : KeepsName g) (path : Bytes) :
    DeviceTree.lookup (T.modify i g) path = T.lookup path := by
  unfold lookup
  rw [show DeviceTree.root (T.modify i g) = T.root from root_update T i _]
  exact walk_modify_isNamed hn hg _ _

/-- An alias is only lost to an edit of `/aliases` that changes it. -/
theorem aliasPath_modify (hn : T.ids.Nodup) (hg : KeepsName g) {name : Bytes}
    (h : T.lookup strAliases = some i → ∀ n, T.get? i = some n →
      n.getprop name ≠ none → (g n).getprop name = n.getprop name) {p : Bytes}
    (hp : T.aliasPath name = some p) : DeviceTree.aliasPath (T.modify i g) name = some p := by
  unfold aliasPath at hp ⊢
  rw [lookup_modify hn hg]
  cases ha : T.lookup strAliases with
  | none => simp [ha] at hp
  | some a =>
    simp only [ha, Option.bind_some] at hp ⊢
    by_cases hai : a = i
    · subst hai
      rw [get?_modify_self]
      cases hf : T.get? a with
      | none => simp [hf] at hp
      | some n =>
        simp only [hf, Option.map_some] at hp ⊢
        cases hv : n.getprop name with
        | none => simp [hv] at hp
        | some v =>
          rw [h ha n hf (by simp [hv])]
          simpa [hv] using hp
    · rw [get?_modify_of_ne hai hn]
      exact hp

theorem resolve_modify (hn : T.ids.Nodup) (hg : KeepsName g) {path : Bytes} {j : Nat}
    (h : path.head? ≠ some slash → T.lookup strAliases = some i → ∀ n, T.get? i = some n →
      n.getprop (path.takeWhile (· ≠ slash)) ≠ none →
      (g n).getprop (path.takeWhile (· ≠ slash)) = n.getprop (path.takeWhile (· ≠ slash)))
    (hj : T.resolve path = some j) : DeviceTree.resolve (T.modify i g) path = some j := by
  unfold resolve at hj ⊢
  split at hj
  · rename_i habs
    rw [if_pos habs, lookup_modify hn hg]
    exact hj
  · rename_i habs
    rw [if_neg habs]
    obtain ⟨id, hid, hw⟩ := Option.bind_eq_some_iff.mp hj
    obtain ⟨p, hp, hl⟩ := Option.bind_eq_some_iff.mp hid
    rw [aliasPath_modify hn hg (h habs) hp, Option.bind_some, lookup_modify hn hg, hl, Option.bind_some,
      walk_modify_isNamed hn hg]
    exact hw

end Modify

section AddFirst

variable {i new : Nat} {name : Bytes}

theorem walk_addFirst_isNamed (hn : T.ids.Nodup) (hfresh : new ∉ T.ids) (hat : atSign ∉ name)
    (hnone : T.childOf i (DtNode.isNamed name) = none) {id j : Nat} (hid : id ∈ T.ids)
    {cs : List Bytes} (h : T.walk id (cs.map DtNode.isNamed) = some j) :
    (T.addFirst i new ⟨name, []⟩).walk id (cs.map DtNode.isNamed) = some j := by
  by_cases hi : i ∈ T.ids
  · obtain ⟨⟨a, s⟩, hf⟩ := find?_isSome hi
    simp only [childOf, hf] at hnone
    refine walk_addFirst hn hfresh hf (fun p hp hb => ?_) hid h
    obtain ⟨c, -, rfl⟩ := mem_isNamed hp
    rwa [DtNode.nameMatches_eq hat hb]
  · rwa [addFirst_of_not_mem hi]

theorem lookup_addFirst (hr : Rooted T) (hn : T.ids.Nodup) (hfresh : new ∉ T.ids)
    (hat : atSign ∉ name) (hnone : T.childOf i (DtNode.isNamed name) = none) {path : Bytes} {j : Nat}
    (h : T.lookup path = some j) :
    DeviceTree.lookup (T.addFirst i new ⟨name, []⟩) path = some j := by
  unfold lookup at h ⊢
  rw [show DeviceTree.root (T.addFirst i new ⟨name, []⟩) = T.root from root_update T i _]
  exact walk_addFirst_isNamed hn hfresh hat hnone hr.root_mem h

theorem lookup_addFirst_eq (hr : Rooted T) (hn : T.ids.Nodup) (hfresh : new ∉ T.ids)
    (hat : atSign ∉ name) {path : Bytes} (hpath : name ∉ pathComponents path) :
    DeviceTree.lookup (T.addFirst i new ⟨name, []⟩) path = T.lookup path := by
  unfold lookup
  rw [show DeviceTree.root (T.addFirst i new ⟨name, []⟩) = T.root from root_update T i _]
  refine walk_addFirst_eq hn hfresh (fun p hp => ?_) hr.root_mem
  obtain ⟨c, hc, rfl⟩ := mem_isNamed hp
  by_contra hb
  have := DtNode.nameMatches_eq hat (by simpa [DtNode.isNamed] using hb)
  exact hpath (this ▸ hc)

theorem resolve_addFirst (hr : Rooted T) (hn : T.ids.Nodup) (hfresh : new ∉ T.ids)
    (hat : atSign ∉ name) (hnone : T.childOf i (DtNode.isNamed name) = none) {path : Bytes} {j : Nat}
    (h : T.resolve path = some j) :
    DeviceTree.resolve (T.addFirst i new ⟨name, []⟩) path = some j := by
  unfold resolve at h ⊢
  split at h
  · rename_i habs
    rw [if_pos habs]
    exact lookup_addFirst hr hn hfresh hat hnone h
  · rename_i habs
    rw [if_neg habs]
    obtain ⟨id, hid, hw⟩ := Option.bind_eq_some_iff.mp h
    obtain ⟨p, hp, hl⟩ := Option.bind_eq_some_iff.mp hid
    have hap : DeviceTree.aliasPath (T.addFirst i new ⟨name, []⟩) (path.takeWhile (· ≠ slash)) =
        some p := by
      unfold aliasPath at hp ⊢
      cases ha : T.lookup strAliases with
      | none => simp [ha] at hp
      | some a =>
        have hmem : a ∈ T.ids := walk_mem hr.root_mem ha
        have hne : a ≠ new := fun e => hfresh (e ▸ hmem)
        simp only [lookup_addFirst hr hn hfresh hat hnone ha, ha, Option.bind_some,
          get?_addFirst_of_ne hne hn] at hp ⊢
        exact hp
    rw [hap, Option.bind_some, lookup_addFirst hr hn hfresh hat hnone hl, Option.bind_some]
    exact walk_addFirst_isNamed hn hfresh hat hnone (walk_mem hr.root_mem hl) hw

end AddFirst

end DeviceTree

end Babelfish.Libfdt
