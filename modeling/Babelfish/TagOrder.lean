import Babelfish.Atags

/-! Whether the order of tags of different kinds matters: two lists with the same tags of each kind in
the same order, on the same tree. -/

namespace Babelfish

open Libfdt Bytes Forest DeviceTree Atag

/-- `f` maps the nodes of one tree to those of the other, with their places, names and properties. -/
structure Same (f : Nat → Nat) (T₁ T₂ : DeviceTree) : Prop where
  root : T₂.root = f T₁.root
  mem : ∀ j ∈ T₁.ids, f j ∈ T₂.ids
  inj : ∀ i ∈ T₁.ids, ∀ j ∈ T₁.ids, f i = f j → i = j
  onto : ∀ k ∈ T₂.ids, ∃ j ∈ T₁.ids, f j = k
  kids : ∀ j ∈ T₁.ids, T₂.kids (f j) = (T₁.kids j).map f
  props : ∀ j n, T₁.get? j = some n → ∃ n', T₂.get? (f j) = some n' ∧ n'.name = n.name ∧
    ∀ name, n'.getprop name = n.getprop name

/-- The blobs represent trees with the same nodes and the same property values. -/
def SameContents (fdt₁ fdt₂ : Fdt) : Prop :=
  ∃ T₁ T₂ f, Repr fdt₁ T₁ ∧ Repr fdt₂ T₂ ∧ Same f T₁ T₂

section

variable {T₀ T₁ T₂ : DeviceTree} {f : Nat → Nat}

theorem Same.lookup (h : Same f T₁ T₂) (hn₁ : T₁.ids.Nodup) (hn₂ : T₂.ids.Nodup) (hr : T₁.Rooted)
    {path c : Bytes} (hc : pathComponents path = [c]) :
    T₂.lookup path = (T₁.lookup path).map f := by
  rw [lookup_eq_childOf hc, lookup_eq_childOf hc, childOf_eq_find? hn₁, childOf_eq_find? hn₂, h.root,
    h.kids _ hr.root_mem, List.find?_map]
  refine congrArg _ (List.find?_congr fun j hj => ?_)
  obtain ⟨n, hn⟩ := get?_of_mem_kids hn₁ hj
  obtain ⟨n', hn', hname, -⟩ := h.props j n hn
  rw [Function.comp_apply, hn', hn, Option.any_some, Option.any_some]
  unfold DtNode.isNamed
  rw [hname]

theorem Same.propAt (h : Same f T₁ T₂) (hn₁ : T₁.ids.Nodup) (hn₂ : T₂.ids.Nodup) (hr : T₁.Rooted)
    {path c : Bytes} (hc : pathComponents path = [c]) (name : Bytes) :
    propAt T₂ path name = propAt T₁ path name := by
  unfold Babelfish.propAt
  rw [h.lookup hn₁ hn₂ hr hc]
  cases hl : T₁.lookup path with
  | none => rfl
  | some j =>
    obtain ⟨n, hn⟩ := get?_of_mem (walk_mem hr.root_mem hl)
    obtain ⟨n', hn', -, hprops⟩ := h.props j n hn
    rw [Option.map_some, Option.bind_some, Option.bind_some, hn, hn']
    exact hprops name

theorem propAt_of_lookup {T : DeviceTree} {path : Bytes} {j : Nat} {n : DtNode}
    (hl : T.lookup path = some j) (hn : T.get? j = some n) (name : Bytes) :
    Babelfish.propAt T path name = n.getprop name := by
  rw [Babelfish.propAt, hl, Option.bind_some, hn, Option.bind_some]

theorem Frame.chosen_iff (h : Frame T₀ T₁) {j : Nat} (hj : j ∈ T₀.ids) :
    T₁.lookup strChosenPath = some j ↔ T₀.lookup strChosenPath = some j := by
  constructor
  · intro hc
    cases hc₀ : T₀.lookup strChosenPath with
    | none => exact absurd hj (h.fresh hc₀ j hc)
    | some i => exact (h.chosen i hc₀).symm.trans hc
  · exact h.chosen j

/-- The node of `T₂` that stands for a node of another tree made of `T₀`: a node of `T₀` stands for
itself, and a node that was made is `/chosen`. -/
def twin (T₀ T₂ : DeviceTree) (j : Nat) : Nat :=
  if j ∈ T₀.ids then j else (T₂.lookup strChosenPath).getD j

theorem twin_of_mem {j : Nat} (hj : j ∈ T₀.ids) : twin T₀ T₂ j = j := if_pos hj

theorem twin_of_not_mem {c c' : Nat} (hc : c ∉ T₀.ids) (hc' : T₂.lookup strChosenPath = some c') :
    twin T₀ T₂ c = c' := by
  rw [twin, if_neg hc, hc', Option.getD_some]

theorem map_twin_kids (hn₀ : T₀.ids.Nodup) (j : Nat) :
    (T₀.kids j).map (twin T₀ T₂) = T₀.kids j := by
  refine (List.map_congr_left fun k hk => twin_of_mem ?_).trans (List.map_id' _)
  obtain ⟨n, hn⟩ := get?_of_mem_kids hn₀ hk
  exact mem_of_get? hn

theorem Frame.lookup_of_not_mem (h : Frame T₀ T₁) {j : Nat} (hj : j ∈ T₁.ids) (hnew : j ∉ T₀.ids) :
    T₁.lookup strChosenPath = some j :=
  ((h.mem j).mp hj).resolve_left hnew

theorem Frame.touched_iff (h : Frame T₀ T₁) {j : Nat} (hj : j ∈ T₀.ids) {name : Bytes} :
    Touched T₁ j name ↔ Touched T₀ j name := by
  unfold Touched
  rw [h.chosen_iff hj, h.memory]

section

variable (h₁ : Frame T₀ T₁) (h₂ : Frame T₀ T₂)
variable (hchosen : (T₁.lookup strChosenPath).isSome = (T₂.lookup strChosenPath).isSome)

include h₁ h₂ hchosen

theorem Frame.made_twin {c : Nat} (hc : c ∈ T₁.ids) (hnew : c ∉ T₀.ids) :
    ∃ c', T₂.lookup strChosenPath = some c' ∧ c' ∉ T₀.ids ∧ twin T₀ T₂ c = c' := by
  have hc₁ := h₁.lookup_of_not_mem hc hnew
  rw [hc₁, Option.isSome_some] at hchosen
  obtain ⟨c', hc'⟩ := Option.isSome_iff_exists.mp hchosen.symm
  cases hc₀ : T₀.lookup strChosenPath with
  | none => exact ⟨c', hc', h₂.fresh hc₀ c' hc', twin_of_not_mem hnew hc'⟩
  | some i =>
    rw [h₁.chosen i hc₀] at hc₁
    exact absurd (Option.some.inj hc₁ ▸ walk_mem h₁.rooted₀.root_mem hc₀) hnew

theorem Frame.twin_mem {j : Nat} (hj : j ∈ T₁.ids) : twin T₀ T₂ j ∈ T₂.ids := by
  by_cases hj₀ : j ∈ T₀.ids
  · rw [twin_of_mem hj₀]
    exact (h₂.mem j).mpr (Or.inl hj₀)
  · obtain ⟨c', hc', -, htwin⟩ := made_twin h₁ h₂ hchosen hj hj₀
    rw [htwin]
    exact (h₂.mem c').mpr (Or.inr hc')

theorem Frame.twin_inj {i j : Nat} (hi : i ∈ T₁.ids) (hj : j ∈ T₁.ids)
    (he : twin T₀ T₂ i = twin T₀ T₂ j) : i = j := by
  by_cases hi₀ : i ∈ T₀.ids
  · by_cases hj₀ : j ∈ T₀.ids
    · rwa [twin_of_mem hi₀, twin_of_mem hj₀] at he
    · obtain ⟨c', -, hc₀, htwin⟩ := made_twin h₁ h₂ hchosen hj hj₀
      rw [twin_of_mem hi₀, htwin] at he
      exact absurd (he ▸ hi₀) hc₀
  · by_cases hj₀ : j ∈ T₀.ids
    · obtain ⟨c', -, hc₀, htwin⟩ := made_twin h₁ h₂ hchosen hi hi₀
      rw [twin_of_mem hj₀, htwin] at he
      exact absurd (he ▸ hj₀) hc₀
    · exact Option.some.inj ((h₁.lookup_of_not_mem hi hi₀).symm.trans (h₁.lookup_of_not_mem hj hj₀))

theorem Frame.twin_onto {k : Nat} (hk : k ∈ T₂.ids) : ∃ j ∈ T₁.ids, twin T₀ T₂ j = k := by
  by_cases hk₀ : k ∈ T₀.ids
  · exact ⟨k, (h₁.mem k).mpr (Or.inl hk₀), twin_of_mem hk₀⟩
  · have hc₂ := h₂.lookup_of_not_mem hk hk₀
    rw [hc₂, Option.isSome_some] at hchosen
    obtain ⟨c, hc⟩ := Option.isSome_iff_exists.mp hchosen
    refine ⟨c, (h₁.mem c).mpr (Or.inr hc), twin_of_not_mem (fun hc₀ => hk₀ ?_) hc₂⟩
    rw [h₂.chosen c ((h₁.chosen_iff hc₀).mp hc)] at hc₂
    exact Option.some.inj hc₂ ▸ hc₀

theorem Frame.twin_kids (hn₀ : T₀.ids.Nodup) {j : Nat} (hj : j ∈ T₁.ids) :
    T₂.kids (twin T₀ T₂ j) = (T₁.kids j).map (twin T₀ T₂) := by
  by_cases hj₀ : j ∈ T₀.ids
  · rw [twin_of_mem hj₀, h₁.kids j hj₀, h₂.kids j hj₀]
    split
    · rename_i hroot
      rw [List.map_append, map_twin_kids hn₀]
      congr 1
      cases hc : T₁.lookup strChosenPath with
      | none =>
        rw [hc, Option.isSome_none] at hchosen
        rw [Option.isSome_eq_false_iff.mp hchosen.symm |> Option.isNone_iff_eq_none.mp]
        rfl
      | some c =>
        have hmem : c ∈ T₁.ids := (h₁.mem c).mpr (Or.inr hc)
        obtain ⟨c', hc', -, htwin⟩ := made_twin h₁ h₂ hchosen hmem (h₁.fresh hroot.2 c hc)
        rw [hc', Option.toList_some, Option.toList_some, List.map_singleton, htwin]
    · exact (map_twin_kids hn₀ j).symm
  · obtain ⟨c', -, hc₀, htwin⟩ := made_twin h₁ h₂ hchosen hj hj₀
    rw [htwin, h₁.madeKids j hj₀, h₂.madeKids c' hc₀, List.map_nil]

variable (hprops : ∀ name ∈ chosenProps,
  Babelfish.propAt T₁ strChosenPath name = Babelfish.propAt T₂ strChosenPath name)

include hprops

theorem Frame.twin_props_made {j : Nat} {n : DtNode} (hn : T₁.get? j = some n) (hj₀ : j ∉ T₀.ids) :
    ∃ n', T₂.get? (twin T₀ T₂ j) = some n' ∧ n'.name = n.name ∧
      ∀ name, n'.getprop name = n.getprop name := by
  have hc := h₁.lookup_of_not_mem (mem_of_get? hn) hj₀
  obtain ⟨c', hc', hc₀, htwin⟩ := made_twin h₁ h₂ hchosen (mem_of_get? hn) hj₀
  obtain ⟨n', hn'⟩ := get?_of_mem ((h₂.mem c').mpr (Or.inr hc'))
  obtain ⟨hname, hp⟩ := h₁.made j n hj₀ hn
  obtain ⟨hname', hp'⟩ := h₂.made c' n' hc₀ hn'
  refine ⟨n', by rw [htwin, hn'], hname'.trans hname.symm, fun name => ?_⟩
  by_cases hm : name ∈ chosenProps
  · have h := hprops name hm
    rw [propAt_of_lookup hc hn, propAt_of_lookup hc' hn'] at h
    exact h.symm
  · rw [not_not.mp fun h => hm (hp name h), not_not.mp fun h => hm (hp' name h)]

omit hchosen

theorem Frame.twin_props_old
    (hreg : Babelfish.propAt T₁ strMemoryPath strReg = Babelfish.propAt T₂ strMemoryPath strReg)
    {j : Nat} {n : DtNode} (hn : T₁.get? j = some n) (hj₀ : j ∈ T₀.ids) :
    ∃ n', T₂.get? (twin T₀ T₂ j) = some n' ∧ n'.name = n.name ∧
      ∀ name, n'.getprop name = n.getprop name := by
  obtain ⟨n₀, hn₀⟩ := get?_of_mem hj₀
  obtain ⟨n₁, hn₁, hname₁, hp₁⟩ := h₁.kept j n₀ hn₀
  obtain ⟨n₂, hn₂, hname₂, hp₂⟩ := h₂.kept j n₀ hn₀
  obtain rfl := Option.some.inj (hn₁.symm.trans hn)
  refine ⟨n₂, by rw [twin_of_mem hj₀, hn₂], hname₂.trans hname₁.symm, fun name => ?_⟩
  by_cases ht : Touched T₀ j name
  · obtain ⟨hc, hm⟩ | ⟨hm, rfl⟩ := ht
    · have h := hprops name hm
      rw [propAt_of_lookup (h₁.chosen j hc) hn₁, propAt_of_lookup (h₂.chosen j hc) hn₂] at h
      exact h.symm
    · rw [propAt_of_lookup (h₁.memory.trans hm) hn₁, propAt_of_lookup (h₂.memory.trans hm) hn₂] at hreg
      exact hreg.symm
  · rw [(hp₁ name).resolve_right fun h => ht ((h₁.touched_iff hj₀).mp h),
      (hp₂ name).resolve_right fun h => ht ((h₂.touched_iff hj₀).mp h)]

end

theorem Frame.same (hn₀ : T₀.ids.Nodup) (h₁ : Frame T₀ T₁) (h₂ : Frame T₀ T₂)
    (hchosen : (T₁.lookup strChosenPath).isSome = (T₂.lookup strChosenPath).isSome)
    (hprops : ∀ name ∈ chosenProps,
      Babelfish.propAt T₁ strChosenPath name = Babelfish.propAt T₂ strChosenPath name)
    (hreg : Babelfish.propAt T₁ strMemoryPath strReg = Babelfish.propAt T₂ strMemoryPath strReg) :
    ∃ f, Same f T₁ T₂ :=
  ⟨twin T₀ T₂,
    { root := by rw [h₂.root, h₁.root, twin_of_mem h₁.rooted₀.root_mem]
      mem := fun _ hj => h₁.twin_mem h₂ hchosen hj
      inj := fun _ hi _ hj he => h₁.twin_inj h₂ hchosen hi hj he
      onto := fun _ hk => h₁.twin_onto h₂ hchosen hk
      kids := fun _ hj => h₁.twin_kids h₂ hchosen hn₀ hj
      props := fun j n hn => by
        by_cases hj₀ : j ∈ T₀.ids
        · exact h₁.twin_props_old h₂ hprops hreg hn hj₀
        · exact h₁.twin_props_made h₂ hchosen hprops hn hj₀ }⟩

theorem SameContents.propAt {fdt₁ fdt₂ : Fdt} (h : SameContents fdt₁ fdt₂) (h₁ : Repr fdt₁ T₁)
    (h₂ : Repr fdt₂ T₂) {path c : Bytes} (hc : pathComponents path = [c]) (hz : 0 ∉ path)
    (habs : path.head? = some slash) (name : Bytes) :
    Babelfish.propAt T₁ path name = Babelfish.propAt T₂ path name := by
  obtain ⟨U₁, U₂, f, hu₁, hu₂, hsame⟩ := h
  rw [← readProp_eq h₁ hz habs, ← readProp_eq h₂ hz habs, readProp_eq hu₁ hz habs,
    readProp_eq hu₂ hz habs]
  exact (hsame.propAt hu₁.nodup hu₂.nodup hu₁.rooted hc name).symm

end

namespace Atag

def kind : Atag → UInt32
  | .mem _ _ => atagMem
  | .cmdline _ => atagCmdline
  | .initrd2 _ _ => atagInitrd2
  | .other tag => tag

def initrds (ts : List Atag) : List (UInt32 × UInt32) :=
  ts.filterMap fun
    | .initrd2 start size => some (start, size)
    | _ => none

/-- The lists have the same tags of each kind in the same order. -/
def SameKinds (ts ts' : List Atag) : Prop :=
  ∀ k, ts.filter (fun t => t.kind = k) = ts'.filter fun t => t.kind = k

def CmdlineFirst (ts : List Atag) : Prop :=
  ∃ s start size, [.cmdline s, .initrd2 start size].Sublist ts

variable {ts ts' : List Atag}

theorem SameKinds.filterMap {α : Type} (h : SameKinds ts ts') (k : UInt32) {f : Atag → Option α}
    (hf : ∀ t, t.kind ≠ k → f t = none) : ts.filterMap f = ts'.filterMap f := by
  have hpick : ∀ us : List Atag, us.filterMap f = (us.filter fun t => t.kind = k).filterMap f :=
    fun us => by
      rw [List.filterMap_filter]
      refine List.filterMap_congr fun t _ => ?_
      by_cases ht : t.kind = k
      · simp [ht]
      · simp [ht, hf t ht]
  rw [hpick ts, hpick ts', h k]

theorem SameKinds.cmdlines (h : SameKinds ts ts') : cmdlines ts = cmdlines ts' :=
  h.filterMap atagCmdline fun t ht => by
    cases t with
    | cmdline s => exact absurd rfl ht
    | _ => rfl

theorem SameKinds.banks (h : SameKinds ts ts') : banks ts = banks ts' :=
  h.filterMap atagMem fun t ht => by
    cases t with
    | mem size start => exact absurd rfl ht
    | _ => rfl

theorem SameKinds.initrds (h : SameKinds ts ts') : initrds ts = initrds ts' :=
  h.filterMap atagInitrd2 fun t ht => by
    cases t with
    | initrd2 start size => exact absurd rfl ht
    | _ => rfl

theorem SameKinds.perm (h : SameKinds ts ts') : ts.Perm ts' := by
  refine List.perm_iff_count.mpr fun t => ?_
  have hcount : ∀ us : List Atag, us.count t = (us.filter fun u => u.kind = t.kind).count t :=
    fun us => (List.count_filter (by simp)).symm
  rw [hcount ts, hcount ts', h]

theorem SameKinds.room (h : SameKinds ts ts') : tagsRoom ts = tagsRoom ts' :=
  (h.perm.map Atag.room).sum_eq

theorem cmdlineFirst_concat (ts : List Atag) (t : Atag) : CmdlineFirst (ts ++ [t]) ↔
    CmdlineFirst ts ∨ cmdlines ts ≠ [] ∧ ∃ start size, t = .initrd2 start size := by
  have hcmd : cmdlines ts ≠ [] ↔ ∃ s, .cmdline s ∈ ts := by
    constructor
    · intro hne
      obtain ⟨s, hs⟩ := List.exists_mem_of_ne_nil _ hne
      obtain ⟨t, ht, he⟩ := List.mem_filterMap.mp hs
      cases t with
      | cmdline s' => exact ⟨s', ht⟩
      | _ => cases he
    · rintro ⟨s, hs⟩
      exact List.ne_nil_of_mem (mem_cmdlines hs)
  rw [hcmd]
  constructor
  · rintro ⟨s, start, size, hsub⟩
    obtain ⟨l₁, l₂, he, h₁, h₂⟩ := List.sublist_append_iff.mp hsub
    obtain rfl | rfl := List.sublist_singleton.mp h₂
    · rw [List.append_nil] at he
      exact Or.inl ⟨s, start, size, he ▸ h₁⟩
    · have he : [.cmdline s] ++ [.initrd2 start size] = l₁ ++ [t] := he
      obtain ⟨hl, ht⟩ := List.append_inj' he rfl
      rw [← hl] at h₁
      exact Or.inr ⟨⟨s, List.singleton_sublist.mp h₁⟩, start, size, (List.singleton_inj.mp ht).symm⟩
  · rintro (⟨s, start, size, hsub⟩ | ⟨⟨s, hs⟩, start, size, rfl⟩)
    · exact ⟨s, start, size, hsub.trans (List.sublist_append_left _ _)⟩
    · exact ⟨s, start, size, (List.singleton_sublist.mpr hs).append (List.Sublist.refl _)⟩

theorem cmdlineFirst_concat_of_ne {t : Atag} (h : ∀ start size, t ≠ .initrd2 start size)
    (ts : List Atag) : CmdlineFirst (ts ++ [t]) ↔ CmdlineFirst ts := by
  rw [cmdlineFirst_concat]
  refine or_iff_left ?_
  rintro ⟨-, start, size, he⟩
  exact h start size he

end Atag

namespace Initrd

theorem foldl_chosen (ts : List Atag) (d : Initrd) (hd : d.chosen = true) :
    ts.foldl step d = match (initrds ts).getLast? with
      | some (start, size) => ⟨true, some (be32 start.toNat), some (be32 (start + size).toNat)⟩
      | none => d := by
  induction ts using List.reverseRecOn with
  | nil => rfl
  | append_singleton ts t ih =>
    have hinit : initrds (ts ++ [t]) = initrds ts ++ initrds [t] := List.filterMap_append
    rw [List.foldl_append, hinit, ih]
    cases t with
    | initrd2 start size =>
      cases hl : (initrds ts).getLast? <;> simp [initrds, step, hd]
    | cmdline s =>
      cases hl : (initrds ts).getLast? with
      | none =>
        simp only [initrds] at hl
        simp [initrds, step, hl, ← hd]
      | some r =>
        simp only [initrds] at hl
        simp [initrds, step, hl]
    | mem size start =>
      simp [initrds, step]
    | other tag =>
      simp [initrds, step]

theorem chosen_foldl (ts : List Atag) (d : Initrd) :
    (ts.foldl step d).chosen = (d.chosen || decide (cmdlines ts ≠ [])) := by
  induction ts using List.reverseRecOn with
  | nil => simp [cmdlines]
  | append_singleton ts t ih =>
    rw [List.foldl_append, cmdlines_append]
    cases t with
    | initrd2 start size =>
      rw [show cmdlines [.initrd2 start size] = [] from rfl, List.append_nil, ← ih]
      simp only [List.foldl_cons, List.foldl_nil, step]
      split <;> rfl
    | cmdline s => simp [step, cmdlines]
    | mem size start => simpa [step, cmdlines] using ih
    | other tag => simpa [step, cmdlines] using ih

/-- Without `/chosen`, the last tag is kept if a command line comes before some tag. -/
theorem foldl_made (ts : List Atag) :
    (ts.foldl step ⟨false, none, none⟩).chosen = decide (cmdlines ts ≠ []) ∧
    (CmdlineFirst ts → ∃ start size, (initrds ts).getLast? = some (start, size) ∧
      (ts.foldl step ⟨false, none, none⟩).start = some (be32 start.toNat) ∧
      (ts.foldl step ⟨false, none, none⟩).stop = some (be32 (start + size).toNat)) ∧
    (¬CmdlineFirst ts → (ts.foldl step ⟨false, none, none⟩).start = none ∧
      (ts.foldl step ⟨false, none, none⟩).stop = none) := by
  induction ts using List.reverseRecOn with
  | nil =>
    refine ⟨rfl, ?_, fun _ => ⟨rfl, rfl⟩⟩
    rintro ⟨s, start, size, hsub⟩
    cases hsub
  | append_singleton ts t ih =>
    obtain ⟨hchosen, hfirst, hlast⟩ := ih
    have hinit : initrds (ts ++ [t]) = initrds ts ++ initrds [t] := List.filterMap_append
    rw [List.foldl_append, hinit, cmdlines_append]
    generalize ts.foldl step ⟨false, none, none⟩ = d at hchosen hfirst hlast ⊢
    cases t with
    | initrd2 start size =>
      have hlater : CmdlineFirst ts → cmdlines ts ≠ [] := fun ⟨s, _, _, hsub⟩ =>
        List.ne_nil_of_mem (mem_cmdlines (hsub.subset List.mem_cons_self))
      have hone : cmdlines [.initrd2 start size] = [] := rfl
      rw [cmdlineFirst_concat, hone, List.append_nil]
      by_cases hc : cmdlines ts = []
      · have hno : ¬CmdlineFirst ts := fun h => hlater h hc
        have hd : d.chosen = false := by simp [hchosen, hc]
        simp [step, hd, hc, hno, hlast hno]
      · have hd : d.chosen = true := by simp [hchosen, hc]
        simp [step, hd, hc, initrds]
    | cmdline s =>
      rw [cmdlineFirst_concat_of_ne (by simp)]
      exact ⟨by simp [step, cmdlines], by simpa [step, initrds] using hfirst, hlast⟩
    | mem size start =>
      rw [cmdlineFirst_concat_of_ne (by simp)]
      exact ⟨by simpa [step, cmdlines] using hchosen, by simpa [step, initrds] using hfirst, hlast⟩
    | other tag =>
      rw [cmdlineFirst_concat_of_ne (by simp)]
      exact ⟨by simpa [step, cmdlines] using hchosen, by simpa [step, initrds] using hfirst, hlast⟩

theorem foldl_eq_iff {ts ts' : List Atag} (h : SameKinds ts ts') {d : Initrd}
    (hd : d.chosen = false → d = ⟨false, none, none⟩) :
    ts.foldl step d = ts'.foldl step d ↔ d.chosen = true ∨ (CmdlineFirst ts ↔ CmdlineFirst ts') := by
  by_cases hc : d.chosen = true
  · refine iff_of_true ?_ (Or.inl hc)
    rw [foldl_chosen ts d hc, foldl_chosen ts' d hc, h.initrds]
  · obtain rfl := hd (Bool.eq_false_iff.mpr hc)
    obtain ⟨hch, hfirst, hlast⟩ := foldl_made ts
    obtain ⟨hch', hfirst', hlast'⟩ := foldl_made ts'
    rw [← h.cmdlines] at hch'
    rw [← h.initrds] at hfirst'
    generalize ts.foldl step ⟨false, none, none⟩ = d at *
    generalize ts'.foldl step ⟨false, none, none⟩ = d' at *
    rw [or_iff_right hc, Initrd.mk.injEq]
    by_cases hf : CmdlineFirst ts
    · obtain ⟨start, size, hl, hs, he⟩ := hfirst hf
      by_cases hf' : CmdlineFirst ts'
      · obtain ⟨start', size', hl', hs', he'⟩ := hfirst' hf'
        cases hl.symm.trans hl'
        exact iff_of_true ⟨hch.trans hch'.symm, hs.trans hs'.symm, he.trans he'.symm⟩
          (iff_of_true hf hf')
      · refine iff_of_false (fun heq => ?_) fun hiff => hf' (hiff.mp hf)
        rw [hs, (hlast' hf').1] at heq
        cases heq.2.1
    · by_cases hf' : CmdlineFirst ts'
      · obtain ⟨start', size', hl', hs', he'⟩ := hfirst' hf'
        refine iff_of_false (fun heq => ?_) fun hiff => hf (hiff.mpr hf')
        rw [hs', (hlast hf).1] at heq
        cases heq.2.1
      · obtain ⟨hs, he⟩ := hlast hf
        obtain ⟨hs', he'⟩ := hlast' hf'
        exact iff_of_true ⟨hch.trans hch'.symm, hs.trans hs'.symm, he.trans he'.symm⟩
          (iff_of_false hf hf')

end Initrd

section

variable {fdt : Fdt} {T : DeviceTree} {ts ts' : List Atag} {ws ws' : List UInt32}

theorem initrdOf_absent (h : (initrdOf T).chosen = false) : initrdOf T = ⟨false, none, none⟩ := by
  have hnone : T.lookup strChosenPath = none := by
    simpa [initrdOf] using h
  have hprop : ∀ name, propAt T strChosenPath name = none := fun name => by
    rw [propAt, hnone, Option.bind_none]
  rw [initrdOf, hnone, hprop, hprop]
  rfl

theorem runs_twoLists (ht : TagList ts ws) (ht' : TagList ts' ws') (hsame : SameKinds ts ts')
    (h : Repr fdt T) (hroom : tagsRoom ts ≤ fdt.free.length) :
    Runs (fdtFixupFromAtags ws) ⟨fdt, []⟩ fun _ w₁ =>
      Runs (fdtFixupFromAtags ws') ⟨fdt, []⟩ fun _ w₂ => ∃ T₁ T₂, Repr w₁.fdt T₁ ∧ Repr w₂.fdt T₂ ∧
        initrdOf T₁ = ts.foldl Initrd.step (initrdOf T) ∧
        initrdOf T₂ = ts'.foldl Initrd.step (initrdOf T) ∧
        (initrdOf T₁ = initrdOf T₂ → ∃ f, Same f T₁ T₂) := by
  refine (runs_fixupFromAtags ht h hroom).mono ?_
  rintro - w₁ ⟨-, T₁, hf₁, hfacts₁, hinitrd₁, hl₁⟩
  refine (runs_fixupFromAtags ht' h (hsame.room ▸ hroom)).mono ?_
  rintro - w₂ ⟨-, T₂, hf₂, hfacts₂, hinitrd₂, hl₂⟩
  refine ⟨T₁, T₂, hl₁.1, hl₂.1, hinitrd₁, hinitrd₂, fun heq => ?_⟩
  obtain ⟨hchosen, hstart, hstop⟩ := Initrd.mk.inj heq
  refine hf₁.same h.nodup hf₂ hchosen (fun name hname => ?_) ?_
  · simp only [chosenProps, List.mem_cons, List.not_mem_nil, or_false] at hname
    obtain rfl | rfl | rfl := hname
    · have hb₁ : propAt T₁ strChosenPath strBootargs = _ := congrArg Facts.bootargs hfacts₁
      have hb₂ : propAt T₂ strChosenPath strBootargs = _ := congrArg Facts.bootargs hfacts₂
      rw [(Facts.foldl_bootargs _ _).2] at hb₁
      rw [(Facts.foldl_bootargs _ _).2, ← hsame.cmdlines] at hb₂
      exact hb₁.trans hb₂.symm
    · exact hstart
    · exact hstop
  · have hr₁ : propAt T₁ strMemoryPath strReg = _ := congrArg Facts.reg hfacts₁
    have hr₂ : propAt T₂ strMemoryPath strReg = _ := congrArg Facts.reg hfacts₂
    cases hm : (T.lookup strMemoryPath).isSome with
    | true =>
      rw [hm, Facts.foldl_reg] at hr₁ hr₂
      rw [← hsame.banks] at hr₂
      exact hr₁.trans hr₂.symm
    | false =>
      have hnone : T.lookup strMemoryPath = none := by simpa using hm
      rw [propAt, propAt, hf₁.memory, hf₂.memory, hnone]
      rfl

/-- The order of tags of different kinds does not matter just if `/chosen` is there, or both lists or
none have a command line in front of an initial ramdisk. -/
theorem fdtFixupFromAtags_order_iff (ht : TagList ts ws) (ht' : TagList ts' ws')
    (hsame : SameKinds ts ts') (h : Repr fdt T) (hroom : tagsRoom ts ≤ fdt.free.length) :
    Runs (fdtFixupFromAtags ws) ⟨fdt, []⟩ fun _ w₁ =>
      Runs (fdtFixupFromAtags ws') ⟨fdt, []⟩ fun _ w₂ => SameContents w₁.fdt w₂.fdt ↔
        T.lookup strChosenPath ≠ none ∨ (CmdlineFirst ts ↔ CmdlineFirst ts') := by
  refine (runs_twoLists ht ht' hsame h hroom).mono fun _ w₁ hrun => hrun.mono
    fun _ w₂ ⟨T₁, T₂, h₁, h₂, hd₁, hd₂, hsame'⟩ => ?_
  have hchosen : (initrdOf T).chosen = true ↔ T.lookup strChosenPath ≠ none :=
    Option.isSome_iff_ne_none
  rw [← hchosen, ← Initrd.foldl_eq_iff hsame initrdOf_absent, ← hd₁, ← hd₂]
  have hz : 0 ∉ strChosenPath := by decide
  have habs : strChosenPath.head? = some slash := by decide
  constructor
  · intro hcontents
    have hprop := hcontents.propAt h₁ h₂ pathComponents_chosen hz habs
    refine Initrd.ext ?_ (hprop strInitrdStart) (hprop strInitrdEnd)
    rw [hd₁, hd₂, Initrd.chosen_foldl, Initrd.chosen_foldl, hsame.cmdlines]
  · intro heq
    obtain ⟨f, hf⟩ := hsame' heq
    exact ⟨T₁, T₂, f, h₁, h₂, hf⟩

end

def initrdTags : List Atag := [.other atagCore, .initrd2 4096 512, .cmdline (Bytes.ofString "quiet")]

def initrdWords : List UInt32 :=
  [2, atagCore, 4, atagInitrd2, 4096, 512, 4, atagCmdline, 0x65697571, 0x74, 0, 0]

theorem initrdTags_list : TagList initrdTags initrdWords :=
  .cons (@Payload.other _ [] (by decide)) rfl (.cons (@Payload.initrd2 _ _ []) rfl
    (.cons (@Payload.cmdline _ [0, 0] [0x65697571, 0x74] (by decide) (by decide)) rfl .nil))

def cmdlineTags : List Atag := [.other atagCore, .cmdline (Bytes.ofString "quiet"), .initrd2 4096 512]

def cmdlineWords : List UInt32 :=
  [2, atagCore, 4, atagCmdline, 0x65697571, 0x74, 4, atagInitrd2, 4096, 512, 0, 0]

theorem cmdlineTags_list : TagList cmdlineTags cmdlineWords :=
  .cons (@Payload.other _ [] (by decide)) rfl
    (.cons (@Payload.cmdline _ [0, 0] [0x65697571, 0x74] (by decide) (by decide)) rfl
      (.cons (@Payload.initrd2 _ _ []) rfl .nil))

theorem initrdTags_sameKinds : SameKinds initrdTags cmdlineTags := by
  intro k
  simp only [initrdTags, cmdlineTags, List.filter_cons, List.filter_nil, kind]
  by_cases h : atagInitrd2 = k
  · have hne : atagCmdline ≠ atagInitrd2 := by decide
    simp [← h, hne]
  · simp [h]

theorem fdtFixupFromAtags_order_iff_initrd :
    Runs (fdtFixupFromAtags initrdWords) ⟨memoryTree.blob 200, []⟩ fun _ w₁ =>
      Runs (fdtFixupFromAtags cmdlineWords) ⟨memoryTree.blob 200, []⟩ fun _ w₂ =>
        SameContents w₁.fdt w₂.fdt ↔ memoryTree.lookup strChosenPath ≠ none ∨
          (CmdlineFirst initrdTags ↔ CmdlineFirst cmdlineTags) :=
  fdtFixupFromAtags_order_iff initrdTags_list cmdlineTags_list initrdTags_sameKinds memoryTree_repr
    (by rw [memoryTree_room]; decide)

/-- The ramdisk in front of the command line is lost, as nothing has made `/chosen` yet. -/
theorem initrdTags_lost :
    SameKinds initrdTags cmdlineTags ∧
    Runs (fdtFixupFromAtags initrdWords) ⟨memoryTree.blob 200, []⟩ fun _ w₁ =>
      Runs (fdtFixupFromAtags cmdlineWords) ⟨memoryTree.blob 200, []⟩ fun _ w₂ =>
        ¬SameContents w₁.fdt w₂.fdt := by
  refine ⟨initrdTags_sameKinds, (runs_twoLists initrdTags_list cmdlineTags_list initrdTags_sameKinds
    memoryTree_repr (by rw [memoryTree_room]; decide)).mono
    fun _ w₁ hrun => hrun.mono fun _ w₂ hpost hsame => ?_⟩
  obtain ⟨T₁, T₂, h₁, h₂, hd₁, hd₂, -⟩ := hpost
  have hprop := hsame.propAt h₁ h₂ pathComponents_chosen (by decide) (by decide) strInitrdStart
  have hstart₁ : (initrdOf T₁).start = none := by rw [hd₁]; decide
  have hstart₂ : (initrdOf T₂).start = some (be32 4096) := by rw [hd₂]; decide
  have heq : (initrdOf T₁).start = (initrdOf T₂).start := hprop
  rw [hstart₁, hstart₂] at heq
  cases heq

end Babelfish
