import Babelfish.Stale
import Babelfish.Freshness

/-! The references of the device to its groups, and which of them hold zero. -/

namespace Babelfish

open Libfdt Bytes Forest DeviceTree

/-- The bytes that `phandle` takes in a node, and those that `linux,phandle` takes after it. -/
def handleNeed (strings : Bytes) : Nat := propNeed strings strPhandle 4

def secondNeed (strings : Bytes) : Nat :=
  propNeed (strings ++ newName strings strPhandle) strLinuxPhandle 4

def Op.key : Op → Bytes
  | setprop name _ => name
  | appendprop name _ => name
  | _ => []

theorem Op.Sets.getprop_of_ne {op : Op} (h : op.Sets) {name : Bytes} (hne : name ≠ op.key) (n : DtNode) :
    (op.edit n).getprop name = n.getprop name := by
  cases h with
  | setprop hz val => exact DtNode.getprop_setprop_of_ne hne val n
  | appendprop hz val => exact DtNode.getprop_appendprop_of_ne hne val n

theorem sets_pinctrl (k : Nat) (val : Bytes) : (Op.setprop (pinctrlProp k) val).Sets :=
  .setprop (zero_not_mem_pinctrlProp k) val

theorem sets_names : (Op.appendprop strPinctrlNames (strDefault ++ [0])).Sets := .appendprop (by decide) _

theorem nextHandle_ne_zero (T : DeviceTree) : UInt32.ofInt (nextHandle T) ≠ 0 := by
  obtain ⟨h₀, -, hsome⟩ :=
    foldl_max_spec T.ids (fun i => toInt32 (((T.get? i).map DtNode.phandle).getD 0)) 0
  have hm : nextHandle T ≤ 2147483648 := by
    unfold nextHandle
    rcases hsome with he | ⟨i, -, he⟩
    · omega
    · have := toInt32_le (((T.get? i).map DtNode.phandle).getD 0)
      omega
  have hpos : 1 ≤ nextHandle T := by
    unfold nextHandle
    omega
  have hnat := toNat_ofInt (m := nextHandle T) (by omega) (by omega)
  intro he
  rw [he] at hnat
  have hz : (0 : UInt32).toNat = 0 := rfl
  omega

theorem be32_ne_zero {ph : UInt32} (h : ph ≠ 0) : be32 ph.toNat ≠ be32 0 := fun he => by
  have hz := be32_injective ph.toNat_lt (by omega) he
  exact h (UInt32.toNat_inj.mp (hz.trans rfl))

theorem pinctrlProp_not_mem {names : List Bytes} (h : ∀ s ∈ names, ¬strPinctrl <+: s) (k : Nat) :
    pinctrlProp k ∉ names := fun hmem => h _ hmem (strPinctrl_prefix_pinctrlProp k)

namespace Ledger

/-- `L'` is `L` after updates of properties with the given names. -/
inductive Writes (names : List Bytes) (L : Ledger) : Ledger → Prop
  | refl : Writes names L L
  | step {L' : Ledger} (h : Writes names L L') (i : Nat) {op : Op} (hop : op.Sets) (hkey : op.key ∈ names) :
    Writes names L (L'.update i op).2

namespace Writes

variable {names names' : List Bytes} {L L' L'' : Ledger}

theorem trans (h : Writes names L L') (h' : Writes names L' L'') : Writes names L L'' := by
  induction h' with
  | refl => exact h
  | step _ i hop hkey ih => exact ih.step i hop hkey

theorem mono (h : Writes names L L') (hsub : names ⊆ names') : Writes names' L L' := by
  induction h with
  | refl => exact .refl
  | step _ i hop hkey ih => exact ih.step i hop (hsub hkey)

theorem tree_update (L : Ledger) (i : Nat) {op : Op} (hop : op.Sets) :
    (L.update i op).2.stock.tree = L.stock.tree.modify i op.edit ∨
      (L.update i op).2.stock.tree = L.stock.tree := by
  have htree : (L.update i op).2.stock.tree =
      if (L.stock.update i op).1 then L.stock.tree.modify i op.edit else L.stock.tree := update_tree hop
  rw [htree]
  split
  · exact Or.inl rfl
  · exact Or.inr rfl

theorem ids (h : Writes names L L') : L'.stock.tree.ids = L.stock.tree.ids := by
  induction h with
  | refl => rfl
  | @step L' h i op hop hkey ih =>
    rcases tree_update L' i hop with he | he
    · rw [he, ids_modify, ih]
    · rw [he, ih]

theorem childOf (h : Writes names L L') (hn : L.stock.tree.ids.Nodup) (c : Nat) (name : Bytes) :
    L'.stock.tree.childOf c (DtNode.isNamed name) = L.stock.tree.childOf c (DtNode.isNamed name) := by
  induction h with
  | refl => rfl
  | @step L' h i op hop hkey ih =>
    rcases tree_update L' i hop with he | he
    · rw [he, childOf_modify (h.ids ▸ hn) ((Op.keepsName_edit op).isNamed name), ih]
    · rw [he, ih]

theorem value (h : Writes names L L') (hn : L.stock.tree.ids.Nodup) (j : Nat) {name : Bytes}
    (hname : name ∉ names) : L'.stock.value j name = L.stock.value j name := by
  induction h with
  | refl => rfl
  | @step L' h i op hop hkey ih =>
    refine Eq.trans ?_ ih
    unfold Stock.value
    rcases tree_update L' i hop with he | he
    · rw [he]
      by_cases hj : j = i
      · subst hj
        rw [get?_modify_self, Option.bind_map]
        exact Option.bind_congr fun n _ => hop.getprop_of_ne (fun hk : name = op.key => hname (hk ▸ hkey)) n
      · rw [get?_modify_of_ne hj (h.ids ▸ hn)]
    · rw [he]

theorem of_createHandle (L : Ledger) (i : Nat) :
    Writes [strPhandle, strLinuxPhandle] L (L.createHandle i).2 := by
  unfold createHandle
  simp only
  have hone : Writes [strPhandle, strLinuxPhandle] L (L.update i (.setprop strPhandle
      (be32 (UInt32.ofInt (nextHandle L.stock.tree)).toNat))).2 :=
    Writes.refl.step i (.setprop (by decide) _) List.mem_cons_self
  split
  · exact hone.step i (.setprop (by decide) _) (List.mem_cons_of_mem _ List.mem_cons_self)
  · exact hone

theorem of_describe (L : Ledger) (new : Nat) (device : Bytes) (a : PinAttr) :
    Writes [strDrive, strPull, strFunction] L (L.describe new device a) :=
  ((refl.step new (.setprop (by decide) _) (by simp [Op.key])).step new (.setprop (by decide) _)
    (by simp [Op.key])).step new (.setprop (by decide) _) (by simp [Op.key])

theorem of_refer (L : Ledger) (new d ngroup : Nat) :
    Writes [strPinctrlNames, strPhandle, strLinuxPhandle, pinctrlProp ngroup] L (L.refer new d ngroup) := by
  refine Writes.step (Writes.trans ?_ ((of_createHandle _ new).mono ?_)) d (sets_pinctrl ngroup _) ?_
  · exact Writes.refl.step d sets_names List.mem_cons_self
  · simp
  · simp [Op.key]

end Writes

/-- The group `new` can get its phandle, or the device has no `pinctrl-<ngroup>` that a zero could take the
place of. -/
def Referable (L : Ledger) (new d ngroup : Nat) : Prop :=
  let L := (L.update d (.appendprop strPinctrlNames (strDefault ++ [0]))).2
  handleNeed L.stock.strings + secondNeed L.stock.strings ≤ L.stock.free ∨
    ∀ v, L.stock.value d (pinctrlProp ngroup) = some v →
      v = be32 0 ∨ v = [] ∧ (L.createHandle new).2.stock.free < 4

/-- So it is for every group that the pins ask for. -/
def AllReferable (L : Ledger) (c d : Nat) (device : Bytes) : List Gpio → Nat → Prop
  | [], _ => True
  | pin :: gpios, ngroup =>
    match L.stock.tree.childOf c (DtNode.isNamed (attrName device pin.attr)) with
    | some id => (L.update id (.appendprop strPins (pin.pin ++ [0]))).2.AllReferable c d device gpios ngroup
    | none =>
      let new := L.stock.tree.newId
      let r := L.update c (.addSubnode (attrName device pin.attr))
      r.1 = true → (r.2.describe new device pin.attr).Referable new d ngroup ∧
        (((r.2.describe new device pin.attr).refer new d ngroup).update new
          (.appendprop strPins (pin.pin ++ [0]))).2.AllReferable c d device gpios (ngroup + 1)

section

variable {L : Ledger} {c d i new ngroup : Nat} {device : Bytes}

theorem update_absent {name val : Bytes} (h : L.stock.value i name = none) (hlen : val.length = 4)
    (hname : name.length < 16) :
    ((L.update i (.setprop name val)).1 = true ↔ propNeed L.stock.strings name 4 ≤ L.stock.free) ∧
      ((L.update i (.setprop name val)).1 = true →
        (L.update i (.setprop name val)).2.stock.strings = L.stock.strings ++ newName L.stock.strings name ∧
        (L.update i (.setprop name val)).2.stock.free + propNeed L.stock.strings name 4 = L.stock.free) ∧
      (¬(L.update i (.setprop name val)).1 = true → (L.update i (.setprop name val)).2.stock.free < 16) := by
  have hput : L.stock.update i (.setprop name val) = L.stock.splice
      (L.stock.tree.modify i (DtNode.setprop name val)) (newName L.stock.strings name) (12 + align4 4) 0 := by
    rw [← hlen]
    exact Stock.put_eq_none h
  have hfst : (L.update i (.setprop name val)).1 = (L.stock.update i (.setprop name val)).1 := rfl
  have hsnd : (L.update i (.setprop name val)).2.stock = (L.stock.update i (.setprop name val)).2 := rfl
  have hfour : align4 4 = 4 := rfl
  have hiff : (L.update i (.setprop name val)).1 = true ↔ propNeed L.stock.strings name 4 ≤ L.stock.free := by
    rw [hfst, hput, Stock.splice_fst, decide_eq_true_eq]
    rfl
  refine ⟨hiff, fun hmade => ?_, fun hfull => ?_⟩
  · have hle := hiff.mp hmade
    unfold propNeed at hle ⊢
    rw [hsnd, hput, Stock.splice_of_le (by omega)]
    exact ⟨rfl, by simp only; omega⟩
  · -- the name may be left behind, with too little for the rest
    have hlt := mt hiff.mpr hfull
    have hnew := length_newName_le L.stock.strings name
    unfold propNeed at hlt
    rw [hsnd, hput]
    unfold Stock.splice
    rw [if_neg (by omega)]
    split <;> simp only <;> omega

/-- No phandle is made just if the two properties do not both fit, and then hardly a byte is left. -/
theorem createHandle_zero (hn : L.stock.tree.ids.Nodup) (hp : L.stock.value i strPhandle = none)
    (hlp : L.stock.value i strLinuxPhandle = none) :
    ((L.createHandle i).1 = 0 ↔
      ¬handleNeed L.stock.strings + secondNeed L.stock.strings ≤ L.stock.free) ∧
      ((L.createHandle i).1 = 0 → (L.createHandle i).2.stock.free < 16) := by
  have hv := nextHandle_ne_zero L.stock.tree
  unfold createHandle handleNeed secondNeed
  simp only
  generalize UInt32.ofInt (nextHandle L.stock.tree) = v at hv
  have hone : Writes [strPhandle] L (L.update i (.setprop strPhandle (be32 v.toNat))).2 :=
    Writes.refl.step i (.setprop (by decide) _) (List.mem_singleton_self _)
  have hlen : (be32 v.toNat).length = 4 := rfl
  obtain ⟨hfit₁, hleft, hlow₁⟩ := update_absent hp hlen (by decide)
  obtain ⟨hfit₂, -, hlow₂⟩ := update_absent ((hone.value hn i (by decide)).trans hlp) hlen (by decide)
  by_cases hroom : (L.update i (.setprop strPhandle (be32 v.toNat))).1 = true
  · obtain ⟨hstrings, hfree⟩ := hleft hroom
    rw [hstrings] at hfit₂
    rw [if_pos hroom]
    by_cases hroom₂ : ((L.update i (.setprop strPhandle (be32 v.toNat))).2.update i
        (.setprop strLinuxPhandle (be32 v.toNat))).1 = true
    · rw [if_pos hroom₂]
      have := hfit₂.mp hroom₂
      exact ⟨iff_of_false hv (by omega), fun hz => absurd hz hv⟩
    · rw [if_neg hroom₂]
      have := mt hfit₂.mpr hroom₂
      exact ⟨iff_of_true rfl (by omega), fun _ => hlow₂ hroom₂⟩
  · rw [if_neg hroom]
    have := mt hfit₁.mpr hroom
    exact ⟨iff_of_true rfl (by omega), fun _ => hlow₁ hroom⟩

theorem value_setprop (hd : i ∈ L.stock.tree.ids) {name : Bytes} (hz : 0 ∉ name) (val : Bytes) :
    (L.update i (.setprop name val)).2.stock.value i name =
      if (L.stock.setprop i name val).1 then some val else L.stock.value i name := by
  have htree : (L.update i (.setprop name val)).2.stock.tree =
      if (L.stock.setprop i name val).1 then L.stock.tree.modify i (DtNode.setprop name val)
        else L.stock.tree := update_tree (.setprop hz val)
  obtain ⟨n, hget⟩ := get?_of_mem hd
  unfold Stock.value
  rw [htree]
  split
  · rw [get?_modify_self, hget]
    exact DtNode.getprop_setprop_self name val n
  · rfl

theorem setprop_fits {S : Stock} {name val : Bytes} (hlen : val.length = 4) (hfree : S.free < 16) :
    (S.setprop i name val).1 = true ↔ ∃ v, S.value i name = some v ∧ (v = [] → 4 ≤ S.free) := by
  have hfour : align4 4 = 4 := rfl
  unfold Stock.setprop
  rw [hlen]
  cases hv : S.value i name with
  | none =>
    rw [Stock.put_eq_none hv, Stock.splice_fst, decide_eq_true_eq]
    exact iff_of_false (by omega) (by simp)
  | some v =>
    rw [Stock.put_eq_some hv, Stock.splice_fst, decide_eq_true_eq, hfour]
    simp only [Option.some.injEq, List.length_nil, exists_eq_left']
    cases v with
    | nil =>
      simp [align4]
    | cons b v =>
      have hpos : 4 ≤ align4 (b :: v).length := by
        unfold align4
        rw [List.length_cons]
        omega
      simp only [reduceCtorEq, false_imp_iff, iff_true]
      omega

/-- The reference holds zero and did not before just if the group is not referable. -/
theorem refer_zero_iff (hn : L.stock.tree.ids.Nodup) (hd : d ∈ L.stock.tree.ids)
    (hp : L.stock.value new strPhandle = none) (hlp : L.stock.value new strLinuxPhandle = none) :
    ((L.refer new d ngroup).stock.value d (pinctrlProp ngroup) = some (be32 0) →
      L.stock.value d (pinctrlProp ngroup) = some (be32 0)) ↔ L.Referable new d ngroup := by
  have hname : pinctrlProp ngroup ∉ [strPinctrlNames] ∧ pinctrlProp ngroup ∉ [strPhandle, strLinuxPhandle] :=
    ⟨fun h => pinctrlProp_ne_names ngroup (List.mem_singleton.mp h), pinctrlProp_not_mem (by decide) ngroup⟩
  have hnames : Writes [strPinctrlNames] L
      (L.update d (.appendprop strPinctrlNames (strDefault ++ [0]))).2 :=
    Writes.refl.step d sets_names (List.mem_singleton_self _)
  unfold refer Referable
  simp only
  rw [← hnames.value hn d hname.1]
  generalize (L.update d (.appendprop strPinctrlNames (strDefault ++ [0]))).2 = L₁ at hnames
  have hn₁ : L₁.stock.tree.ids.Nodup := hnames.ids ▸ hn
  have hhandle := Writes.of_createHandle L₁ new
  obtain ⟨hzero, hlow⟩ := createHandle_zero hn₁ ((hnames.value hn new (by decide)).trans hp)
    ((hnames.value hn new (by decide)).trans hlp)
  rw [value_setprop (by rw [hhandle.ids, hnames.ids]; exact hd) (zero_not_mem_pinctrlProp ngroup)]
  have hbefore := hhandle.value hn₁ d hname.2
  by_cases hph : (L₁.createHandle new).1 = 0
  · have hfit : ((L₁.createHandle new).2.stock.setprop d (pinctrlProp ngroup)
        (be32 (L₁.createHandle new).1.toNat)).1 = true ↔ _ := setprop_fits rfl (hlow hph)
    rw [hbefore] at hfit ⊢
    rw [or_iff_right (hzero.mp hph)]
    by_cases hmade : ((L₁.createHandle new).2.stock.setprop d (pinctrlProp ngroup)
        (be32 (L₁.createHandle new).1.toNat)).1 = true
    · obtain ⟨v, hv, hsome⟩ := hfit.mp hmade
      rw [if_pos hmade, hph, hv]
      simp only [Option.some.injEq, forall_eq']
      refine ⟨fun h => Or.inl (h rfl), fun h _ => h.resolve_right fun hempty => ?_⟩
      have := hsome hempty.1
      omega
    · rw [if_neg hmade]
      refine iff_of_true id fun v hv => Or.inr ?_
      have hno := mt hfit.mpr hmade
      grind
  · have hyes := not_not.mp (mt hzero.mpr hph)
    rw [hbefore]
    refine iff_of_true (fun h => ?_) (Or.inl hyes)
    split at h
    · exact absurd (Option.some.inj h) (be32_ne_zero hph)
    · exact h

end

/-- The pins so far have `ngroup` groups below the controller. -/
structure Counts (c d : Nat) (device : Bytes) (ngroup : Nat) (L : Ledger) : Prop where
  nodup : L.stock.tree.ids.Nodup
  ctrl : c ∈ L.stock.tree.ids
  mem : d ∈ L.stock.tree.ids
  groups : ∃ made : List PinAttr, made.Nodup ∧ made ⊆ pinAttrs ∧ made.length = ngroup ∧
    ∀ a ∈ made, L.stock.tree.childOf c (DtNode.isNamed (attrName device a)) ≠ none

namespace Counts

variable {c d ngroup : Nat} {device : Bytes} {L L' : Ledger} {names : List Bytes} {a : PinAttr}

theorem le (h : Counts c d device ngroup L) : ngroup ≤ 12 := by
  obtain ⟨made, hnodup, hsub, hlen, -⟩ := h.groups
  exact hlen ▸ (List.subperm_of_subset hnodup hsub).length_le

theorem writes (h : Counts c d device ngroup L) (hw : Writes names L L') : Counts c d device ngroup L' where
  nodup := hw.ids ▸ h.nodup
  ctrl := hw.ids ▸ h.ctrl
  mem := hw.ids ▸ h.mem
  groups := by
    obtain ⟨made, hnodup, hsub, hlen, hall⟩ := h.groups
    refine ⟨made, hnodup, hsub, hlen, fun a ha => ?_⟩
    rw [hw.childOf h.nodup]
    exact hall a ha

theorem tree_addSubnode (L : Ledger) (c : Nat) (name : Bytes) :
    (L.update c (.addSubnode name)).2.stock.tree =
      if (L.update c (.addSubnode name)).1 then L.stock.tree.addFirst c L.stock.tree.newId ⟨name, []⟩
        else L.stock.tree := Stock.splice_tree _ _ _ _ _

theorem value_full {name : Bytes} (hfull : ¬(L.update c (.addSubnode name)).1 = true) (key : Bytes) :
    (L.update c (.addSubnode name)).2.stock.value d key = L.stock.value d key := by
  unfold Stock.value
  rw [tree_addSubnode, if_neg hfull]

theorem add (h : Counts c d device ngroup L) (ha : a ∈ pinAttrs)
    (hnone : L.stock.tree.childOf c (DtNode.isNamed (attrName device a)) = none)
    (hmade : (L.update c (.addSubnode (attrName device a))).1 = true) :
    Counts c d device (ngroup + 1) (L.update c (.addSubnode (attrName device a))).2 := by
  have hfresh := newId_not_mem L.stock.tree
  obtain ⟨made, hnodup, hsub, hlen, hall⟩ := h.groups
  have htree := tree_addSubnode L c (attrName device a)
  rw [if_pos hmade] at htree
  refine ⟨htree ▸ ?_, htree ▸ ?_, htree ▸ ?_, a :: made, ?_, ?_, ?_, htree ▸ ?_⟩
  · exact nodup_addFirst h.nodup hfresh _
  · exact (mem_ids_addFirst h.nodup h.ctrl).mpr (Or.inr h.ctrl)
  · exact (mem_ids_addFirst h.nodup h.ctrl).mpr (Or.inr h.mem)
  · exact List.nodup_cons.mpr ⟨fun hin => hall a hin hnone, hnodup⟩
  · exact List.cons_subset.mpr ⟨ha, hsub⟩
  · rw [List.length_cons, hlen]
  · intro b hb
    rw [childOf_addFirst_self h.ctrl]
    rcases List.mem_cons.mp hb with rfl | hb
    · simp [DtNode.isNamed, DtNode.nameMatches_self]
    · split
      · exact Option.some_ne_none _
      · exact hall b hb

theorem round (h : Counts c d device ngroup L) (ha : a ∈ pinAttrs)
    (hnone : L.stock.tree.childOf c (DtNode.isNamed (attrName device a)) = none)
    (hmade : (L.update c (.addSubnode (attrName device a))).1 = true) (pins : Bytes) :
    let new := L.stock.tree.newId
    let L₁ := (L.update c (.addSubnode (attrName device a))).2.describe new device a
    let L₂ := ((L₁.refer new d ngroup).update new (.appendprop strPins pins)).2
    Counts c d device (ngroup + 1) L₂ ∧
      (∀ j, pinctrlProp j ≠ pinctrlProp ngroup →
        L₂.stock.value d (pinctrlProp j) = L.stock.value d (pinctrlProp j)) ∧
      ((L₂.stock.value d (pinctrlProp ngroup) = some (be32 0) →
        L.stock.value d (pinctrlProp ngroup) = some (be32 0)) ↔ L₁.Referable new d ngroup) := by
  intro new L₁ L₂
  have hfresh : new ∉ L.stock.tree.ids := newId_not_mem L.stock.tree
  have hadd := h.add ha hnone hmade
  have htree := tree_addSubnode L c (attrName device a)
  rw [if_pos hmade] at htree
  have hvalue : ∀ name, (L.update c (.addSubnode (attrName device a))).2.stock.value d name =
      L.stock.value d name := fun name => by
    unfold Stock.value
    rw [htree, get?_addFirst_of_ne (fun he : d = new => hfresh (he ▸ h.mem)) h.nodup]
  have hempty : ∀ name, (L.update c (.addSubnode (attrName device a))).2.stock.value new name = none :=
    fun name => by
      unfold Stock.value
      rw [htree, get?_addFirst_new h.ctrl hfresh]
      rfl
  have hw₁ : Writes [strDrive, strPull, strFunction] _ L₁ := Writes.of_describe _ new device a
  have hadd₁ := hadd.writes hw₁
  have hw₂ : Writes [strPinctrlNames, strPhandle, strLinuxPhandle, pinctrlProp ngroup] L₁
      (L₁.refer new d ngroup) := Writes.of_refer _ _ _ _
  have hw₃ : Writes [strPins] (L₁.refer new d ngroup) L₂ :=
    Writes.refl.step new (.appendprop (by decide) _) (List.mem_singleton_self _)
  have hadd₂ := hadd₁.writes hw₂
  have hpins : ∀ j, L₂.stock.value d (pinctrlProp j) = (L₁.refer new d ngroup).stock.value d (pinctrlProp j) :=
    fun j => hw₃.value hadd₂.nodup d (pinctrlProp_not_mem (by decide) j)
  have hdescribe : ∀ j, L₁.stock.value d (pinctrlProp j) = L.stock.value d (pinctrlProp j) := fun j =>
    (hw₁.value hadd.nodup d (pinctrlProp_not_mem (by decide) j)).trans (hvalue _)
  refine ⟨hadd₂.writes hw₃, fun j hj => ?_, ?_⟩
  · rw [hpins, ← hdescribe]
    refine hw₂.value hadd₁.nodup d fun hmem => ?_
    have hout : pinctrlProp j ∉ [strPhandle, strLinuxPhandle] := pinctrlProp_not_mem (by decide) j
    simp only [List.mem_cons, List.not_mem_nil, or_false, hj, pinctrlProp_ne_names] at hmem hout
    exact hout (hmem.resolve_left id)
  · rw [hpins, ← hdescribe]
    exact refer_zero_iff hadd₁.nodup hadd₁.mem ((hw₁.value hadd.nodup new (by decide)).trans (hempty _))
      ((hw₁.value hadd.nodup new (by decide)).trans (hempty _))

theorem groups_value (h : Counts c d device ngroup L) {k : Nat} (hk : k < ngroup) (gpios : List Gpio) :
    (L.groups c d device gpios ngroup).2.stock.value d (pinctrlProp k) = L.stock.value d (pinctrlProp k) := by
  induction gpios generalizing L ngroup with
  | nil => rfl
  | cons pin gpios ih =>
    unfold Ledger.groups
    cases hch : L.stock.tree.childOf c (DtNode.isNamed (attrName device pin.attr)) with
    | some id =>
      have hw : Writes [strPins] L (L.update id (.appendprop strPins (pin.pin ++ [0]))).2 :=
        Writes.refl.step id (.appendprop (by decide) _) (List.mem_singleton_self _)
      exact (ih (h.writes hw) hk).trans (hw.value h.nodup d (pinctrlProp_not_mem (by decide) k))
    | none =>
      unfold newGroup
      simp only
      by_cases hmade : (L.update c (.addSubnode (attrName device pin.attr))).1 = true
      · obtain ⟨hcount, hkeep, -⟩ := h.round pin.attr_mem hch hmade (pin.pin ++ [0])
        rw [if_pos hmade]
        have hlt := h.le
        refine (ih hcount (by omega)).trans (hkeep k fun he => ?_)
        have := pinctrlProp_injective (by omega) (by omega) he
        omega
      · rw [if_neg hmade]
        exact value_full hmade _

theorem zero_iff (h : Counts c d device ngroup L) (gpios : List Gpio) :
    (∀ j, (L.groups c d device gpios ngroup).2.stock.value d (pinctrlProp j) = some (be32 0) →
      L.stock.value d (pinctrlProp j) = some (be32 0)) ↔ L.AllReferable c d device gpios ngroup := by
  induction gpios generalizing L ngroup with
  | nil => exact iff_of_true (fun _ => id) trivial
  | cons pin gpios ih =>
    unfold Ledger.groups AllReferable
    cases hch : L.stock.tree.childOf c (DtNode.isNamed (attrName device pin.attr)) with
    | some id =>
      have hw : Writes [strPins] L (L.update id (.appendprop strPins (pin.pin ++ [0]))).2 :=
        Writes.refl.step id (.appendprop (by decide) _) (List.mem_singleton_self _)
      refine Iff.trans (forall_congr' fun j => ?_) (ih (h.writes hw))
      dsimp only
      rw [hw.value h.nodup d (pinctrlProp_not_mem (by decide) j)]
    | none =>
      unfold newGroup
      simp only
      by_cases hmade : (L.update c (.addSubnode (attrName device pin.attr))).1 = true
      · obtain ⟨hcount, hkeep, hzero⟩ := h.round pin.attr_mem hch hmade (pin.pin ++ [0])
        rw [if_pos hmade, imp_iff_right hmade, ← hzero, ← ih hcount]
        have hlast := hcount.groups_value (Nat.lt_succ_self ngroup) gpios
        constructor
        · refine fun hall => ⟨fun hz => hall ngroup (hlast.trans hz), fun j hz => ?_⟩
          by_cases hj : pinctrlProp j = pinctrlProp ngroup
          · rw [hj] at hz ⊢
            exact hlast.symm.trans hz
          · exact (hkeep j hj).trans (hall j hz)
        · rintro ⟨hthis, hrest⟩ j hz
          by_cases hj : pinctrlProp j = pinctrlProp ngroup
          · rw [hj] at hz ⊢
            exact hthis (hlast.symm.trans hz)
          · exact (hkeep j hj).symm.trans (hrest j hz)
      · rw [if_neg hmade]
        refine iff_of_true (fun j hz => ?_) fun h => absurd h hmade
        rwa [value_full hmade] at hz

end Counts

end Ledger

end Babelfish
