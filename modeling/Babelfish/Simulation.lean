import Babelfish.Offsets

/-! `fdt_add_pinctrl_group` does what the ledger says as long as the device does not move the controller;
from then on the record of the calls shows a stale offset. -/

namespace Babelfish

open Libfdt Bytes Forest DeviceTree

def Bare (id : Nat) (T : DeviceTree) : Prop := ∀ n, T.get? id = some n → n.phandle = 0

section Group

variable {s : Site} {id o : Nat} {name : Bytes} {w : World} {L : Ledger} {op : Op}

theorem Bare.update (hb : Bare id L.stock.tree) (hn : L.stock.tree.ids.Nodup) (hop : op.Sets)
    (hph : ∀ n, (op.edit n).phandle = n.phandle) (i : Nat) : Bare id (L.update i op).2.stock.tree := by
  intro n hget
  have htree : (L.update i op).2.stock.tree =
      if (L.stock.update i op).1 then L.stock.tree.modify i op.edit else L.stock.tree := update_tree hop
  rw [htree] at hget
  split at hget
  · by_cases hi : id = i
    · subst hi
      rw [get?_modify_self, Option.map_eq_some_iff] at hget
      obtain ⟨n', hn', rfl⟩ := hget
      exact (hph n').trans (hb n' hn')
    · rw [get?_modify_of_ne hi hn] at hget
      exact hb n hget
  · exact hb n hget

variable (hp : Paths s.pinctrlPath s.parentPath s.d s.al) (hzn : 0 ∉ name)

include hp hzn

theorem Tracks.runs_group (h : Tracks w L) (hg : AtGroup s id o name L.stock.tree) (held : Held s L)
    (hop : op.Sets) : Runs (call (.subnode s.pinctrlPath name) op o) w fun r w' =>
      r = (if (L.update id op).1 then 0 else errNoSpace) ∧ Tracks w' (L.update id op).2 ∧
        Held s (L.update id op).2 ∧ AtGroup s id o name (L.update id op).2.stock.tree := by
  have hnodup := h.stocked.repr.nodup
  obtain ⟨n, hn⟩ := get?_of_mem hg.ctrl_group.mem_right
  have ht := hg.target_offset h.stocked.repr hp.pinctrl_zero hzn
  refine (h.runs_update ht hn hg.group_offset hop).mono ?_
  rintro r w' ⟨hr, h'⟩
  refine ⟨hr, h', held.update_of_ne (hg.ne_device hnodup) op, ?_⟩
  have htree : (L.update id op).2.stock.tree =
      if (L.stock.update id op).1 then L.stock.tree.modify id op.edit else L.stock.tree := update_tree hop
  rw [htree]
  split
  · exact hg.modify_group hnodup (Op.keepsName_edit op)
  · exact hg

theorem Tracks.runs_device (h : Tracks w L) (hg : AtGroup s id o name L.stock.tree) (held : Held s L)
    (hop : op.Sets)
    (hkeep : ∀ name, ¬strPinctrl <+: name → ∀ n, (op.edit n).getprop name = n.getprop name) :
    Runs (pathOffset s.parentPath >>= fun od => call (.path s.parentPath) op od) w fun _ w' =>
      Tracks w' (L.update s.d op).2 ∧
        (Held s (L.update s.d op).2 ∧ AtGroup s id o name (L.update s.d op).2.stock.tree ∨
          ¬Held s (L.update s.d op).2 ∧
            (o : Int) ≠ (Target.subnode s.pinctrlPath name).offset w'.fdt) := by
  have hnodup := h.stocked.repr.nodup
  have hname := Op.keepsName_edit op
  obtain ⟨n, hn⟩ := get?_of_mem hg.mem_device
  obtain ⟨od, hod⟩ := DeviceTree.offset_isSome hg.mem_device
  have hpath : fdtPathOffset w.fdt s.parentPath = od :=
    h.stocked.repr.pathOffset hp.parent_zero hg.resolve hod
  refine Runs.bind ((h.runs_read rfl rfl fun _ => ?_).mono ?_)
  · simp only [Op.run, hpath]
    omega
  rintro r w₁ ⟨hr, hfdt, h₁⟩
  simp only [Op.run, hpath] at hr
  subst hr
  have ht : (od : Int) = (Target.path s.parentPath).offset w₁.fdt := by
    rw [hfdt]
    exact hpath.symm
  refine (h₁.runs_update ht hn hod hop).mono ?_
  rintro - w₂ ⟨-, h₂⟩
  refine ⟨h₂, ?_⟩
  have htree : (L.update s.d op).2.stock.tree =
      if (L.stock.update s.d op).1 then L.stock.tree.modify s.d op.edit else L.stock.tree :=
    update_tree hop
  have hiff := resizes_iff hop hn
  by_cases hmade : (L.stock.update s.d op).1 = true
  · rw [if_pos hmade] at htree
    rw [hmade, eq_self, true_and] at hiff
    by_cases hsame : s.ahead ∨ (op.edit n).openSize = n.openSize
    · refine Or.inl ⟨held.update (hsame.imp_right fun he hres => hiff.mp hres he), ?_⟩
      rw [htree]
      exact hg.modify_device hnodup hname hp hkeep (hsame.imp_right fun he n' hn' => by
        rw [hn] at hn'
        exact Option.some.inj hn' ▸ he)
    · obtain ⟨ha, hdiff⟩ := not_or.mp hsame
      refine Or.inr ⟨not_held ha (hiff.mpr hdiff), ?_⟩
      refine hg.shifted hnodup hname hp hkeep hzn ha (fun n' hn' => ?_) (htree ▸ h₂.stocked.repr)
      rw [hn] at hn'
      exact Option.some.inj hn' ▸ hdiff
  · rw [if_neg hmade] at htree
    refine Or.inl ⟨held.update (Or.inr fun hres => hmade (hiff.mp hres).1), ?_⟩
    rw [htree]
    exact hg

theorem Tracks.runs_createHandle (h : Tracks w L) (hg : AtGroup s id o name L.stock.tree)
    (held : Held s L) (hb : Bare id L.stock.tree) :
    Runs (fdtCreatePhandle (.subnode s.pinctrlPath name) o) w fun ph w' =>
      ph = (L.createHandle id).1 ∧ Tracks w' (L.createHandle id).2 ∧ Held s (L.createHandle id).2 ∧
        AtGroup s id o name (L.createHandle id).2.stock.tree := by
  have hpos : ¬((0 : Int) < 0) := by omega
  have hneg : errNoSpace < 0 := by simp [errNoSpace]
  have hrepr := h.stocked.repr
  obtain ⟨n, hn⟩ := get?_of_mem hg.ctrl_group.mem_right
  have ht := hg.target_offset hrepr hp.pinctrl_zero hzn
  have hzero : fdtGetPhandle w.fdt o = 0 := by
    rw [hrepr.getPhandle hn hg.group_offset, hb n hn]
  unfold fdtCreatePhandle Ledger.createHandle
  simp only
  refine Runs.bind ((h.runs_read ht rfl (by rintro (hu | hu) <;> cases hu)).mono ?_)
  rintro r w₁ ⟨hr, hfdt, h₁⟩
  simp only [Op.run, hzero] at hr
  rw [if_pos (by rw [hr]; rfl)]
  refine Runs.bind (Runs.get ?_)
  rw [hfdt, fdtAllocPhandle_eq hrepr]
  generalize UInt32.ofInt (nextHandle L.stock.tree) = v
  unfold fdtSetPhandle setpropU32
  refine Runs.bind (Runs.bind ((h₁.runs_group hp hzn hg held (.setprop (by decide) _)).mono ?_))
  rintro r₂ w₂ ⟨hr₂, h₂, held₂, hg₂⟩
  by_cases hmade : (L.update id (.setprop strPhandle (be32 v.toNat))).1 = true
  · rw [if_pos hmade] at hr₂ ⊢
    rw [hr₂, if_neg hpos]
    refine (h₂.runs_group hp hzn hg₂ held₂ (.setprop (by decide) _)).mono ?_
    rintro r₃ w₃ ⟨hr₃, h₃⟩
    rw [hr₃]
    split
    · exact Runs.pure ⟨rfl, h₃⟩
    · exact Runs.pure ⟨rfl, h₃⟩
  · rw [if_neg hmade] at hr₂ ⊢
    rw [hr₂, if_pos hneg]
    refine Runs.pure ?_
    rw [if_pos hneg]
    exact Runs.pure ⟨rfl, h₂, held₂, hg₂⟩

/-- How the references to a group end: with every offset in place, with the group moved by the last update,
or with a stale offset before. -/
inductive Referred (s : Site) (id o : Nat) (name : Bytes) (L : Ledger) (w : World) : Prop
  | held (h : Tracks w L) (held : Held s L) (hg : AtGroup s id o name L.stock.tree)
  | moved (hnot : ¬Held s L) (ho : (o : Int) ≠ (Target.subnode s.pinctrlPath name).offset w.fdt)
  | stale (hnot : ¬Held s L) (hs : SomeStale w)

theorem Tracks.runs_describe {device : Bytes} {a : PinAttr} (h : Tracks w L)
    (hg : AtGroup s id o name L.stock.tree) (held : Held s L) (hb : Bare id L.stock.tree)
    {β : Type} {f : Fixup β} {Q : β → World → Prop}
    (hf : ∀ w', Tracks w' (L.describe id device a) → Held s (L.describe id device a) →
      AtGroup s id o name (L.describe id device a).stock.tree → Bare id (L.describe id device a).stock.tree →
        Runs f w' Q) :
    Runs (do
      let _ ← call (.subnode s.pinctrlPath name) (.setprop strDrive (be32 a.2.toNat)) o
      let _ ← call (.subnode s.pinctrlPath name) (.setprop strPull (be32 a.1.toNat)) o
      let _ ← call (.subnode s.pinctrlPath name) (.setprop strFunction (device ++ [0])) o
      f) w Q := by
  refine Runs.bind ((h.runs_group hp hzn hg held (.setprop (by decide) _)).mono ?_)
  rintro - w₂ ⟨-, h₂, held₂, hg₂⟩
  have hb₂ := hb.update h.stocked.repr.nodup
    (show (Op.setprop strDrive (be32 a.2.toNat)).Sets from .setprop (by decide) _)
    (phandle_setprop_of_ne (by decide) (by decide) (be32 a.2.toNat)) id
  refine Runs.bind ((h₂.runs_group hp hzn hg₂ held₂ (.setprop (by decide) _)).mono ?_)
  rintro - w₃ ⟨-, h₃, held₃, hg₃⟩
  have hb₃ := hb₂.update h₂.stocked.repr.nodup
    (show (Op.setprop strPull (be32 a.1.toNat)).Sets from .setprop (by decide) _)
    (phandle_setprop_of_ne (by decide) (by decide) (be32 a.1.toNat)) id
  refine Runs.bind ((h₃.runs_group hp hzn hg₃ held₃ (.setprop (by decide) _)).mono ?_)
  rintro - w₄ ⟨-, h₄, held₄, hg₄⟩
  exact hf w₄ h₄ held₄ hg₄ (hb₃.update h₃.stocked.repr.nodup
    (show (Op.setprop strFunction (device ++ [0])).Sets from .setprop (by decide) _)
    (phandle_setprop_of_ne (by decide) (by decide) (device ++ [0])) id)

theorem Tracks.runs_refer (h : Tracks w L) (hg : AtGroup s id o name L.stock.tree) (held : Held s L)
    (hb : Bare id L.stock.tree) (ngroup : Nat) :
    Runs (do
      let parentOffset ← pathOffset s.parentPath
      let _ ← call (.path s.parentPath) (.appendprop strPinctrlNames (strDefault ++ [0])) parentOffset
      let phandle ← fdtCreatePhandle (.subnode s.pinctrlPath name) o
      let parentOffset ← pathOffset s.parentPath
      let _ ← call (.path s.parentPath) (.setprop (pinctrlProp ngroup) (be32 phandle.toNat)) parentOffset
      pure (o : Int)) w fun r w' => r = o ∧ Referred s id o name (L.refer id s.d ngroup) w' := by
  have hprefix : (L.update s.d (.appendprop strPinctrlNames (strDefault ++ [0]))).2.updates <+:
      (L.refer id s.d ngroup).updates :=
    (Ledger.prefix_createHandle _ _).trans (Ledger.prefix_update _ _ _)
  refine Runs.bind_bind ((h.runs_device hp hzn hg held (.appendprop (by decide) _)
    fun name hn n => getprop_appendprop_names hn _ n).mono ?_)
  rintro - w₅ ⟨h₅, ⟨held₅, hg₅⟩ | ⟨hnot, ho⟩⟩
  · have hb₅ := hb.update h.stocked.repr.nodup
      (show (Op.appendprop strPinctrlNames (strDefault ++ [0])).Sets from .appendprop (by decide) _)
      (phandle_appendprop_of_ne (by decide) (by decide) (strDefault ++ [0])) s.d
    refine Runs.bind ((h₅.runs_createHandle hp hzn hg₅ held₅ hb₅).mono ?_)
    rintro ph w₆ ⟨rfl, h₆, held₆, hg₆⟩
    refine Runs.bind_bind ((h₆.runs_device hp hzn hg₆ held₆
      (.setprop (zero_not_mem_pinctrlProp ngroup) _)
      fun name hn n => getprop_setprop_pinctrl hn ngroup _ n).mono ?_)
    rintro - w₇ ⟨h₇, ⟨held₇, hg₇⟩ | ⟨hnot, ho⟩⟩
    · exact Runs.pure ⟨rfl, .held h₇ held₇ hg₇⟩
    · exact Runs.pure ⟨rfl, .moved hnot ho⟩
  · -- the phandle of the group is asked for at the offset from before
    have hstill : ¬Held s (L.refer id s.d ngroup) := fun held => hnot (held.earlier hprefix)
    unfold fdtCreatePhandle
    refine Runs.bind (Runs.bind (runs_call ?_))
    refine ((SomeStale.call ho).runs ?_).mono fun ph w₆ h₆ => ?_
    · refine Extends.ite (Extends.get_bind fun w => Extends.bind ?_ fun r =>
        Extends.ite (Extends.pure _) (Extends.pure _)) (Extends.pure _)
      unfold fdtSetPhandle setpropU32
      exact Extends.bind (Extends.call _ _ _) fun r => Extends.ite (Extends.pure _) (Extends.call _ _ _)
    · refine Runs.bind ((h₆.runs (Extends.pathOffset _)).mono fun _ w₇ h₇ => ?_)
      refine Runs.bind ((h₇.runs (Extends.call _ _ _)).mono fun _ w₈ h₈ => ?_)
      exact Runs.pure ⟨rfl, .stale hstill h₈⟩

end Group

section NewGroup

variable {s : Site} {device : Bytes} {w : World} {L : Ledger}
variable (hat : atSign ∉ device)

include hat

theorem Placed.addGroup {fdt : Fdt} {T : DeviceTree} {a : PinAttr} {o : Nat} (hs : Placed s T)
    (hrepr : Libfdt.Repr fdt T) (ha : a ∈ pinAttrs)
    (hnone : T.childOf s.c (DtNode.isNamed (attrName device a)) = none)
    (ho : DeviceTree.offset (T.addFirst s.c T.newId ⟨attrName device a, []⟩) T.newId = some o) :
    AtGroup s T.newId o (attrName device a) (T.addFirst s.c T.newId ⟨attrName device a, []⟩) := by
  have hatn := atSign_not_mem_attrName hat ha
  have hfresh := newId_not_mem T
  have hcm := hs.mem_ctrl
  obtain ⟨hcn, hnd⟩ := precedes_addFirst_new hrepr.nodup (⟨attrName device a, []⟩ : DtNode)
    (n := T.newId) hcm
  exact
    { order := hs.order.imp (And.imp_right fun h => precedes_addFirst hrepr.nodup h _ _ _)
        (And.imp_right fun h => precedes_addFirst hrepr.nodup h _ _ _)
      ctrl_offset := (offset_update_of_precedes hrepr.nodup (Or.inr rfl) _).trans hs.ctrl_offset
      ctrl_resolve := resolve_addFirst hrepr.rooted hrepr.nodup hfresh hatn hnone hs.ctrl_resolve
      resolve := resolve_addFirst hrepr.rooted hrepr.nodup hfresh hatn hnone hs.resolve
      aliases := (lookup_addFirst_eq hrepr.rooted hrepr.nodup hfresh hatn
        (attrName_not_mem_aliases device a)).trans hs.aliases
      ctrl_group := hcn
      before := fun hah => hnd s.d (hs.order.elim And.right fun hc => absurd hah hc.1)
      ne_aliases := hs.aliases ▸ aliases_ne_new hrepr.rooted hfresh
      group_offset := ho
      child := by
        rw [childOf_addFirst_self hcm]
        simp [DtNode.isNamed, DtNode.nameMatches_self] }

variable (hp : Paths s.pinctrlPath s.parentPath s.d s.al) (hzd : 0 ∉ device)

include hp hzd

theorem Tracks.runs_addGroup (h : Tracks w L) (hs : Placed s L.stock.tree) (held : Held s L)
    {a : PinAttr} (ha : a ∈ pinAttrs)
    (hnone : L.stock.tree.childOf s.c (DtNode.isNamed (attrName device a)) = none) :
    Runs (call (.path s.pinctrlPath) (.addSubnode (attrName device a)) s.po) w fun r w' =>
      Tracks w' (L.update s.c (.addSubnode (attrName device a))).2 ∧
      Held s (L.update s.c (.addSubnode (attrName device a))).2 ∧
      ((L.update s.c (.addSubnode (attrName device a))).1 = true ∧ (∃ o : Nat, r = o ∧
          AtGroup s L.stock.tree.newId o (attrName device a)
            (L.update s.c (.addSubnode (attrName device a))).2.stock.tree) ∧
          Bare L.stock.tree.newId (L.update s.c (.addSubnode (attrName device a))).2.stock.tree ∨
        (L.update s.c (.addSubnode (attrName device a))).1 = false ∧ r = errNoSpace ∧
          Placed s (L.update s.c (.addSubnode (attrName device a))).2.stock.tree) := by
  have hzn := zero_not_mem_attrName hzd ha
  have hrepr := h.stocked.repr
  have hfresh := newId_not_mem L.stock.tree
  have hcm := hs.mem_ctrl
  have hne : s.c ≠ s.d := hs.order.elim (fun hc => hc.2.ne hrepr.nodup) fun hc => (hc.2.ne hrepr.nodup).symm
  obtain ⟨nc, hnc⟩ := get?_of_mem hcm
  have ht : (s.po : Int) = (Target.path s.pinctrlPath).offset w.fdt :=
    (hrepr.pathOffset hp.pinctrl_zero hs.ctrl_resolve hs.ctrl_offset).symm
  obtain ⟨ho, hret, hstocked⟩ := h.stocked.addSubnode hnc hs.ctrl_offset hzn hnone hfresh
  have hadd : L.stock.update s.c (.addSubnode (attrName device a)) =
      L.stock.addSubnode s.c L.stock.tree.newId (attrName device a) := rfl
  rw [← hadd] at hret hstocked
  have hpos : 0 ≤ ((s.po + nc.openSize : Nat) : Int) := by omega
  have hneg : ¬0 ≤ errNoSpace := by simp [errNoSpace]
  refine runs_call ⟨⟨hstocked, h.fresh.call ht, ?_⟩, held.update_of_ne hne _, ?_⟩
  · have hreq : (⟨.path s.pinctrlPath, .addSubnode (attrName device a), w.fdt, s.po⟩ : Call).Required :=
      Or.inl (.addSubnode _)
    rw [allMade_call, h.made, imp_iff_right hreq]
    simp only [Ledger.update_updates, List.forall_mem_append, List.forall_mem_singleton]
    refine and_congr_right fun _ => ?_
    simp only [Op.run, hret]
    unfold Update.Made
    by_cases hmade : (L.stock.update s.c (.addSubnode (attrName device a))).1 = true
    · simp only [hmade, if_true, hpos]
    · simp only [hmade, Bool.false_eq_true, if_false, hneg]
  · have htree : (L.update s.c (.addSubnode (attrName device a))).2.stock.tree =
        if (L.stock.update s.c (.addSubnode (attrName device a))).1 then
          L.stock.tree.addFirst s.c L.stock.tree.newId ⟨attrName device a, []⟩ else L.stock.tree :=
      Stock.splice_tree _ _ _ _ _
    by_cases hmade : (L.stock.update s.c (.addSubnode (attrName device a))).1 = true
    · rw [if_pos hmade] at hret htree
      refine Or.inl ⟨hmade, ⟨s.po + nc.openSize, hret, ?_⟩, ?_⟩
      · rw [htree]
        exact hs.addGroup hat hrepr ha hnone ho
      · intro n hn
        rw [htree, get?_addFirst_new hcm hfresh] at hn
        exact Option.some.inj hn ▸ rfl
    · rw [if_neg hmade] at hret htree
      exact Or.inr ⟨Bool.eq_false_iff.mpr hmade, hret, htree ▸ hs⟩

theorem Tracks.runs_newGroup (h : Tracks w L) (hs : Placed s L.stock.tree) (held : Held s L)
    (pin : Gpio) (hnone : L.stock.tree.childOf s.c (DtNode.isNamed (attrName device pin.attr)) = none)
    (ngroup : Nat) :
    Runs (fdtNewGroup s.pinctrlPath s.parentPath device s.po pin.pull pin.drive ngroup) w fun r w' =>
      (L.newGroup s.c s.d device pin.attr ngroup).1 = none ∧ r = errNoSpace ∧
          Tracks w' (L.newGroup s.c s.d device pin.attr ngroup).2 ∧
          Held s (L.newGroup s.c s.d device pin.attr ngroup).2 ∧
          Placed s (L.newGroup s.c s.d device pin.attr ngroup).2.stock.tree ∨
        ∃ id o : Nat, (L.newGroup s.c s.d device pin.attr ngroup).1 = some id ∧ r = o ∧
          Referred s id o (attrName device pin.attr) (L.newGroup s.c s.d device pin.attr ngroup).2 w' := by
  have ha := pin.attr_mem
  have hzn := zero_not_mem_attrName hzd ha
  have hneg : errNoSpace < 0 := by simp [errNoSpace]
  have hdrive : normDrive pin.drive = pin.attr.2 := rfl
  have hpull : normPull pin.pull = pin.attr.1 := rfl
  unfold fdtNewGroup Ledger.newGroup
  simp only [groupName_eq, setpropU32, setpropString, appendpropString, hdrive, hpull]
  refine Runs.bind ((h.runs_addGroup hat hp hzd hs held ha hnone).mono ?_)
  rintro r w₁ ⟨h₁, held₁, ⟨hmade, ⟨o, rfl, hg₁⟩, hb₁⟩ | ⟨hmade, rfl, hs₁⟩⟩
  · have hpos : ¬((o : Int) < 0) := by omega
    rw [if_neg hpos]
    simp only [if_pos hmade]
    refine h₁.runs_describe hp hzn (a := pin.attr) hg₁ held₁ hb₁ fun w₂ h₂ held₂ hg₂ hb₂ => ?_
    refine (h₂.runs_refer hp hzn hg₂ held₂ hb₂ ngroup).mono ?_
    rintro r w₃ ⟨rfl, href⟩
    exact Or.inr ⟨_, o, rfl, rfl, href⟩
  · rw [if_pos hneg]
    simp only [if_neg (Bool.eq_false_iff.mp hmade)]
    exact Runs.pure (Or.inl ⟨trivial, rfl, h₁, held₁, hs₁⟩)

theorem Tracks.runs_oldGroup (h : Tracks w L) (hs : Placed s L.stock.tree) (held : Held s L)
    {pin : Gpio} {id o : Nat}
    (hch : L.stock.tree.childOf s.c (DtNode.isNamed (attrName device pin.attr)) = some id)
    (ho : DeviceTree.offset L.stock.tree id = some o) :
    Runs (call (.subnode s.pinctrlPath (attrName device pin.attr)) (.appendprop strPins (pin.pin ++ [0])) o)
      w fun _ w' =>
        Tracks w' (L.update id (.appendprop strPins (pin.pin ++ [0]))).2 ∧
        Held s (L.update id (.appendprop strPins (pin.pin ++ [0]))).2 ∧
        Placed s (L.update id (.appendprop strPins (pin.pin ++ [0]))).2.stock.tree := by
  have hrepr := h.stocked.repr
  have hnodup := hrepr.nodup
  obtain ⟨hprec, n, hn, -⟩ := childOf_spec hnodup hch
  have hal : s.al ≠ some id := hs.aliases ▸ aliases_ne_group hnodup hat pin.attr_mem hch
  have hgroup : (o : Int) = (Target.subnode s.pinctrlPath (attrName device pin.attr)).offset w.fdt := by
    have hpo := hrepr.pathOffset hp.pinctrl_zero hs.ctrl_resolve hs.ctrl_offset
    have hsub := (hrepr.subnodeOffset hs.ctrl_offset (zero_not_mem_attrName hzd pin.attr_mem)).2 id hch o ho
    simp only [Target.offset, hpo, hsub]
  refine (h.runs_update hgroup hn ho (.appendprop (by decide) _)).mono ?_
  rintro - w₂ ⟨-, h₂⟩
  refine ⟨h₂, held.update ?_, ?_⟩
  · refine hs.order.imp And.left fun hc hres => ?_
    exact (hc.2.trans hnodup hprec).ne hnodup hres.1.symm
  · change Placed s (L.stock.update id (.appendprop strPins (pin.pin ++ [0]))).2.tree
    rw [update_tree (.appendprop (by decide) _)]
    split
    · exact hs.modify_child hnodup (keepsName_appendprop _ _) hprec hal
    · exact hs

theorem Tracks.runs_groupLoop {gpios : List Gpio} (h : Tracks w L) (hs : Placed s L.stock.tree)
    (held : Held s L) (ngroup : Nat) :
    Runs (groupLoop s.pinctrlPath s.parentPath device s.po gpios ngroup) w fun r w' =>
      Held s (L.groups s.c s.d device gpios ngroup).2 ∧
          r = (L.groups s.c s.d device gpios ngroup).1 ∧
          Tracks w' (L.groups s.c s.d device gpios ngroup).2 ∧
          Placed s (L.groups s.c s.d device gpios ngroup).2.stock.tree ∨
        ¬Held s (L.groups s.c s.d device gpios ngroup).2 ∧ SomeStale w' := by
  induction gpios generalizing w L ngroup with
  | nil => exact Runs.pure (Or.inl ⟨held, rfl, h, hs⟩)
  | cons pin gpios ih =>
    have ha := pin.attr_mem
    have hzn := zero_not_mem_attrName hzd ha
    have hrepr := h.stocked.repr
    have hneg : errNotFound < 0 ∧ errNoSpace < 0 := by simp [errNotFound, errNoSpace]
    have ht : (s.po : Int) = (Target.path s.pinctrlPath).offset w.fdt :=
      (hrepr.pathOffset hp.pinctrl_zero hs.ctrl_resolve hs.ctrl_offset).symm
    have hext : ∀ k, Extends (groupLoop s.pinctrlPath s.parentPath device s.po gpios k) := fun k =>
      Adds.prefix_calls (Unchecked.groupLoop _ _ _ _ _ _)
    obtain ⟨hno, hsome⟩ := hrepr.subnodeOffset hs.ctrl_offset hzn
    unfold groupLoop Ledger.groups
    simp only [groupName_eq, appendpropString]
    refine Runs.bind ((h.runs_read ht rfl (by rintro (hu | hu) <;> cases hu)).mono ?_)
    rintro r w₁ ⟨hr, hfdt, h₁⟩
    simp only [Op.run] at hr
    cases hch : L.stock.tree.childOf s.c (DtNode.isNamed (attrName device pin.attr)) with
    | none =>
      rw [hr, hno hch, if_pos hneg.1]
      refine Runs.bind ((h₁.runs_newGroup hat hp hzd hs held pin hch ngroup).mono ?_)
      generalize L.newGroup s.c s.d device pin.attr ngroup = R
      obtain ⟨new, L₂⟩ := R
      rintro r₂ w₂ (⟨rfl, rfl, h₂, held₂, hs₂⟩ | ⟨id, o, rfl, rfl, href⟩)
      · rw [if_pos hneg.2]
        exact Runs.pure (Or.inl ⟨held₂, rfl, h₂, hs₂⟩)
      · have hpos : ¬((o : Int) < 0) := by omega
        rw [if_neg hpos]
        have hpre := (Ledger.prefix_update L₂ id (.appendprop strPins (pin.pin ++ [0]))).trans
          (Ledger.prefix_groups _ s.c s.d device gpios (ngroup + 1))
        cases href with
        | held h₂ held₂ hg₂ =>
          refine Runs.bind ((h₂.runs_group hp hzn hg₂ held₂ (.appendprop (by decide) _)).mono ?_)
          rintro - w₃ ⟨-, h₃, held₃, hg₃⟩
          exact ih h₃ hg₃.toPlaced held₃ (ngroup + 1)
        | moved hnot ho =>
          refine Runs.bind (runs_call (((SomeStale.call ho).runs (hext _)).mono fun _ _ hstale => ?_))
          exact Or.inr ⟨fun held => hnot (held.earlier hpre), hstale⟩
        | stale hnot hstale =>
          refine Runs.bind ((hstale.runs (Extends.call _ _ _)).mono fun _ w₃ h₃ => ?_)
          refine (h₃.runs (hext _)).mono fun _ _ h₄ => ?_
          exact Or.inr ⟨fun held => hnot (held.earlier hpre), h₄⟩
    | some id =>
      obtain ⟨o, ho⟩ := DeviceTree.offset_isSome (childOf_spec hrepr.nodup hch).1.mem_right
      have hpos : ¬((o : Int) < 0) := by omega
      rw [hr, hsome id hch o ho, if_neg hpos]
      refine Runs.bind ((h₁.runs_oldGroup hat hp hzd hs held hch ho).mono ?_)
      rintro - w₂ ⟨h₂, held₂, hs₂⟩
      exact ih h₂ hs₂ held₂ ngroup

end NewGroup

end Babelfish
