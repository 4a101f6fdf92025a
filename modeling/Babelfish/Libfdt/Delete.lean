import Babelfish.Lib.Erase
import Babelfish.Libfdt.Edit
import Babelfish.Libfdt.GetPath

/-! `fdt_del_node`, `fdt_delprop` and `fdt_set_name` of `fdt_rw.c` and `fdt_setprop_inplace` of `fdt_wip.c`
as edits of the tree that a blob represents. -/

namespace Babelfish.Libfdt

open Bytes Forest

def fdtNodeEndOffset (fdt : Fdt) (offset : Int) : Int :=
  forLoop (step fdt) (fun p => decide (0 ≤ p.1 ∧ 0 ≤ p.2.getD 0)) (fun _ (_ : Unit) => .ok ())
    (fun p _ => p.1) errBadStructure (fdtFuel fdt) (offset, some 0) ()

def fdtDelNode (fdt : Fdt) (nodeoffset : Int) : Int × Fdt :=
  let endoffset := fdtNodeEndOffset fdt nodeoffset
  if endoffset < 0 then (endoffset, fdt)
  else fdtSpliceStruct fdt nodeoffset (endoffset - nodeoffset) 0

def fdtDelprop (fdt : Fdt) (nodeoffset : Int) (name : Bytes) : Int × Fdt :=
  let prop := fdtGetProperty fdt nodeoffset name
  if prop < 0 then (prop, fdt)
  else fdtSpliceStruct fdt prop (12 + fdtTagAlign (propLen fdt prop)) 0

def fdtSetName (fdt : Fdt) (nodeoffset : Int) (name : Bytes) : Int × Fdt :=
  match fdtGetName fdt nodeoffset with
  | .error oldlen => (oldlen, fdt)
  | .ok namep =>
    let r := fdtSpliceStruct fdt (nodeoffset + 4) (fdtTagAlign (namep.length + 1))
      (fdtTagAlign (name.length + 1))
    if r.1 ≠ 0 then r else (0, r.2.write (nodeoffset + 4) (name ++ [0]))

def fdtSetpropInplace (fdt : Fdt) (nodeoffset : Int) (name val : Bytes) : Int × Fdt :=
  let r := fdtGetprop fdt nodeoffset name
  match r.1 with
  | none => (r.2, fdt)
  | some propval => if r.2 ≠ val.length then (errNoSpace, fdt) else (0, fdt.write propval val)

def DtNode.delprop (name : Bytes) (n : DtNode) : DtNode :=
  { n with props := n.props.eraseP fun p => p.1 == name }

def DtNode.setName (name : Bytes) (n : DtNode) : DtNode := { n with name := name }

variable {fdt : Fdt} {T : DeviceTree}

theorem splice_remove {pre mid post : List Tok} (h : At fdt 0 (pre ++ (mid ++ post))) :
    ∃ free', fdtSpliceStruct fdt (weight Tok.size pre : Nat) (weight Tok.size mid : Nat) 0 =
        (0, ⟨encode (pre ++ post), fdt.dtStrings, free'⟩) ∧
      free'.length = fdt.free.length + weight Tok.size mid := by
  have hpre := length_encode fun t ht => h.wf t (List.mem_append_left _ ht)
  have hmid := length_encode fun t ht => h.wf t (List.mem_append_right _ (List.mem_append_left _ ht))
  have hstruct : fdt.dtStruct = encode pre ++ (encode mid ++ encode post) := by
    have := h.drop
    simpa using this
  obtain ⟨M', free', hsplice, hlen, -, hfree⟩ := fdtSpliceStruct_ok hstruct 0 (Nat.zero_le _)
  obtain rfl : M' = [] := List.length_eq_zero_iff.mp hlen
  rw [hpre, hmid] at hsplice
  refine ⟨free', ?_, by omega⟩
  rw [show (0 : Int) = ((0 : Nat) : Int) from rfl, hsplice]
  simp

theorem nodeEndOffset_eq {offset : Nat} {strings : Bytes} {n : DtNode} {sub : DeviceTree} {pad : Bytes}
    {ps ss post : List Tok}
    (h : At fdt offset (.beginNode n.name pad :: (ps ++ (ss ++ (.endNode :: post)))))
    (hps : PropsEnc strings n.props ps) (hss : TreeEnc strings sub ss) :
    fdtNodeEndOffset fdt offset =
      ((offset + (n.openSize + (sub.size DtNode.openSize 4 + 4)) : Nat) : Int) := by
  have hw := NodeEnc.weight (show NodeEnc strings n (.beginNode n.name pad :: ps) from
    ⟨pad, ps, rfl, hps⟩)
  rw [weight_cons] at hw
  have hsub : At fdt (offset + n.openSize) (ss ++ (.endNode :: post)) := by
    rw [← hw, ← Nat.add_assoc]
    exact h.tail.append
  have htrace := trace_visits hss hsub (d := 0) (some 0) (by simp)
  have hstep := step_beginNode h (some 0)
  rw [nextAt_props hps, Nat.add_assoc, hw] at hstep
  have hend : nextAt (.endNode :: post) (offset + n.openSize + weight Tok.size ss) (some 0) =
      (((offset + (n.openSize + (sub.size DtNode.openSize 4 + 4)) : Nat) : Int), some (-1)) := by
    rw [TreeEnc.weight hss]
    simp only [nextAt]
    rw [if_pos (by omega)]
    simp only [Prod.mk.injEq, Int.zero_sub, and_true]
    omega
  simp only [Option.map_some, Int.zero_add, show ((0 : Nat) : Int) = 0 from rfl, hend] at htrace
  rw [← hstep] at htrace
  have hlen := length_visits_le (c := 4) DtNode.openSize_pos sub (offset + n.openSize) (0 + 1)
  have htotal := hsub.length_eq
  rw [weight_append, TreeEnc.weight hss, weight_cons, Tok.size] at htotal
  have hfold : (((offset : Int), some (0 : Int)) :: (sub.visits DtNode.openSize 4 (offset + n.openSize)
      (0 + 1)).map (posAt (some 0))).foldlM (turn (fun p : Pos => decide (0 ≤ p.1 ∧ 0 ≤ p.2.getD 0))
        (fun _ (_ : Unit) => Except.ok ()) (fun p _ => p.1)) () = .ok () := by
    refine foldlM_turn_ok fun p hp => ⟨?_, rfl⟩
    rcases List.mem_cons.mp hp with rfl | hp
    · simp
    · obtain ⟨v, -, rfl⟩ := List.mem_map.mp hp
      simp only [posAt, Option.map_some, Option.getD_some]
      exact decide_eq_true (by omega)
  obtain ⟨f, hf⟩ : ∃ f, fdtFuel fdt - ((sub.visits DtNode.openSize 4 (offset + n.openSize)
      (0 + 1)).length + 1) = f + 1 :=
    ⟨fdtFuel fdt - ((sub.visits DtNode.openSize 4 (offset + n.openSize) (0 + 1)).length + 1) - 1, by
      unfold fdtFuel
      omega⟩
  rw [fdtNodeEndOffset, Babelfish.forLoop_eq (.cons htrace) (by
    simp only [List.length_cons, List.length_map]
    unfold fdtFuel
    omega), hfold]
  simp only [List.length_cons, List.length_map, hf, forLoop]
  simp

theorem Repr.delNode {id o : Nat} (h : Repr fdt T) (ho : DeviceTree.offset T id = some o)
    (hroot : id ≠ T.root) :
    (fdtDelNode fdt o).1 = 0 ∧ Repr (fdtDelNode fdt o).2 (T.erase id) ∧
      (fdtDelNode fdt o).2.dtStrings = fdt.dtStrings ∧
      fdt.free.length < (fdtDelNode fdt o).2.free.length := by
  have hsmall := h.small
  obtain ⟨ts, hat, henc⟩ := h.enc
  obtain ⟨⟨n, sub⟩, hf⟩ := find?_isSome (mem_of_offset ho)
  obtain ⟨pre, as, ss, post, rfl, ⟨pad, ps, rfl, hps⟩, hss, ho', herase⟩ :=
    henc.split_erase (fun _ _ hn => NodeEnc.weight hn) h.nodup hf
  obtain rfl : weight Tok.size pre = o := by
    have : DeviceTree.offset T id = some (weight Tok.size pre) := ho'
    simpa [ho] using this.symm
  have hat' : At fdt 0 (pre ++ ((.beginNode n.name pad :: (ps ++ (ss ++ [.endNode]))) ++
      (post ++ [.fend]))) := by
    simpa using hat
  have hnode : At fdt (weight Tok.size pre)
      (.beginNode n.name pad :: (ps ++ (ss ++ (.endNode :: (post ++ [.fend]))))) := by
    simpa using hat'.append
  have hw := NodeEnc.weight (show NodeEnc fdt.dtStrings n (.beginNode n.name pad :: ps) from
    ⟨pad, ps, rfl, hps⟩)
  have hmid : weight Tok.size (.beginNode n.name pad :: (ps ++ (ss ++ [.endNode]))) =
      n.openSize + (sub.size DtNode.openSize 4 + 4) := by
    rw [← hw, ← TreeEnc.weight hss]
    simp only [weight_cons, weight_append, weight_nil, Tok.size]
    omega
  have hend := nodeEndOffset_eq hnode hps hss
  obtain ⟨free', hsplice, hfree⟩ := splice_remove hat'
  have hdel : fdtDelNode fdt (weight Tok.size pre : Nat) =
      (0, ⟨encode (pre ++ (post ++ [.fend])), fdt.dtStrings, free'⟩) := by
    have hneg : ¬((weight Tok.size pre + (n.openSize + (sub.size DtNode.openSize 4 + 4)) : Nat) : Int) <
        0 := by omega
    rw [hmid] at hsplice
    simp only [fdtDelNode, hend, if_neg hneg]
    rw [← hsplice]
    congr 1
    omega
  rw [hdel]
  have hwf : ∀ t ∈ pre ++ (post ++ [.fend]), t.Wf := fun t ht => by
    refine hat'.wf t ?_
    rcases List.mem_append.mp ht with ht | ht
    · exact List.mem_append_left _ ht
    · exact List.mem_append_right _ (List.mem_append_right _ ht)
  have hold := hat'.length_eq
  have hnew := length_encode hwf
  simp only [weight_append, hmid, Nat.zero_add] at hold hnew hfree
  refine ⟨rfl, ?_, rfl, ?_⟩
  · refine h.of_tokens rfl hwf (List.append_assoc _ _ _) herase (nodup_erase h.nodup id) ?_ ?_
    · obtain ⟨i, m, s, rfl⟩ := h.rooted
      have hi : i ≠ id := fun e => hroot e.symm
      exact ⟨i, m, s.erase id, by simp [Forest.erase, hi]⟩
    · simp only [hnew]
      omega
  · have := n.openSize_pos
    simp only
    omega

theorem Repr.delprop {id o : Nat} {n : DtNode} (h : Repr fdt T) (hn : T.get? id = some n)
    (ho : DeviceTree.offset T id = some o) (name : Bytes) :
    (n.getprop name = none → fdtDelprop fdt o name = (errNotFound, fdt)) ∧
      ∀ v, n.getprop name = some v → (fdtDelprop fdt o name).1 = 0 ∧
        Repr (fdtDelprop fdt o name).2 (T.modify id (DtNode.delprop name)) ∧
        (fdtDelprop fdt o name).2.dtStrings = fdt.dtStrings ∧
        (fdtDelprop fdt o name).2.free.length = fdt.free.length + (12 + align4 v.length) := by
  have hsmall := h.small
  obtain ⟨⟨n', sub⟩, hf, rfl⟩ := Option.map_eq_some_iff.mp hn
  refine ⟨fun hp => ?_, fun v hp => ?_⟩
  · have hlt : errNotFound < 0 := by simp [errNotFound]
    simp only [fdtDelprop, h.getProperty_none hn ho hp, if_pos hlt]
  · obtain ⟨pre, pad, ps, ss, post, hat, hps, hss, ho', hedit⟩ := h.split hf
    obtain rfl : weight Tok.size pre = o := by simpa [ho] using ho'.symm
    obtain ⟨l₁, l₂, ps₁, nameoff, vpad, ps₂, hl, hl₁, rfl, h₁, hs, h₂⟩ := hps.split hp
    have hnode : At fdt (weight Tok.size pre)
        (.beginNode n'.name pad :: ps₁ ++
          (.prop nameoff v vpad :: (ps₂ ++ (ss ++ (.endNode :: post))))) := by
      simpa using hat.append
    have hat' : At fdt 0 ((pre ++ .beginNode n'.name pad :: ps₁) ++
        ([.prop nameoff v vpad] ++ (ps₂ ++ (ss ++ (.endNode :: post))))) := by
      simpa using hat
    have hget : fdtGetProperty fdt (weight Tok.size pre : Nat) name =
        (weight Tok.size (pre ++ .beginNode n'.name pad :: ps₁) : Nat) := by
      rw [fdtGetProperty_eq_some hnode h₁ hl₁ hs]
      simp only [weight_append, weight_cons]
      omega
    have hlen := @propLen_eq fdt (weight Tok.size (pre ++ .beginNode n'.name pad :: ps₁)) _ _ _ _
      (by simpa using hat'.append)
    obtain ⟨free', hsplice, hfree⟩ := splice_remove hat'
    have hmid : weight Tok.size [Tok.prop nameoff v vpad] = 12 + align4 v.length := by
      simp [Tok.size]
    have hdel : fdtDelprop fdt (weight Tok.size pre : Nat) name =
        (0, ⟨encode ((pre ++ .beginNode n'.name pad :: ps₁) ++ (ps₂ ++ (ss ++ (.endNode :: post)))),
          fdt.dtStrings, free'⟩) := by
      have hneg : ¬((weight Tok.size (pre ++ .beginNode n'.name pad :: ps₁) : Nat) : Int) < 0 := by omega
      have hcast : (12 + fdtTagAlign v.length : Int) = ((12 + align4 v.length : Nat) : Int) := by
        rw [fdtTagAlign_natCast]
        omega
      simp only [fdtDelprop, hget, if_neg hneg, hlen, hcast]
      rw [← hmid, hsplice]
    rw [hdel]
    obtain ⟨us, henc, hus⟩ := hedit (fun n s => (n.delprop name, s)) []
      (.beginNode n'.name pad :: (ps₁ ++ ps₂)) ss ⟨pad, _, rfl, by
        have herase : (n'.delprop name).props = l₁ ++ l₂ := by
          have hnone : ∀ p ∈ l₁, ¬(p.1 == name) = true := fun p hp e => by
            have hmem : (p.1, p.2) ∈ l₁ := hp
            have := List.lookup_eq_none_iff.mp hl₁ p hp
            simp only [beq_iff_eq] at e
            simp [e] at this
          rw [DtNode.delprop, hl]
          simp only
          rw [List.eraseP_append_right _ hnone, List.eraseP_cons_of_pos (by simp)]
        rw [List.append_nil]
        simp only [herase]
        exact h₁.append h₂⟩ (by simpa using hss)
    rw [List.append_nil] at henc
    have hwf : ∀ t ∈ (pre ++ .beginNode n'.name pad :: ps₁) ++ (ps₂ ++ (ss ++ (.endNode :: post))),
        t.Wf := fun t ht => by
      refine hat'.wf t ?_
      rcases List.mem_append.mp ht with ht | ht
      · exact List.mem_append_left _ ht
      · exact List.mem_append_right _ (List.mem_append_right _ ht)
    have hold := hat'.length_eq
    have hnew := length_encode hwf
    simp only [weight_append, hmid, Nat.zero_add] at hold hnew hfree
    refine ⟨rfl, ?_, rfl, hfree⟩
    refine h.of_tokens rfl hwf (show us ++ [.fend] = _ by rw [hus]; simp) henc ?_
      (h.rooted.update _ _) ?_
    · exact (ids_modify id (DtNode.delprop name) T) ▸ h.nodup
    · simp only [hnew]
      omega

theorem At.name_split {pre post : List Tok} {name pad : Bytes}
    (h : At fdt 0 (pre ++ .beginNode name pad :: post)) :
    fdt.dtStruct = (encode pre ++ be32 FdtTag.beginNode.code) ++ ((name ++ 0 :: pad) ++ encode post) ∧
      ((encode pre ++ be32 FdtTag.beginNode.code).length : Int) = (weight Tok.size pre : Nat) + 4 ∧
      (name ++ 0 :: pad).length = align4 (name.length + 1) := by
  have hpad : pad.length = pad4 (name.length + 1) := (h.wf (.beginNode name pad) (by simp)).2
  have hadd := add_pad4 (name.length + 1)
  refine ⟨?_, ?_, ?_⟩
  · have := h.drop
    simpa [Tok.bytes] using this
  · simp only [List.length_append, length_encode fun t ht => h.wf t (List.mem_append_left _ ht),
      length_be32]
    omega
  · simp only [List.length_append, List.length_cons, hpad]
    omega

/-- A node gets another name; its padding keeps what stood there. -/
theorem Repr.setName {id o : Nat} {n : DtNode} (h : Repr fdt T) (hn : T.get? id = some n)
    (ho : DeviceTree.offset T id = some o) {name : Bytes} (hz : 0 ∉ name) :
    Edited fdt T (T.modify id (DtNode.setName name))
      (align4 (name.length + 1) - align4 (n.name.length + 1)) 0 (fdtSetName fdt o name) := by
  have hsmall := h.small
  have hget := h.getName hn ho
  obtain ⟨⟨n', sub⟩, hf, rfl⟩ := Option.map_eq_some_iff.mp hn
  obtain ⟨pre, pad, ps, ss, post, hat, hps, hss, ho', hedit⟩ := h.split hf
  obtain rfl : weight Tok.size pre = o := by simpa [ho] using ho'.symm
  have hat' : At fdt 0 (pre ++ .beginNode n'.name pad :: (ps ++ (ss ++ (.endNode :: post)))) := by
    simpa using hat
  have hpre := length_encode fun t ht => hat'.wf t (List.mem_append_left _ ht)
  obtain ⟨hstruct, hA, hM⟩ := hat'.name_split
  have hold : fdtTagAlign ((n'.name.length : Int) + 1) = ((n'.name ++ 0 :: pad).length : Nat) := by
    rw [hM, ← fdtTagAlign_natCast]
    rfl
  have hnew : fdtTagAlign ((name.length : Int) + 1) = (align4 (name.length + 1) : Nat) := by
    rw [← fdtTagAlign_natCast]
    rfl
  have hle := le_align4 (name.length + 1)
  simp only [fdtSetName, hget, hold, hnew, ← hA]
  by_cases hroom : align4 (name.length + 1) ≤ (n'.name ++ 0 :: pad).length + fdt.free.length
  · obtain ⟨M', free', hsplice, hlen, -, hfree⟩ := fdtSpliceStruct_ok hstruct _ hroom
    have hwrite : (⟨(encode pre ++ be32 FdtTag.beginNode.code) ++
        (M' ++ encode (ps ++ (ss ++ (.endNode :: post)))), fdt.dtStrings, free'⟩ : Fdt).write
          ((encode pre ++ be32 FdtTag.beginNode.code).length : Nat) (name ++ [0]) =
        ⟨encode (pre ++ .beginNode name (M'.drop (name.length + 1)) ::
          (ps ++ (ss ++ (.endNode :: post)))), fdt.dtStrings, free'⟩ := by
      have hsplit : M' = M'.take (name.length + 1) ++ M'.drop (name.length + 1) :=
        (List.take_append_drop _ _).symm
      rw [Fdt.write_eq (A := encode pre ++ be32 FdtTag.beginNode.code) (M := M'.take (name.length + 1))
        (B := M'.drop (name.length + 1) ++ encode (ps ++ (ss ++ (.endNode :: post)))) ?_ ?_ rfl]
      · simp [Tok.bytes]
      · conv_lhs => rw [hsplit]
        simp only [List.append_assoc]
      · simp only [List.length_append, List.length_singleton, List.length_take]
        omega
    rw [hsplice]
    simp only [ne_eq, not_true_eq_false, if_false, hwrite]
    obtain ⟨us, henc, hus⟩ := hedit (fun n s => (n.setName name, s)) []
      (.beginNode name (M'.drop (name.length + 1)) :: ps) ss
      ⟨_, ps, rfl, by rw [List.append_nil]; exact hps⟩ (by simpa using hss)
    rw [List.append_nil] at henc
    have hwf : ∀ t ∈ pre ++ .beginNode name (M'.drop (name.length + 1)) ::
        (ps ++ (ss ++ (.endNode :: post))), t.Wf := by
      intro t ht
      have holdwf := hat'.wf t
      rw [List.mem_append, List.mem_cons] at ht holdwf
      rcases ht with ht | rfl | ht
      · exact holdwf (Or.inl ht)
      · refine ⟨hz, ?_⟩
        rw [List.length_drop, hlen]
        rfl
      · exact holdwf (Or.inr (Or.inr ht))
    have hlenold := hat'.length_eq
    have hlennew := length_encode hwf
    simp only [weight_append, weight_cons, Tok.size, Nat.zero_add] at hlenold hlennew
    refine Or.inl ⟨rfl, ?_, ?_⟩
    · refine h.of_tokens rfl hwf (show us ++ [.fend] = _ by rw [hus]; simp) henc ?_
        (h.rooted.update _ _) ?_
      · exact (ids_modify id (DtNode.setName name) T) ▸ h.nodup
      · simp only [hlennew]
        omega
    · simp only
      omega
  · have hns := fdtSpliceStruct_noSpace hstruct (align4 (name.length + 1)) (by omega)
    rw [hns]
    simp only [errNoSpace, ne_eq, Int.reduceNeg, reduceCtorEq, not_false_eq_true, if_true]
    exact Or.inr ⟨rfl, h, by omega⟩

theorem Repr.setpropInplace_ok {id o : Nat} {n : DtNode} (h : Repr fdt T) (hn : T.get? id = some n)
    (ho : DeviceTree.offset T id = some o) {name v : Bytes} (hp : n.getprop name = some v) {val : Bytes}
    (heq : v.length = val.length) :
    (fdtSetpropInplace fdt o name val).1 = 0 ∧
      Repr (fdtSetpropInplace fdt o name val).2 (T.modify id (DtNode.setprop name val)) ∧
      (fdtSetpropInplace fdt o name val).2.free = fdt.free := by
  have hsmall := h.small
  obtain ⟨⟨n', sub⟩, hf, rfl⟩ := Option.map_eq_some_iff.mp hn
  obtain ⟨pre, pad, ps, ss, post, hat, hps, hss, ho', hedit⟩ := h.split hf
  obtain rfl : weight Tok.size pre = o := by simpa [ho] using ho'.symm
  obtain ⟨l₁, l₂, ps₁, nameoff, vpad, ps₂, hl, hl₁, rfl, h₁, hs, h₂⟩ := hps.split hp
  have hnode : At fdt (weight Tok.size pre)
      (.beginNode n'.name pad :: ps₁ ++
        (.prop nameoff v vpad :: (ps₂ ++ (ss ++ (.endNode :: post))))) := by
    simpa using hat.append
  have hat' : At fdt 0 ((pre ++ .beginNode n'.name pad :: ps₁) ++
      .prop nameoff v vpad :: (ps₂ ++ (ss ++ (.endNode :: post)))) := by
    simpa using hat
  have hget : fdtGetProperty fdt (weight Tok.size pre : Nat) name =
      (weight Tok.size (pre ++ .beginNode n'.name pad :: ps₁) : Nat) := by
    rw [fdtGetProperty_eq_some hnode h₁ hl₁ hs]
    simp only [weight_append, weight_cons]
    omega
  have hlen := @propLen_eq fdt (weight Tok.size (pre ++ .beginNode n'.name pad :: ps₁)) _ _ _ _
    (by simpa using hat'.append)
  obtain ⟨hstruct, hA, hM⟩ := hat'.value_split
  have hwrite : fdt.write ((weight Tok.size (pre ++ .beginNode n'.name pad :: ps₁) : Nat) + 12) val =
      ⟨encode ((pre ++ .beginNode n'.name pad :: ps₁) ++
        .prop nameoff val vpad :: (ps₂ ++ (ss ++ (.endNode :: post)))), fdt.dtStrings, fdt.free⟩ := by
    rw [Fdt.write_eq (M := v) (B := vpad ++ encode (ps₂ ++ (ss ++ (.endNode :: post))))
      (by rw [hstruct, List.append_assoc v]) heq.symm hA.symm, heq]
    simp [Tok.bytes]
  have hneg : ¬((weight Tok.size (pre ++ .beginNode n'.name pad :: ps₁) : Nat) : Int) < 0 := by omega
  have hsame : ¬((v.length : Int) ≠ val.length) := by omega
  unfold fdtSetpropInplace fdtGetprop
  simp only [hget, if_neg hneg, hlen, if_neg hsame, hwrite]
  obtain ⟨us, henc, hus⟩ := hedit (fun n s => (n.setprop name val, s)) []
    (.beginNode n'.name pad :: (ps₁ ++ .prop nameoff val vpad :: ps₂)) ss ⟨pad, _, rfl, by
      rw [List.append_nil]
      simp only [DtNode.setprop, hl, Assoc.upsert_append hl₁]
      exact h₁.append (.cons hs h₂)⟩ (by simpa using hss)
  rw [List.append_nil] at henc
  have hwf : ∀ t ∈ (pre ++ .beginNode n'.name pad :: ps₁) ++
      .prop nameoff val vpad :: (ps₂ ++ (ss ++ (.endNode :: post))), t.Wf := by
    intro t ht
    have hold := hat'.wf t
    rw [List.mem_append, List.mem_cons] at ht hold
    rcases ht with ht | rfl | ht
    · exact hold (Or.inl ht)
    · have hprop := hat'.wf (.prop nameoff v vpad) (by simp)
      exact ⟨hprop.1, by rw [hprop.2, heq]⟩
    · exact hold (Or.inr (Or.inr ht))
  have hold := hat'.length_eq
  have hnew := length_encode hwf
  simp only [weight_append, weight_cons, Tok.size, heq, Nat.zero_add] at hold hnew
  refine ⟨trivial, h.of_tokens rfl hwf (show us ++ [.fend] = _ by rw [hus]; simp) henc ?_
    (h.rooted.update _ _) ?_, trivial⟩
  · exact (ids_modify id (DtNode.setprop name val) T) ▸ h.nodup
  · simp only [hnew]
    omega

theorem Repr.setpropInplace {id o : Nat} {n : DtNode} (h : Repr fdt T) (hn : T.get? id = some n)
    (ho : DeviceTree.offset T id = some o) (name val : Bytes) :
    (n.getprop name = none → fdtSetpropInplace fdt o name val = (errNotFound, fdt)) ∧
      ∀ v, n.getprop name = some v →
        (v.length ≠ val.length → fdtSetpropInplace fdt o name val = (errNoSpace, fdt)) ∧
        (v.length = val.length → (fdtSetpropInplace fdt o name val).1 = 0 ∧
          Repr (fdtSetpropInplace fdt o name val).2 (T.modify id (DtNode.setprop name val)) ∧
          (fdtSetpropInplace fdt o name val).2.free = fdt.free) := by
  refine ⟨fun hp => ?_, fun v hp => ⟨fun hne => ?_, h.setpropInplace_ok hn ho hp⟩⟩
  · unfold fdtSetpropInplace
    simp only [h.getprop_none hn ho hp]
  · obtain ⟨p, hget, -⟩ := h.getprop_some hn ho hp
    have hne' : (v.length : Int) ≠ val.length := by omega
    unfold fdtSetpropInplace
    simp only [hget, if_pos hne']

end Babelfish.Libfdt
