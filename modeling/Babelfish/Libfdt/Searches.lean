import Babelfish.Libfdt.Ancestors

/-! The children of a node one after the other, by `fdt_first_subnode` and `fdt_next_subnode` of `fdt.c`,
and the searches of `fdt_ro.c` that go over all nodes. -/

namespace Babelfish.Libfdt

open Bytes Forest

abbrev errBadPhandle : Int := -6

def fdtFirstSubnode (fdt : Fdt) (offset : Int) : Int :=
  let r := fdtNextNode fdt offset (some 0)
  if r.1 < 0 ∨ r.2 ≠ some 1 then errNotFound else r.1

def nextSubnodeLoop (fdt : Fdt) (fuel : Nat) (p : Pos) : Int :=
  forLoop (step fdt) (fun p => decide (p.1 < 0 ∨ p.2.getD 0 ≠ 1))
    (fun p (_ : Unit) => if p.1 < 0 ∨ p.2.getD 0 < 1 then .error errNotFound else .ok ())
    (fun p _ => p.1) errBadStructure fuel p ()

def fdtNextSubnode (fdt : Fdt) (offset : Int) : Int :=
  nextSubnodeLoop fdt (fdtFuel fdt) (fdtNextNode fdt offset (some 1))

/-- What a caller sees that calls `fdt_next_subnode` until it fails. -/
def subnodes (fdt : Fdt) : Nat → Int → List Int
  | 0, _ => []
  | fuel + 1, offset => if offset < 0 then [] else offset :: subnodes fdt fuel (fdtNextSubnode fdt offset)

def findNode (fdt : Fdt) (accept : Int → Bool) (startoffset : Int) : Int :=
  forLoop (step fdt) (fun p => decide (0 ≤ p.1))
    (fun p (_ : Unit) => if accept p.1 then .error p.1 else .ok ()) (fun p _ => p.1) errBadStructure
    (fdtFuel fdt) (fdtNextNode fdt startoffset none) ()

def fdtNodeOffsetByPhandle (fdt : Fdt) (phandle : UInt32) : Int :=
  if phandle = 0 ∨ phandle = 4294967295 then errBadPhandle
  else findNode fdt (fun offset => fdtGetPhandle fdt offset == phandle.toNat) (-1)

variable {fdt : Fdt} {T : DeviceTree}

def childAt (p : Pos) : Int := if p.1 < 0 ∨ p.2 ≠ some 1 then errNotFound else p.1

def rootOffsets : DeviceTree → Nat → List Nat
  | .nil, _ => []
  | .node _ n sub next, b =>
    b :: rootOffsets next (b + (n.openSize + (sub.size DtNode.openSize 4 + 4)))

theorem nextSubnodeLoop_deep {p q : Pos} {ps : List Pos} (h : Trace (step fdt) p ps q)
    (hdeep : ∀ r ∈ ps, 0 ≤ r.1 ∧ 1 < r.2.getD 0) {fuel : Nat} (hfuel : ps.length < fuel)
    (hq : q.2 = some 1 ∨ q.1 < 0 ∨ q.2.getD 0 < 1) : nextSubnodeLoop fdt fuel p = childAt q := by
  have hok : ps.foldlM (turn (fun p : Pos => decide (p.1 < 0 ∨ p.2.getD 0 ≠ 1))
      (fun p (_ : Unit) => if p.1 < 0 ∨ p.2.getD 0 < 1 then Except.error errNotFound else .ok ())
      (fun p _ => p.1)) () = .ok () := by
    refine foldlM_turn_ok fun r hr => ?_
    obtain ⟨hpos, hlt⟩ := hdeep r hr
    have h₁ : r.1 < 0 ∨ r.2.getD 0 ≠ 1 := by omega
    have h₂ : ¬(r.1 < 0 ∨ r.2.getD 0 < 1) := by omega
    simp only [h₁, decide_true, if_neg h₂, and_self]
  obtain ⟨f, hf⟩ : ∃ f, fuel - ps.length = f + 1 := ⟨fuel - ps.length - 1, by omega⟩
  rw [nextSubnodeLoop, Babelfish.forLoop_eq h (by omega), hok]
  simp only [hf, forLoop, childAt]
  by_cases hneg : q.1 < 0
  · simp [hneg]
  · rcases hq with hone | hneg' | hlt
    · simp [hone, hneg]
    · exact absurd hneg' hneg
    · have hne : q.2.getD 0 ≠ 1 := by omega
      have hne' : q.2 ≠ some 1 := fun e => by simp [e] at hlt
      simp [hneg, hne, hne', hlt]

theorem subnodes_level {strings : Bytes} {F : DeviceTree} {ts : List Tok} (h : TreeEnc strings F ts)
    {us : List Tok} {o : Nat} (hat : At fdt o (ts ++ (.endNode :: us))) {fuel : Nat}
    (hfuel : (rootOffsets F o).length < fuel) :
    subnodes fdt fuel (childAt (nextAt (ts ++ (.endNode :: us)) o (some 0))) =
      (rootOffsets F o).map (↑) := by
  induction h generalizing us o fuel with
  | nil =>
    obtain ⟨f, rfl⟩ : ∃ f, fuel = f + 1 := ⟨fuel - 1, by omega⟩
    have hend : childAt (nextAt (.endNode :: us) o (some 0)) = errNotFound := by
      simp [nextAt, childAt]
    simp [hend, subnodes, rootOffsets, errNotFound]
  | @node i n sub next tn ss ns ha hs hns _ ihn =>
    obtain ⟨f, rfl⟩ : ∃ f, fuel = f + 1 := ⟨fuel - 1, by omega⟩
    have hw := ha.weight
    obtain ⟨pad, ps, rfl, hps⟩ := ha
    rw [weight_cons] at hw
    have hnode : At fdt o (.beginNode n.name pad ::
        (ps ++ (ss ++ (.endNode :: (ns ++ (.endNode :: us)))))) := by
      simpa using hat
    have hsub : At fdt (o + n.openSize) (ss ++ (.endNode :: (ns ++ (.endNode :: us)))) := by
      rw [← hw, ← Nat.add_assoc]
      exact hnode.tail.append
    have hnext : At fdt (o + (n.openSize + (sub.size DtNode.openSize 4 + 4)))
        (ns ++ (.endNode :: us)) := by
      have := hsub.append.tail
      rw [TreeEnc.weight hs] at this
      convert this using 1
      simp only [Tok.size]
      omega
    have hstart : childAt (nextAt ((.beginNode n.name pad :: ps) ++ (ss ++ ([.endNode] ++ ns)) ++
        (.endNode :: us)) o (some 0)) = o := by
      have hpos : ¬((o : Int) < 0) := by omega
      simp [nextAt, childAt, hpos]
    have hstep : fdtNextNode fdt o (some 1) =
        nextAt (ss ++ (.endNode :: (ns ++ (.endNode :: us)))) (o + n.openSize) (some 1) := by
      have := step_beginNode hnode (some 1)
      rwa [nextAt_props hps, Nat.add_assoc, hw] at this
    have hdeep := trace_visits hs hsub (d := 1) (some 0) (by simp)
    have hback : nextAt (.endNode :: (ns ++ (.endNode :: us))) (o + n.openSize + weight Tok.size ss)
        (some (0 + ((1 : Nat) : Int))) =
        nextAt (ns ++ (.endNode :: us)) (o + (n.openSize + (sub.size DtNode.openSize 4 + 4))) (some 0) := by
      rw [TreeEnc.weight hs]
      simp only [nextAt]
      rw [if_neg (by omega)]
      congr 1
      omega
    simp only [Option.map_some] at hdeep
    rw [hback] at hdeep
    have hlevel : (nextAt (ns ++ (.endNode :: us))
        (o + (n.openSize + (sub.size DtNode.openSize 4 + 4))) (some 0)).2 = some 1 ∨
        (nextAt (ns ++ (.endNode :: us))
          (o + (n.openSize + (sub.size DtNode.openSize 4 + 4))) (some 0)).2.getD 0 < 1 := by
      cases hns with
      | nil => exact Or.inr (by simp [nextAt])
      | node ha' _ _ =>
        obtain ⟨pad', ps', rfl, -⟩ := ha'
        exact Or.inl (by simp [nextAt])
    have hlen : ((sub.visits DtNode.openSize 4 (o + n.openSize) (1 + 1)).map (posAt (some 0))).length <
        fdtFuel fdt := by
      have h₁ := length_visits_le (c := 4) DtNode.openSize_pos sub (o + n.openSize) (1 + 1)
      have h₂ := hsub.length_eq
      rw [weight_append, TreeEnc.weight hs] at h₂
      rw [List.length_map]
      unfold fdtFuel
      omega
    have hloop : fdtNextSubnode fdt o = childAt (nextAt (ns ++ (.endNode :: us))
        (o + (n.openSize + (sub.size DtNode.openSize 4 + 4))) (some 0)) := by
      rw [fdtNextSubnode, hstep]
      refine nextSubnodeLoop_deep hdeep (fun r hr => ?_) hlen (hlevel.imp_right Or.inr)
      obtain ⟨v, hv, rfl⟩ := List.mem_map.mp hr
      have := (mem_visits_bounds DtNode.openSize_pos hv).2.2
      simp only [posAt, Option.map_some, Option.getD_some]
      omega
    have hneg : ¬((o : Int) < 0) := by omega
    rw [hstart, subnodes, if_neg hneg, hloop, ihn hnext (by simpa [rootOffsets] using hfuel)]
    rfl

theorem map_offset_roots {F : DeviceTree} (hn : F.ids.Nodup) (b : Nat) :
    F.roots.map (fun r => (Forest.offset DtNode.openSize 4 r.1 F).map (b + ·)) =
      (rootOffsets F b).map some := by
  induction F generalizing b with
  | nil => rfl
  | node i n sub next _ ihn =>
    obtain ⟨his, hin, hns, hnn, hd⟩ := nodup_ids_node.mp hn
    have hrest : next.roots.map (fun r =>
        (Forest.offset DtNode.openSize 4 r.1 (.node i n sub next)).map (b + ·)) =
        next.roots.map (fun r => (Forest.offset DtNode.openSize 4 r.1 next).map
          (b + (n.openSize + (sub.size DtNode.openSize 4 + 4)) + ·)) := by
      refine List.map_congr_left fun r hr => ?_
      have hmem : r.1 ∈ next.ids := mem_of_get? (get?_of_mem_roots hnn (b := r.2) hr)
      have hi : i ≠ r.1 := fun e => hin (e ▸ hmem)
      have hs : r.1 ∉ sub.ids := fun hx => hd _ hx hmem
      obtain ⟨o, ho⟩ := offset_isSome DtNode.openSize 4 hmem
      simp [Forest.offset, hi, offset_eq_none hs, ho, Nat.add_assoc]
    rw [roots, List.map_cons, hrest, ihn hnn, rootOffsets, List.map_cons]
    simp [Forest.offset]

/-- The children of a node, one after the other. -/
theorem Repr.subnodes_kids (h : Repr fdt T) {id o : Nat} (ho : DeviceTree.offset T id = some o) :
    ∃ os : List Nat, (T.kids id).map (DeviceTree.offset T) = os.map some ∧
      Libfdt.subnodes fdt (fdtFuel fdt) (fdtFirstSubnode fdt o) = os.map (↑) := by
  obtain ⟨⟨n, sub⟩, hf⟩ := find?_isSome (mem_of_offset ho)
  obtain ⟨pre, pad, ps, ss, post, hat, hps, hss, ho', -⟩ := h.split hf
  obtain rfl : weight Tok.size pre = o := by simpa [ho] using ho'.symm
  have hw := NodeEnc.weight (show NodeEnc fdt.dtStrings n (.beginNode n.name pad :: ps) from
    ⟨pad, ps, rfl, hps⟩)
  rw [weight_cons] at hw
  have hnode : At fdt (weight Tok.size pre)
      (.beginNode n.name pad :: (ps ++ (ss ++ (.endNode :: post)))) := by
    simpa using hat.append
  have hsub : At fdt (weight Tok.size pre + n.openSize) (ss ++ (.endNode :: post)) := by
    rw [← hw, ← Nat.add_assoc]
    exact hnode.tail.append
  have hfirst : fdtFirstSubnode fdt (weight Tok.size pre : Nat) =
      childAt (nextAt (ss ++ (.endNode :: post)) (weight Tok.size pre + n.openSize) (some 0)) := by
    have := step_beginNode hnode (some 0)
    rw [nextAt_props hps, Nat.add_assoc, hw] at this
    rw [← this]
    rfl
  refine ⟨rootOffsets sub (weight Tok.size pre + n.openSize), ?_, ?_⟩
  · rw [← map_offset_roots (nodup_of_find? h.nodup hf), kids, hf, List.map_map]
    refine List.map_congr_left fun r hr => ?_
    have hmem : r.1 ∈ sub.ids :=
      mem_of_get? (get?_of_mem_roots (nodup_of_find? h.nodup hf) (b := r.2) hr)
    obtain ⟨o', ho''⟩ := offset_isSome DtNode.openSize 4 hmem
    have := offset_child h.nodup hf ho ho''
    simp [DeviceTree.offset, this, ho'', Nat.add_assoc]
  · rw [hfirst]
    refine subnodes_level hss hsub ?_
    have hlen : ∀ (G : DeviceTree) (b : Nat),
        (rootOffsets G b).length ≤ G.size DtNode.openSize 4 := by
      intro G
      induction G with
      | nil => simp [rootOffsets]
      | node k m s x _ ihx =>
        intro b
        have := ihx (b + (m.openSize + (s.size DtNode.openSize 4 + 4)))
        simp only [rootOffsets, List.length_cons, size]
        omega
    have h₁ := hlen sub (weight Tok.size pre + n.openSize)
    have h₂ := hsub.length_eq
    rw [weight_append, TreeEnc.weight hss] at h₂
    unfold fdtFuel
    omega

theorem Repr.subnodes_kids_soc : ∃ os : List Nat,
    (socTree.kids 1).map (DeviceTree.offset socTree) = os.map some ∧
      Libfdt.subnodes (socTree.blob 64) (fdtFuel (socTree.blob 64))
        (fdtFirstSubnode (socTree.blob 64) (8 : Nat)) = os.map (↑) :=
  socTree_repr.subnodes_kids (by decide)

def DeviceTree.behind (T : DeviceTree) (id : Nat) : List Nat := (T.ids.dropWhile (· ≠ id)).tail

def DeviceTree.firstOf (T : DeviceTree) (accept : DtNode → Bool) (ids : List Nat) : Int :=
  match (ids.find? fun i => (T.get? i).any accept).bind T.offset with
  | some o => o
  | none => errNotFound

theorem Repr.trace_none (h : Repr fdt T) :
    Trace (step fdt) (fdtNextNode fdt (-1) none)
      ((T.visits DtNode.openSize 4 0 1).map (posAt none)) (errNotFound, none) := by
  obtain ⟨ts, hat, henc⟩ := h.enc
  have htrace := trace_visits henc hat (d := 0) none (by simp)
  have hfirst : fdtNextNode fdt (-1) none = nextAt (ts ++ [.fend]) 0 none := by
    have hneg : ¬((0 : Int) ≤ -1) := by omega
    rw [fdtNextNode, if_neg hneg]
    exact nextNodeLoop_eq_nextAt hat hat.length_lt_fuel none
  rw [hfirst]
  simpa [nextAt] using htrace

theorem forLoop_search {accept : Int → Bool} {p : Pos} {vs : List (Visit DtNode)}
    (h : Trace (step fdt) p (vs.map (posAt none)) (errNotFound, none)) {fuel : Nat}
    (hfuel : vs.length < fuel) :
    forLoop (step fdt) (fun p => decide (0 ≤ p.1))
        (fun p (_ : Unit) => if accept p.1 then .error p.1 else .ok ()) (fun p _ => p.1) errBadStructure
        fuel p () =
      match vs.find? fun v => accept v.offset with
      | some v => (v.offset : Int)
      | none => errNotFound := by
  have hfold : (vs.map (posAt none)).foldlM (turn (fun p : Pos => decide (0 ≤ p.1))
      (fun p (_ : Unit) => if accept p.1 then Except.error p.1 else .ok ()) (fun p _ => p.1)) () =
      match vs.find? fun v => accept v.offset with
      | some v => .error (v.offset : Int)
      | none => .ok () := by
    clear h hfuel
    induction vs with
    | nil => rfl
    | cons v vs ih =>
      have hpos : (0 : Int) ≤ v.offset := by omega
      simp only [List.map_cons, List.foldlM_cons, turn, posAt, hpos, decide_true, if_true,
        List.find?_cons]
      cases hv : accept v.offset with
      | true => rfl
      | false => exact ih
  obtain ⟨f, hf⟩ : ∃ f, fuel - vs.length = f + 1 := ⟨fuel - vs.length - 1, by omega⟩
  rw [Babelfish.forLoop_eq h (by simp only [List.length_map]; omega), hfold, List.length_map, hf]
  cases vs.find? fun v => accept v.offset with
  | some v => rfl
  | none => simp [forLoop, errNotFound]

section Search

variable (h : Repr fdt T) {accept : Int → Bool} {q : DtNode → Bool}
  (hq : ∀ id n o, T.get? id = some n → DeviceTree.offset T id = some o → accept (o : Int) = q n)

include h hq

theorem Repr.find?_visits {vs : List (Visit DtNode)} (hvs : ∀ v ∈ vs, v ∈ T.visits DtNode.openSize 4 0 1) :
    (match vs.find? fun v => accept v.offset with
      | some v => (v.offset : Int)
      | none => errNotFound) = T.firstOf q (vs.map Visit.id) := by
  induction vs with
  | nil => rfl
  | cons v vs ih =>
    obtain ⟨hget, o, ho, hb⟩ := mem_visits h.nodup (hvs v List.mem_cons_self)
    have ho' : DeviceTree.offset T v.id = some v.offset := by
      rw [Nat.zero_add] at hb
      rw [hb]
      exact ho
    have hacc := hq _ _ _ hget ho'
    have hrest := ih fun w hw => hvs w (List.mem_cons_of_mem _ hw)
    unfold DeviceTree.firstOf at hrest ⊢
    rw [List.find?_cons, List.map_cons, List.find?_cons, hget, Option.any_some, ← hacc]
    cases accept v.offset with
    | true => simp [ho']
    | false => exact hrest

theorem Repr.findNode_all : findNode fdt accept (-1) = T.firstOf q T.ids := by
  have hlen := h.length_visits
  have hids : ∀ d : Nat, (T.visits DtNode.openSize 4 0 d).length = T.ids.length := fun d => by
    rw [← @map_id_visits _ DtNode.openSize 4 T 0 d, List.length_map]
  rw [findNode, forLoop_search h.trace_none (by rw [hids 1]; rw [hids 0] at hlen; omega),
    h.find?_visits hq fun v hv => hv, map_id_visits]

end Search

theorem Repr.nodeOffsetByPhandle (h : Repr fdt T) {phandle : UInt32}
    (hok : phandle ≠ 0 ∧ phandle ≠ 4294967295) :
    fdtNodeOffsetByPhandle fdt phandle = T.firstOf (fun n => n.phandle == phandle.toNat) T.ids := by
  rw [fdtNodeOffsetByPhandle, if_neg (by simpa using hok)]
  exact h.findNode_all fun _ _ _ hn ho => by rw [h.getPhandle hn ho]

end Babelfish.Libfdt
