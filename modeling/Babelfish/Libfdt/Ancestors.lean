import Babelfish.Libfdt.Flatten
import Babelfish.Libfdt.Walk

/-! `fdt_supernode_atdepth_offset`, `fdt_node_depth` and `fdt_parent_offset` of `fdt_ro.c`: the nodes
that a node lies below. -/

namespace Babelfish.Libfdt

open Bytes Forest

def walkError (offset : Int) : Int :=
  if offset = errNotFound ∨ 0 ≤ offset then errBadOffset
  else if offset = errBadOffset then errBadStructure
  else offset

def supernodeBody (nodeoffset supernodedepth : Int) (p : Pos) (supernodeoffset : Int) :
    Except (Int × Option Int) Int :=
  let depth := p.2.getD 0
  let supernodeoffset := if depth = supernodedepth then p.1 else supernodeoffset
  if p.1 = nodeoffset then
    .error (if depth < supernodedepth then errNotFound else supernodeoffset, some depth)
  else .ok supernodeoffset

/-- The result, and `*nodedepth` where it is set. -/
def fdtSupernodeAtdepthOffset (fdt : Fdt) (nodeoffset supernodedepth : Int) : Int × Option Int :=
  if supernodedepth < 0 then (errNotFound, none)
  else
    forLoop (step fdt) (fun p => decide (0 ≤ p.1 ∧ p.1 ≤ nodeoffset))
      (supernodeBody nodeoffset supernodedepth) (fun p _ => (walkError p.1, none))
      (errBadStructure, none) (fdtFuel fdt) (0, some 0) errInternal

def fdtNodeDepth (fdt : Fdt) (nodeoffset : Int) : Int :=
  let r := fdtSupernodeAtdepthOffset fdt nodeoffset 0
  if r.1 ≠ 0 then
    if r.1 < 0 then r.1 else errInternal
  else r.2.getD 0

def fdtParentOffset (fdt : Fdt) (nodeoffset : Int) : Int :=
  let nodedepth := fdtNodeDepth fdt nodeoffset
  if nodedepth < 0 then nodedepth
  else (fdtSupernodeAtdepthOffset fdt nodeoffset (nodedepth - 1)).1

def DeviceTree.lineage (T : DeviceTree) (id : Nat) : List (Visit DtNode) :=
  Forest.lineage DtNode.openSize 4 id T 0 0

def DeviceTree.end (T : DeviceTree) : Nat := T.size DtNode.openSize 4

variable {fdt : Fdt} {T : DeviceTree}

section Loops

variable {σ ρ : Type}

theorem Repr.forLoop_eq (h : Repr fdt T) (guard : Pos → Bool) (body : Pos → σ → Except ρ σ)
    (after : Pos → σ → ρ) (stuck : ρ) (s : σ) : ∃ fuel,
    forLoop (step fdt) guard body after stuck (fdtFuel fdt) (0, some 0) s =
      match (T.visits DtNode.openSize 4 0 0).foldlM
        (fun s v => turn guard body after s (posAt (some 0) v)) s with
      | .error r => r
      | .ok s' =>
        forLoop (step fdt) guard body after stuck (fuel + 2) ((T.end : Int), some (-1)) s' := by
  have hlen := h.length_visits
  refine ⟨fdtFuel fdt - (T.visits DtNode.openSize 4 0 0).length - 2, ?_⟩
  have hfuel : fdtFuel fdt - (T.visits DtNode.openSize 4 0 0).length =
      fdtFuel fdt - (T.visits DtNode.openSize 4 0 0).length - 2 + 2 := by omega
  rw [Babelfish.forLoop_eq h.trace (by simp only [List.length_map]; omega), List.foldlM_map,
    List.length_map, ← hfuel]
  rfl

theorem Repr.forLoop_end (h : Repr fdt T) {body : Pos → σ → Except ρ σ} {after : Pos → σ → ρ} {stuck : ρ}
    (x : Int) (fuel : Nat) (s : σ) :
    forLoop (step fdt) (fun p => decide (0 ≤ p.1 ∧ p.1 ≤ x)) body after stuck (fuel + 2)
        ((T.end : Int), some (-1)) s =
      if x < T.end then after ((T.end : Int), some (-1)) s
      else
        match body ((T.end : Int), some (-1)) s with
        | .error r => r
        | .ok s' => after (errBadOffset, some (-1)) s' := by
  have hstep : step fdt ((T.end : Int), some (-1)) = (errBadOffset, some (-1)) :=
    step_fend h.fend_at _
  by_cases hx : x < T.end
  · have hguard : decide (0 ≤ (T.end : Int) ∧ (T.end : Int) ≤ x) = false := decide_eq_false (by omega)
    rw [if_pos hx, forLoop, hguard]
    rfl
  · have hguard : decide (0 ≤ (T.end : Int) ∧ (T.end : Int) ≤ x) = true := decide_eq_true (by omega)
    have hbad : decide (0 ≤ errBadOffset ∧ errBadOffset ≤ x) = false := by simp [errBadOffset]
    rw [if_neg hx, forLoop, hguard, hstep]
    simp only [if_true, forLoop, hbad]
    rfl

end Loops

/-- The loops that look for a node by its offset: behind the node the walk is stopped. -/
def supernodeUpd (k : Int) (s : Int) (v : Visit DtNode) : Int := if (v.depth : Int) = k then v.offset else s

theorem layered_supernode (k : Nat) :
    Layered (fun d s t => k < d → s = t) (supernodeUpd (k : Int)) where
  refl _ _ _ := rfl
  trans h h' hk := (h hk).trans (h' hk)
  weaken h hk := h (by omega)
  keep v s hk := by rw [supernodeUpd, if_neg (by omega)]
  step {v s t} h hk := by
    unfold supernodeUpd
    by_cases hv : (v.depth : Int) = k
    · rw [if_pos hv, if_pos hv]
    · rw [if_neg hv, if_neg hv]
      exact h (by omega)

theorem foldl_supernode {vs : List (Visit DtNode)} {d k : Nat}
    (hd : ∀ i v, vs[i]? = some v → v.depth = d + i) {v : Visit DtNode} (hk : vs[k]? = some v) (s : Int) :
    vs.foldl (supernodeUpd ((d + k : Nat) : Int)) s = v.offset := by
  have hbelow : ∀ (ws : List (Visit DtNode)) (s : Int), (∀ w ∈ ws, d + k < w.depth) →
      ws.foldl (supernodeUpd ((d + k : Nat) : Int)) s = s := by
    intro ws
    induction ws with
    | nil => simp
    | cons w ws ih =>
      intro s hw
      have hlt := hw w List.mem_cons_self
      rw [List.foldl_cons, supernodeUpd, if_neg (by omega)]
      exact ih s fun u hu => hw u (List.mem_cons_of_mem _ hu)
  obtain ⟨hlt, hget⟩ := List.getElem?_eq_some_iff.mp hk
  have hsplit : vs = vs.take k ++ v :: vs.drop (k + 1) := by
    rw [← hget, List.getElem_cons_drop, List.take_append_drop]
  rw [hsplit, List.foldl_append, List.foldl_cons, supernodeUpd, if_pos (by rw [hd k v hk]),
    hbelow _ _ fun w hw => ?_]
  obtain ⟨i, hi⟩ := List.mem_iff_getElem?.mp hw
  rw [List.getElem?_drop] at hi
  have := hd _ w hi
  omega

theorem Repr.visit (h : Repr fdt T) {id o : Nat} (ho : DeviceTree.offset T id = some o) :
    ∃ v l₁ l₂ vs, v.id = id ∧ v.offset = o ∧ T.visits DtNode.openSize 4 0 0 = l₁ ++ v :: l₂ ∧
      T.upTo DtNode.openSize 4 id 0 0 = l₁ ++ [v] ∧ T.lineage id = vs ++ [v] ∧ v.depth = vs.length ∧
      T.get? id = some v.val := by
  obtain ⟨v, l₁, l₂, vs, rfl, h₁, h₂, h₃⟩ :=
    @upTo_spec _ DtNode.openSize 4 T h.nodup id (mem_of_offset ho) 0 0
  obtain ⟨hget, o', ho', hb⟩ := mem_visits h.nodup
    (show v ∈ T.visits DtNode.openSize 4 0 0 by rw [h₁]; simp)
  refine ⟨v, l₁, l₂, vs, rfl, ?_, h₁, h₂, h₃, ?_, hget⟩
  · have : some o = some o' := ho.symm.trans ho'
    have := Option.some.inj this
    omega
  · have := @lineage_depth _ DtNode.openSize 4 T v.id 0 0 vs.length v (by rw [h₃]; simp)
    omega

theorem Repr.pairwise_visits (h : Repr fdt T) :
    (T.visits DtNode.openSize 4 0 0).Pairwise fun v w => v.offset < w.offset := by
  have := h.nodup
  exact Forest.pairwise_visits DtNode.openSize_pos T 0 0

theorem Repr.visit_lt (h : Repr fdt T) {v : Visit DtNode} (hv : v ∈ T.visits DtNode.openSize 4 0 0) :
    v.offset < T.end := by
  have := h.nodup
  have hb := mem_visits_bounds (c := 4) DtNode.openSize_pos hv
  unfold DeviceTree.end
  omega

theorem Repr.seek_found {σ ρ : Type} (h : Repr fdt T) {id o : Nat}
    (ho : DeviceTree.offset T id = some o) (upd : σ → Visit DtNode → σ) (found : σ → Visit DtNode → ρ)
    (missed : ρ) (s : σ) : ∃ v vs us, v.id = id ∧ v.offset = o ∧ T.lineage id = vs ++ [v] ∧
      v.depth = vs.length ∧ T.upTo DtNode.openSize 4 id 0 0 = us ++ [v] ∧
      v ∈ T.visits DtNode.openSize 4 0 0 ∧
      (T.visits DtNode.openSize 4 0 0).foldlM (seek Visit.offset upd found missed o) s =
        .error (found ((T.upTo DtNode.openSize 4 id 0 0).foldl upd s) v) := by
  obtain ⟨v, l₁, l₂, vs, hv, rfl, h₁, h₂, h₃, h₄, -⟩ := h.visit ho
  refine ⟨v, vs, l₁, hv, rfl, h₃, h₄, h₂, by rw [h₁]; simp, ?_⟩
  have hs := h.pairwise_visits
  rw [h₁] at hs ⊢
  rw [foldlM_seek_found hs, h₂]

theorem Repr.seek_missed {σ ρ : Type} (h : Repr fdt T) {x : Int}
    (hx : ∀ id o, DeviceTree.offset T id = some o → (o : Int) ≠ x) (upd : σ → Visit DtNode → σ)
    (found : σ → Visit DtNode → ρ) (missed : ρ) (s : σ) :
    (T.visits DtNode.openSize 4 0 0).foldlM (seek Visit.offset upd found missed x) s = .error missed ∧
        x < T.end ∨
      (T.visits DtNode.openSize 4 0 0).foldlM (seek Visit.offset upd found missed x) s =
        .ok ((T.visits DtNode.openSize 4 0 0).foldl upd s) := by
  have hne : ∀ v ∈ T.visits DtNode.openSize 4 0 0, (v.offset : Int) ≠ x := fun v hv => by
    obtain ⟨-, o, ho, hb⟩ := mem_visits h.nodup hv
    have := hx v.id o ho
    omega
  by_cases hex : ∃ w ∈ T.visits DtNode.openSize 4 0 0, x < w.offset
  · obtain ⟨w, hw, hlt⟩ := hex
    have := h.visit_lt hw
    exact Or.inl ⟨foldlM_seek_missed h.pairwise_visits hne hw hlt s, by omega⟩
  · refine Or.inr (foldlM_seek_passed (fun v hv => ?_) s)
    have h₁ := hne v hv
    have h₂ : ¬x < v.offset := fun hlt => hex ⟨v, hv, hlt⟩
    omega

theorem turn_supernode (x k : Int) :
    (fun (s : Int) (v : Visit DtNode) => turn (fun p : Pos => decide (0 ≤ p.1 ∧ p.1 ≤ x))
        (supernodeBody x k) (fun p _ => (walkError p.1, none)) s (posAt (some 0) v)) =
      seek Visit.offset (supernodeUpd k)
        (fun s v => (if (v.depth : Int) < k then errNotFound else s, some (v.depth : Int)))
        (errBadOffset, none) x := by
  funext s v
  have hpos : (0 : Int) ≤ v.offset := by omega
  have hwalk : walkError v.offset = errBadOffset := by rw [walkError, if_pos (Or.inr hpos)]
  simp only [turn, seek, posAt, supernodeBody, supernodeUpd, Option.map_some, Option.getD_some, Int.zero_add,
    hpos, true_and, decide_eq_true_eq, hwalk]

section Supernode

variable (h : Repr fdt T)

include h

theorem Repr.supernode_node {id o : Nat} (ho : DeviceTree.offset T id = some o) (k : Nat) :
    fdtSupernodeAtdepthOffset fdt o k =
      (match (T.lineage id)[k]? with
        | some v => (v.offset : Int)
        | none => errNotFound, some (((T.lineage id).length : Int) - 1)) := by
  have hk : ¬((k : Int) < 0) := by omega
  obtain ⟨fuel, hloop⟩ := h.forLoop_eq (fun p => decide (0 ≤ p.1 ∧ p.1 ≤ (o : Int)))
    (supernodeBody o k) (fun p _ => (walkError p.1, none)) (errBadStructure, none) errInternal
  rw [fdtSupernodeAtdepthOffset, if_neg hk, hloop, turn_supernode]
  obtain ⟨v, vs, -, hid, hvo, hline, hdepth, -, hmem, hfold⟩ := h.seek_found ho (supernodeUpd (k : Int))
    (fun s v => (if (v.depth : Int) < k then errNotFound else s, some (v.depth : Int)))
    (errBadOffset, none) errInternal
  rw [hfold]
  have hlen : (T.lineage id).length = v.depth + 1 := by rw [hline, hdepth]; simp
  simp only [hlen, Prod.mk.injEq]
  refine ⟨?_, by simp⟩
  by_cases hlt : (v.depth : Int) < k
  · rw [if_pos hlt, List.getElem?_eq_none (by omega)]
  · have hget : k < (T.lineage id).length := by omega
    rw [if_neg hlt, List.getElem?_eq_getElem hget]
    have hcongr := @Layered.congr _ DtNode.openSize 4 _ _ _ (layered_supernode k) T id 0 0 errInternal
      errInternal (mem_of_offset ho) (fun _ => rfl) h.nodup v hmem hid (by omega)
    rw [hcongr]
    have hfold := @foldl_supernode (T.lineage id) 0 k (fun i w hw => lineage_depth hw) _
      (List.getElem?_eq_getElem hget) errInternal
    rw [Nat.zero_add] at hfold
    exact hfold

/-- At any other offset it fails: up to the end of the structure with a bad offset, at the end with a
node that is not deep enough, and behind it with a bad structure. -/
theorem Repr.supernode_other {x : Int} (hx : ∀ id o, DeviceTree.offset T id = some o → (o : Int) ≠ x)
    (k : Nat) : fdtSupernodeAtdepthOffset fdt x k =
      if x < T.end then (errBadOffset, none)
      else if x = T.end then (errNotFound, some (-1))
      else (errBadStructure, none) := by
  have hk : ¬((k : Int) < 0) := by omega
  have hneg : ¬((-1 : Int) = k) := by omega
  have hlt : (-1 : Int) < k := by omega
  obtain ⟨fuel, hloop⟩ := h.forLoop_eq (fun p => decide (0 ≤ p.1 ∧ p.1 ≤ x))
    (supernodeBody x k) (fun p _ => (walkError p.1, none)) (errBadStructure, none) errInternal
  rw [fdtSupernodeAtdepthOffset, if_neg hk, hloop, turn_supernode]
  rcases h.seek_missed hx (supernodeUpd (k : Int))
    (fun s v => (if (v.depth : Int) < k then errNotFound else s, some (v.depth : Int)))
    (errBadOffset, none) errInternal with ⟨hfold, hend⟩ | hfold
  · rw [hfold, if_pos hend]
  · have hpos : (0 : Int) ≤ T.end := by omega
    rw [hfold]
    simp only [h.forLoop_end, supernodeBody, Option.getD_some, if_neg hneg, if_pos hlt]
    by_cases hxe : x < T.end
    · rw [if_pos hxe, if_pos hxe, walkError, if_pos (Or.inr hpos)]
    · rw [if_neg hxe, if_neg hxe]
      by_cases heq : x = T.end
      · rw [if_pos heq.symm, if_pos heq]
      · rw [if_neg (Ne.symm heq), if_neg heq]
        simp [walkError, errBadOffset, errNotFound]

theorem Repr.lineage_head {id : Nat} (hid : id ∈ T.ids) :
    ((T.lineage id)[0]?).map Visit.offset = some 0 := by
  obtain ⟨i, n, sub, rfl⟩ := h.rooted
  unfold DeviceTree.lineage
  by_cases hi : i = id
  · subst hi
    simp [lineage_self]
  · have hs : id ∈ sub.ids := by
      simpa [ids, Ne.symm hi] using hid
    simp [lineage_sub hi hs]

theorem Repr.nodeDepth_node {id o : Nat} (ho : DeviceTree.offset T id = some o) :
    fdtNodeDepth fdt o = ((T.lineage id).length : Int) - 1 := by
  have hsuper := h.supernode_node ho 0
  obtain ⟨v, hv, hoff⟩ := Option.map_eq_some_iff.mp (h.lineage_head (mem_of_offset ho))
  rw [hv] at hsuper
  simp only [hoff, show ((0 : Nat) : Int) = 0 from rfl] at hsuper
  simp [fdtNodeDepth, hsuper]

theorem Repr.parentOffset_node {id o : Nat} (ho : DeviceTree.offset T id = some o) :
    fdtParentOffset fdt o =
      match (T.lineage id).dropLast.getLast? with
      | some v => (v.offset : Int)
      | none => errNotFound := by
  obtain ⟨v, -, -, vs, -, -, -, -, hline, -, -⟩ := h.visit ho
  have hdepth := h.nodeDepth_node ho
  have hlen : (T.lineage id).length = vs.length + 1 := by rw [hline]; simp
  rw [hlen] at hdepth
  rw [fdtParentOffset, hdepth, hline, List.dropLast_concat]
  have hneg : ¬((vs.length + 1 : Nat) : Int) - 1 < 0 := by omega
  simp only [if_neg hneg]
  rcases List.eq_nil_or_concat vs with rfl | ⟨us, u, rfl⟩
  · simp [fdtSupernodeAtdepthOffset]
  · have hk : (((us.concat u).length + 1 : Nat) : Int) - 1 - 1 = (us.length : Nat) := by
      rw [List.length_concat]
      omega
    rw [hk, h.supernode_node ho, hline]
    simp

end Supernode

def socTree : DeviceTree :=
  .node 0 ⟨[], []⟩ (.node 1 ⟨Bytes.ofString "soc", []⟩
    (.node 2 ⟨Bytes.ofString "pio", [(Bytes.ofString "phandle", be32 1)]⟩ .nil
      (.node 3 ⟨Bytes.ofString "uart", [(Bytes.ofString "status", [0])]⟩ .nil .nil)) .nil) .nil

theorem socTree_repr : Repr (socTree.blob 64) socTree :=
  DeviceTree.repr_blob (by decide) (by decide) ⟨0, _, _, rfl⟩ (by decide)

theorem socTree_ids {id : Nat} (hid : id ∈ socTree.ids) : id = 0 ∨ id = 1 ∨ id = 2 ∨ id = 3 := by
  simpa [socTree, ids] using hid

theorem socTree_offset {id o : Nat} (ho : DeviceTree.offset socTree id = some o) :
    o = 0 ∨ o = 8 ∨ o = 16 ∨ o = 44 := by
  have h₀ : DeviceTree.offset socTree 0 = some 0 := by decide
  have h₁ : DeviceTree.offset socTree 1 = some 8 := by decide
  have h₂ : DeviceTree.offset socTree 2 = some 16 := by decide
  have h₃ : DeviceTree.offset socTree 3 = some 44 := by decide
  rcases socTree_ids (mem_of_offset ho) with rfl | rfl | rfl | rfl
  · exact Or.inl (Option.some.inj (ho.symm.trans h₀))
  · exact Or.inr (Or.inl (Option.some.inj (ho.symm.trans h₁)))
  · exact Or.inr (Or.inr (Or.inl (Option.some.inj (ho.symm.trans h₂))))
  · exact Or.inr (Or.inr (Or.inr (Option.some.inj (ho.symm.trans h₃))))

/-- `fdt_supernode_atdepth_offset` at every offset: at a node it gives the node above at the depth and
the node's own depth, anywhere else it fails. -/
theorem Repr.supernode_exact (h : Repr fdt T) (k : Nat) :
    (∀ id o, DeviceTree.offset T id = some o →
      fdtSupernodeAtdepthOffset fdt o k =
        (match (T.lineage id)[k]? with
          | some v => (v.offset : Int)
          | none => errNotFound, some (((T.lineage id).length : Int) - 1))) ∧
      ∀ x : Int, (∀ id o, DeviceTree.offset T id = some o → (o : Int) ≠ x) →
        fdtSupernodeAtdepthOffset fdt x k =
          if x < T.end then (errBadOffset, none)
          else if x = T.end then (errNotFound, some (-1))
          else (errBadStructure, none) :=
  ⟨fun _ _ ho => h.supernode_node ho k, fun _ hx => h.supernode_other hx k⟩

theorem Repr.supernode_exact_soc :
    fdtSupernodeAtdepthOffset (socTree.blob 64) 44 1 = (8, some 2) ∧
      fdtSupernodeAtdepthOffset (socTree.blob 64) 12 1 = (errBadOffset, none) :=
  ⟨((socTree_repr.supernode_exact 1).1 3 44 (by decide)).trans (by decide),
    ((socTree_repr.supernode_exact 1).2 12 fun _ _ ho => by
      have := socTree_offset ho
      omega).trans (by decide)⟩

/-- `fdt_parent_offset` gives back an offset just at the children, and then that of the parent. -/
theorem Repr.parentOffset_iff (h : Repr fdt T) {x r : Int} (hr : 0 ≤ r) :
    fdtParentOffset fdt x = r ↔ ∃ i j oi oj, j ∈ T.kids i ∧ DeviceTree.offset T i = some oi ∧
      DeviceTree.offset T j = some oj ∧ (oi : Int) = r ∧ (oj : Int) = x := by
  have hkid : ∀ {i j oi oj : Nat}, j ∈ T.kids i → DeviceTree.offset T i = some oi →
      DeviceTree.offset T j = some oj → fdtParentOffset fdt oj = oi := by
    intro i j oi oj hj hi hoj
    obtain ⟨u, -, -, us, -, hu, -, -, hline, -, -⟩ := h.visit hi
    obtain ⟨v, -, hv⟩ := @lineage_kid _ DtNode.openSize 4 T h.nodup i j hj 0 0
    rw [h.parentOffset_node hoj, DeviceTree.lineage, hv, List.dropLast_concat]
    rw [DeviceTree.lineage] at hline
    simp [hline, hu]
  constructor
  · intro hx
    by_cases hnode : ∃ j oj, DeviceTree.offset T j = some oj ∧ (oj : Int) = x
    · obtain ⟨j, oj, hoj, rfl⟩ := hnode
      rcases root_or_kid h.nodup (mem_of_offset hoj) with hroot | ⟨i, hi⟩
      · obtain ⟨k, n, sub, rfl⟩ := h.rooted
        obtain rfl : j = k := by simpa [roots] using hroot
        rw [h.parentOffset_node hoj, DeviceTree.lineage, lineage_self] at hx
        simp [errNotFound] at hx
        omega
      · obtain ⟨oi, hoi⟩ := DeviceTree.offset_isSome (mem_ids_of_mem_kids hi)
        exact ⟨i, j, oi, oj, hi, hoi, hoj, by rw [← hx, hkid hi hoi hoj], rfl⟩
    · have hother := h.supernode_other (x := x) (fun id o ho e => hnode ⟨id, o, ho, e⟩) 0
      have hneg : fdtParentOffset fdt x < 0 := by
        rw [show ((0 : Nat) : Int) = 0 from rfl] at hother
        unfold fdtParentOffset fdtNodeDepth
        rw [hother]
        split
        · simp [errBadOffset]
        · split
          · simp [errNotFound]
          · simp [errBadStructure]
      omega
  · rintro ⟨i, j, oi, oj, hj, hi, hoj, rfl, rfl⟩
    exact hkid hj hi hoj

theorem Repr.parentOffset_iff_soc :
    fdtParentOffset (socTree.blob 64) 44 = 8 :=
  (socTree_repr.parentOffset_iff (by decide)).mpr
    ⟨1, 3, 8, 44, by decide, by decide, by decide, rfl, rfl⟩

end Babelfish.Libfdt
