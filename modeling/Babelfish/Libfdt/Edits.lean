import Babelfish.Libfdt.Delete
import Babelfish.Libfdt.Resolve

/-! Sessions of edits: a blob that represents a tree represents, after any calls of libfdt that change
nodes, the tree after those of them that succeeded. -/

namespace Babelfish.Libfdt

open Bytes Forest

/-- A call that changes the node at an offset. -/
inductive EditOp
  | setprop (name val : Bytes)
  | setpropInplace (name val : Bytes)
  | appendprop (name val : Bytes)
  | delprop (name : Bytes)
  | setName (name : Bytes)
  | addSubnode (name : Bytes)
  | delNode

namespace EditOp

def run (fdt : Fdt) (offset : Int) : EditOp → Int × Fdt
  | setprop name val => fdtSetprop fdt offset name val
  | setpropInplace name val => fdtSetpropInplace fdt offset name val
  | appendprop name val => fdtAppendprop fdt offset name val
  | delprop name => fdtDelprop fdt offset name
  | setName name => fdtSetName fdt offset name
  | addSubnode name => fdtAddSubnode fdt offset name
  | delNode => fdtDelNode fdt offset

/-- The same on the tree, where a new node gets a label that is free. -/
def apply (T : DeviceTree) (id : Nat) : EditOp → DeviceTree
  | setprop name val => T.modify id (DtNode.setprop name val)
  | setpropInplace name val => T.modify id (DtNode.setprop name val)
  | appendprop name val => T.modify id (DtNode.appendprop name val)
  | delprop name => T.modify id (DtNode.delprop name)
  | setName name => T.modify id (DtNode.setName name)
  | addSubnode name => T.addFirst id (T.ids.foldr max 0 + 1) ⟨name, []⟩
  | delNode => T.erase id

/-- The names in a call are C strings, and none that is looked up is empty. -/
def Wf : EditOp → Prop
  | setprop name _ => name ≠ [] ∧ 0 ∉ name
  | setpropInplace name _ => name ≠ [] ∧ 0 ∉ name
  | appendprop name _ => name ≠ [] ∧ 0 ∉ name
  | delprop name => name ≠ [] ∧ 0 ∉ name
  | setName name => 0 ∉ name
  | addSubnode name => name ≠ [] ∧ 0 ∉ name
  | delNode => True

/-- What a call needs: the property that it changes, a name that is not taken, and room. -/
def Ready (T : DeviceTree) (id : Nat) (n : DtNode) (room : Nat) : EditOp → Prop
  | setprop name val => setRoom n name val.length ≤ room
  | setpropInplace name val => ∃ v, n.getprop name = some v ∧ v.length = val.length
  | appendprop name val => propRoom name val.length ≤ room
  | delprop name => n.getprop name ≠ none
  | setName name => align4 (name.length + 1) - align4 (n.name.length + 1) ≤ room
  | addSubnode name => T.childOf id (DtNode.isNamed name) = none ∧ nodeRoom name ≤ room
  | delNode => True

end EditOp

def editStep (s : Fdt × DeviceTree) (e : Nat × EditOp) : Fdt × DeviceTree :=
  match s.2.offset e.1 with
  | none => s
  | some o =>
    let r := e.2.run s.1 o
    (r.2, if 0 ≤ r.1 then e.2.apply s.2 e.1 else s.2)

theorem foldr_max_not_mem (l : List Nat) : l.foldr max 0 + 1 ∉ l := by
  have hle : ∀ x ∈ l, x ≤ l.foldr max 0 := by
    induction l with
    | nil => simp
    | cons y l ih =>
      intro x hx
      rw [List.foldr_cons]
      rcases List.mem_cons.mp hx with rfl | hx
      · exact Nat.le_max_left _ _
      · exact (ih x hx).trans (Nat.le_max_right _ _)
  exact fun hm => by
    have := hle _ hm
    omega

theorem root_erase {T : DeviceTree} (hr : DeviceTree.Rooted T) {id : Nat} (h : id ≠ T.root) :
    DeviceTree.root (T.erase id) = T.root := by
  obtain ⟨i, n, sub, rfl⟩ := hr
  have hi : i ≠ id := fun e => h e.symm
  simp [erase, hi, DeviceTree.root]

theorem EditOp.root_apply {T : DeviceTree} (hr : DeviceTree.Rooted T) {id : Nat} {op : EditOp}
    (h : op = .delNode → id ≠ T.root) : DeviceTree.root (op.apply T id) = T.root := by
  cases op with
  | delNode => exact root_erase hr (h rfl)
  | setprop name val => exact DeviceTree.root_update _ _ _
  | setpropInplace name val => exact DeviceTree.root_update _ _ _
  | appendprop name val => exact DeviceTree.root_update _ _ _
  | delprop name => exact DeviceTree.root_update _ _ _
  | setName name => exact DeviceTree.root_update _ _ _
  | addSubnode name => exact DeviceTree.root_update _ _ _

variable {fdt : Fdt} {T : DeviceTree}

/-- A call has made `T'` of the tree, as it does if it finds what it needs, or has failed and left it. -/
structure Outcome (ready : Prop) (T T' : DeviceTree) (r : Int × Fdt) : Prop where
  repr : Repr r.2 (if 0 ≤ r.1 then T' else T)
  succeeds : ready → 0 ≤ r.1
  errors : r.1 < 0 → r.1 = errNotFound ∨ r.1 = errExists ∨ r.1 = errNoSpace

namespace Outcome

variable {T' : DeviceTree} {r : Int × Fdt} {ready : Prop}

theorem done (hr : 0 ≤ r.1) (h : Repr r.2 T') : Outcome ready T T' r :=
  ⟨by rwa [if_pos hr], fun _ => hr, fun hneg => by omega⟩

theorem refused (h : Repr r.2 T) (hr : r.1 = errNotFound ∨ r.1 = errExists ∨ r.1 = errNoSpace)
    (hno : ¬ready) : Outcome ready T T' r := by
  refine ⟨?_, fun hready => absurd hready hno, fun _ => hr⟩
  rw [if_neg]
  · exact h
  · simp only [errNotFound, errExists, errNoSpace] at hr
    omega

theorem of_edited {room : Nat} {ok : Int} (h : Edited fdt T T' room ok r) (hok : 0 ≤ ok)
    (hready : ready → room ≤ fdt.free.length) : Outcome ready T T' r := by
  rcases h with ⟨hr, hrepr, -⟩ | ⟨hr, hrepr, hlt⟩
  · exact .done (by omega) hrepr
  · exact .refused hrepr (Or.inr (Or.inr hr)) fun h => by
      have := hready h
      omega

end Outcome

theorem Repr.editOp (h : Repr fdt T) {id o : Nat} (ho : DeviceTree.offset T id = some o) {n : DtNode}
    (hn : T.get? id = some n) {op : EditOp} (hwf : op.Wf) (hroot : op = .delNode → id ≠ T.root) :
    Outcome (op.Ready T id n fdt.free.length) T (op.apply T id) (op.run fdt o) := by
  cases op with
  | setprop name val => exact .of_edited (h.setprop hn ho hwf.2 val) (Int.le_refl 0) fun hr => hr
  | appendprop name val => exact .of_edited (h.appendprop hn ho hwf.2 val) (Int.le_refl 0) fun hr => hr
  | setName name => exact .of_edited (h.setName hn ho hwf) (Int.le_refl 0) fun hr => hr
  | setpropInplace name val =>
    obtain ⟨hmiss, hhit⟩ := h.setpropInplace hn ho name val
    change Outcome (∃ v, n.getprop name = some v ∧ v.length = val.length) T _
      (fdtSetpropInplace fdt o name val)
    cases hp : n.getprop name with
    | none =>
      rw [hmiss hp]
      exact .refused h (Or.inl rfl) (by simp)
    | some v =>
      by_cases hlen : v.length = val.length
      · obtain ⟨hr, hrepr, -⟩ := (hhit v hp).2 hlen
        exact .done (Int.le_of_eq hr.symm) hrepr
      · rw [(hhit v hp).1 hlen]
        exact .refused h (Or.inr (Or.inr rfl)) (by simpa using hlen)
  | delprop name =>
    obtain ⟨hmiss, hhit⟩ := h.delprop hn ho name
    change Outcome (n.getprop name ≠ none) T _ (fdtDelprop fdt o name)
    cases hp : n.getprop name with
    | none =>
      rw [hmiss hp]
      exact .refused h (Or.inl rfl) (by simp)
    | some v =>
      obtain ⟨hr, hrepr, -⟩ := hhit v hp
      exact .done (Int.le_of_eq hr.symm) hrepr
  | addSubnode name =>
    change Outcome (T.childOf id (DtNode.isNamed name) = none ∧ nodeRoom name ≤ fdt.free.length) T _
      (fdtAddSubnode fdt o name)
    cases hc : T.childOf id (DtNode.isNamed name) with
    | none =>
      exact .of_edited (h.addSubnode hn ho hwf.2 hc (foldr_max_not_mem _)).2 (by omega) And.right
    | some j =>
      obtain ⟨r, hf⟩ := find?_isSome (mem_of_offset ho)
      have hj : j ∈ T.ids := by
        simp only [childOf, hf] at hc
        exact ids_subset_of_find? (s := r.2) hf (child?_mem hc)
      obtain ⟨oj, hoj⟩ := DeviceTree.offset_isSome hj
      have hsub := (h.subnodeOffset ho hwf.2).2 j hc oj hoj
      have hpos : (0 : Int) ≤ oj := by omega
      have hexists : fdtAddSubnode fdt o name = (errExists, fdt) := by
        rw [fdtAddSubnode, hsub, if_pos hpos]
      rw [hexists]
      exact .refused h (Or.inr (Or.inl rfl)) (by simp)
  | delNode =>
    obtain ⟨hr, hrepr, -⟩ := h.delNode ho (hroot rfl)
    exact .done (Int.le_of_eq hr.symm) hrepr

theorem Repr.editStep {s : Fdt × DeviceTree} (h : Repr s.1 s.2) {e : Nat × EditOp} (hwf : e.2.Wf)
    (hroot : e.2 = .delNode → e.1 ≠ s.2.root) :
    Repr (editStep s e).1 (editStep s e).2 ∧ DeviceTree.root (editStep s e).2 = s.2.root := by
  unfold Libfdt.editStep
  cases ho : s.2.offset e.1 with
  | none => exact ⟨h, rfl⟩
  | some o =>
    obtain ⟨n, hn⟩ := get?_of_mem (mem_of_offset ho)
    refine ⟨(h.editOp ho hn hwf hroot).repr, ?_⟩
    simp only
    split
    · exact EditOp.root_apply h.rooted hroot
    · rfl

theorem Repr.edits {s : Fdt × DeviceTree} (h : Repr s.1 s.2) {es : List (Nat × EditOp)}
    (hwf : ∀ e ∈ es, e.2.Wf) (hroot : ∀ e ∈ es, e.2 = .delNode → e.1 ≠ s.2.root) :
    Repr (es.foldl Libfdt.editStep s).1 (es.foldl Libfdt.editStep s).2 ∧
      DeviceTree.root (es.foldl Libfdt.editStep s).2 = s.2.root := by
  induction es generalizing s with
  | nil => exact ⟨h, rfl⟩
  | cons e es ih =>
    obtain ⟨hrepr, hr⟩ := h.editStep (hwf e List.mem_cons_self) (hroot e List.mem_cons_self)
    rw [← hr]
    refine ih hrepr (fun e he => hwf e (List.mem_cons_of_mem _ he)) fun e he hd => ?_
    rw [hr]
    exact hroot e (List.mem_cons_of_mem _ he) hd

/-- In any session of edits the blob keeps representing the tree; a call that finds what it needs succeeds,
and one that fails has missed what it looks for, found what it should bring in, or lacked room. -/
theorem Repr.edits_represent {s : Fdt × DeviceTree} (h : Repr s.1 s.2) {es : List (Nat × EditOp)}
    (hwf : ∀ e ∈ es, e.2.Wf) (hroot : ∀ e ∈ es, e.2 = .delNode → e.1 ≠ s.2.root) :
    Repr (es.foldl Libfdt.editStep s).1 (es.foldl Libfdt.editStep s).2 ∧
      ∀ l₁ e l₂, es = l₁ ++ e :: l₂ → ∀ o n, (l₁.foldl Libfdt.editStep s).2.offset e.1 = some o →
        (l₁.foldl Libfdt.editStep s).2.get? e.1 = some n →
        Outcome (e.2.Ready (l₁.foldl Libfdt.editStep s).2 e.1 n (l₁.foldl Libfdt.editStep s).1.free.length)
          (l₁.foldl Libfdt.editStep s).2 (e.2.apply (l₁.foldl Libfdt.editStep s).2 e.1)
          (e.2.run (l₁.foldl Libfdt.editStep s).1 o) := by
  refine ⟨(h.edits hwf hroot).1, fun l₁ e l₂ hes o n ho hn => ?_⟩
  subst hes
  have hmem : e ∈ l₁ ++ e :: l₂ := by simp
  obtain ⟨hrepr, hr⟩ := h.edits (fun x hx => hwf x (List.mem_append_left _ hx))
    fun x hx => hroot x (List.mem_append_left _ hx)
  exact hrepr.editOp ho hn (hwf e hmem) fun hd => by rw [hr]; exact hroot e hmem hd

def socEdits : List (Nat × EditOp) :=
  [(3, .setName (Bytes.ofString "serial")), (1, .addSubnode (Bytes.ofString "spi")), (2, .delNode)]

theorem Repr.edits_represent_soc :
    Repr (socEdits.foldl Libfdt.editStep (socTree.blob 64, socTree)).1
        (socEdits.foldl Libfdt.editStep (socTree.blob 64, socTree)).2 ∧
      0 ≤ (EditOp.run (socTree.blob 64) (44 : Nat) (.setName (Bytes.ofString "serial"))).1 := by
  have hwf : ∀ e ∈ socEdits, e.2.Wf := by
    intro e he
    simp only [socEdits, List.mem_cons, List.not_mem_nil, or_false] at he
    rcases he with rfl | rfl | rfl
    · exact show 0 ∉ Bytes.ofString "serial" by decide
    · exact show Bytes.ofString "spi" ≠ [] ∧ 0 ∉ Bytes.ofString "spi" by decide
    · trivial
  have hroot : ∀ e ∈ socEdits, e.2 = .delNode → e.1 ≠ socTree.root := by
    intro e he hd
    simp only [socEdits, List.mem_cons, List.not_mem_nil, or_false] at he
    rcases he with rfl | rfl | rfl
    · cases hd
    · cases hd
    · exact show 2 ≠ 0 by decide
  obtain ⟨hrepr, hstep⟩ := @Repr.edits_represent (socTree.blob 64, socTree) socTree_repr socEdits hwf hroot
  have hfree : (socTree.blob 64).free.length = 64 := List.length_replicate
  have hsize : align4 ((Bytes.ofString "serial").length + 1) - align4 ((Bytes.ofString "uart").length + 1) = 0 := by
    decide
  refine ⟨hrepr, (hstep [] _ _ rfl 44 _ (by decide) rfl).succeeds ?_⟩
  change align4 ((Bytes.ofString "serial").length + 1) - align4 ((Bytes.ofString "uart").length + 1) ≤ _
  omega

/-- The bytes that a new node is put between. -/
theorem Repr.addSubnode_bytes {id o : Nat} {n : DtNode} (h : Repr fdt T) (hn : T.get? id = some n)
    (ho : DeviceTree.offset T id = some o) {name : Bytes} (hz : 0 ∉ name)
    (hnone : T.childOf id (DtNode.isNamed name) = none) (hroom : nodeRoom name ≤ fdt.free.length) :
    ∃ A X B free', fdt.dtStruct = A ++ B ∧ A.length = o + n.openSize ∧ X.length = nodeRoom name ∧
      (fdtAddSubnode fdt o name).2 = ⟨A ++ (X ++ B), fdt.dtStrings, free'⟩ ∧
      free'.length + nodeRoom name = fdt.free.length := by
  obtain ⟨sub, hf⟩ := find?_of_get? hn
  have hsubnode := (h.subnodeOffset ho hz).1 hnone
  obtain ⟨pre, pad, ps, ss, post, hat, hps, hss, ho', -⟩ := h.split hf
  obtain rfl : weight Tok.size pre = o := by simpa [ho] using ho'.symm
  have hnode : At fdt (weight Tok.size pre)
      (.beginNode n.name pad :: (ps ++ (ss ++ (.endNode :: post)))) := by
    simpa using hat.append
  have hat' : At fdt 0 ((pre ++ .beginNode n.name pad :: ps) ++ (ss ++ (.endNode :: post))) := by
    simpa using hat
  have hskip : skipProps fdt (fdtFuel fdt) (fdtNextTag fdt (weight Tok.size pre : Nat)).2 =
      (weight Tok.size (pre ++ .beginNode n.name pad :: ps) : Nat) := by
    have hlt := hnode.length_lt_fuel
    simp only [List.length_cons, List.length_append] at hlt
    rw [hnode.nextTag, skipProps_eq hps (hss.notProp post) hnode.tail (by omega)]
    simp only [weight_append, weight_cons, Nat.add_assoc]
  have hw := NodeEnc.weight (show NodeEnc fdt.dtStrings n (.beginNode n.name pad :: ps) from
    ⟨pad, ps, rfl, hps⟩)
  have hpre := length_encode fun t ht => hat'.wf t (List.mem_append_left _ ht)
  obtain ⟨npad, free', hpad, hok, hwrite, hfree⟩ := splice_new_node hat' hroom
  have hneg : ¬(0 ≤ errNotFound) := by simp [errNotFound]
  have hadd := add_pad4 (name.length + 1)
  refine ⟨encode (pre ++ .beginNode n.name pad :: ps), encode [.beginNode name npad, .endNode],
    encode (ss ++ (.endNode :: post)), free', ?_, ?_, ?_, ?_, hfree⟩
  · have := hat'.drop
    simpa using this
  · rw [hpre, weight_append, hw]
  · simp only [encode_cons, encode_nil, Tok.bytes, List.length_append, length_be32, List.length_cons,
      List.length_nil, hpad, nodeRoom]
    omega
  · simp only [fdtAddSubnode, hsubnode, if_neg hneg, ne_eq, not_true_eq_false, if_false, hskip, hok,
      hwrite]
    simp

/-- A node that is added and deleted again leaves the blocks as they were, to the byte. -/
theorem Repr.delNode_addSubnode {id o : Nat} {n : DtNode} (h : Repr fdt T) (hn : T.get? id = some n)
    (ho : DeviceTree.offset T id = some o) {name : Bytes} (hz : 0 ∉ name)
    (hnone : T.childOf id (DtNode.isNamed name) = none) (hroom : nodeRoom name ≤ fdt.free.length) :
    ∃ free', fdtDelNode (fdtAddSubnode fdt o name).2 (fdtAddSubnode fdt o name).1 =
      (0, ⟨fdt.dtStruct, fdt.dtStrings, free'⟩) ∧ free'.length = fdt.free.length := by
  have hfresh := foldr_max_not_mem T.ids
  obtain ⟨hoff, hedit⟩ := h.addSubnode hn ho hz hnone hfresh
  obtain ⟨hok, hrepr, -⟩ := hedit.of_room hroom
  obtain ⟨A, X, B, free₁, hstruct, hA, hX, hblob, hfree₁⟩ := h.addSubnode_bytes hn ho hz hnone hroom
  have hmem : id ∈ T.ids := mem_of_get? hn
  obtain ⟨pre, pad, ps, ss, post, hat, hps, hss, ho', -⟩ :=
    hrepr.split (find?_addFirst_new hfresh hmem ⟨name, []⟩)
  have hpre : weight Tok.size pre = o + n.openSize := by simpa [hoff] using ho'.symm
  have hnode : At (fdtAddSubnode fdt o name).2 (o + n.openSize)
      (.beginNode name pad :: (ps ++ (ss ++ (.endNode :: post)))) := by
    rw [← hpre]
    simpa using hat.append
  have hend := nodeEndOffset_eq (n := ⟨name, []⟩) hnode hps hss
  have hroomEq : DtNode.openSize ⟨name, []⟩ + (Forest.size DtNode.openSize 4 .nil + 4) = nodeRoom name := by
    simp only [DtNode.openSize, List.map_nil, List.sum_nil, Forest.size, nodeRoom]
    omega
  rw [hroomEq] at hend
  have hnew : (fdtAddSubnode fdt o name).2.dtStruct = A ++ (X ++ B) := by rw [hblob]
  obtain ⟨M', free', hsplice, hlen, -, hfree'⟩ := fdtSpliceStruct_ok hnew 0 (Nat.zero_le _)
  obtain rfl : M' = [] := List.length_eq_zero_iff.mp hlen
  have hneg : ¬((o + n.openSize + nodeRoom name : Nat) : Int) < 0 := by omega
  refine ⟨free', ?_, ?_⟩
  · simp only [fdtDelNode, hok, hend, if_neg hneg]
    have hsize : ((o + n.openSize + nodeRoom name : Nat) : Int) - ((o + n.openSize : Nat) : Int) =
        X.length := by omega
    rw [hsize, ← hA, show (0 : Int) = ((0 : Nat) : Int) from rfl, hsplice, hblob, hstruct]
    rfl
  · rw [hblob] at hfree'
    simp only at hfree'
    omega

theorem Repr.delNode_addSubnode_soc : ∃ free',
    fdtDelNode (fdtAddSubnode (socTree.blob 64) (8 : Nat) (Bytes.ofString "spi")).2
        (fdtAddSubnode (socTree.blob 64) (8 : Nat) (Bytes.ofString "spi")).1 =
      (0, ⟨(socTree.blob 64).dtStruct, (socTree.blob 64).dtStrings, free'⟩) ∧
      free'.length = (socTree.blob 64).free.length :=
  socTree_repr.delNode_addSubnode (show socTree.get? 1 = some ⟨Bytes.ofString "soc", []⟩ from rfl)
    (by decide) (by decide) (by decide) (by decide)

end Babelfish.Libfdt
