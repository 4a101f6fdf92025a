import Babelfish.Libfdt.Read

/-! Children and paths in a blob that represents a tree. -/

namespace Babelfish.Libfdt

open Bytes Forest

variable {fdt : Fdt} {T : DeviceTree}

theorem fdtNodenameEq_eq {offset : Nat} {name pad : Bytes} {ts : List Tok}
    (h : At fdt offset (.beginNode name pad :: ts)) {s : Bytes} (hs : 0 ∉ s) :
    fdtNodenameEq fdt offset s = DtNode.nameMatches s name := by
  have hz := (h.wf _ List.mem_cons_self).1
  have hsize := h.size_le
  have hle := le_align4 (name.length + 1)
  simp only [Tok.size] at hsize
  have hsmall := h.small
  have hdrop : fdt.dtStruct.drop ((offset : Int) + 4).toNat = name ++ 0 :: (pad ++ encode ts) := by
    rw [show ((offset : Int) + 4).toNat = offset + 4 by omega, h.nodeName]
  have hshort : ∀ bs : Bytes, (name ++ 0 :: bs).take s.length = s → s.length ≤ name.length := by
    intro bs ht
    by_contra hlt
    apply hs
    rw [← ht]
    refine List.mem_iff_getElem?.mpr ⟨name.length, ?_⟩
    rw [List.getElem?_take_of_lt (by omega)]
    simp
  simp only [fdtNodenameEq, hdrop, DtNode.nameMatches]
  by_cases ht : (name ++ 0 :: (pad ++ encode ts)).take s.length = s
  · have hlen := hshort _ ht
    have hp : fdtOffsetPtr fdt ((offset : Int) + 4) (s.length + 1) = true :=
      fdtOffsetPtr_eq_true hsmall (by omega) (by omega) (by omega)
    have htn : name.take s.length = s := by
      rwa [List.take_append_of_le_length hlen] at ht
    simp only [hp, ht, htn, ne_eq, not_true, Bool.not_true, Bool.false_eq_true, if_false,
      beq_self_eq_true, Bool.true_and]
    by_cases heq : name.length = s.length
    · simp [← heq]
    · have hlt : s.length < name.length := by omega
      have hne : (name[s.length] == 0) = false :=
        beq_false_of_ne fun e => hz (e ▸ List.getElem_mem hlt)
      have hne' : (name.length == s.length) = false := beq_false_of_ne heq
      simp [List.getElem?_append_left hlt, List.getElem?_eq_getElem hlt, hne, hne']
  · have htn : name.take s.length ≠ s := by
      intro e
      have hlen : s.length ≤ name.length := by
        have := congrArg List.length e
        simp only [List.length_take] at this
        omega
      exact ht (by rwa [List.take_append_of_le_length hlen])
    simp [ht, htn]

/-- `fdt_subnode_offset_namelen` on tokens: `o` is where the first one starts and `d` the depth. -/
def scan (name : Bytes) : List Tok → Nat → Int → Int
  | [], _, _ => errTruncated
  | .prop nameoff value pad :: ts, o, d => scan name ts (o + (Tok.prop nameoff value pad).size) d
  | .beginNode n pad :: ts, o, d =>
    if d + 1 = 1 ∧ DtNode.nameMatches name n then o
    else scan name ts (o + (Tok.beginNode n pad).size) (d + 1)
  | .endNode :: ts, o, d => if d - 1 < 0 then errNotFound else scan name ts (o + 4) (d - 1)
  | .fend :: _, _, _ => errNotFound

theorem nextNodeLoop_nil {offset : Nat} (h : At fdt offset []) (fuel : Nat) (d : Int) :
    nextNodeLoop fdt (fuel + 1) offset (some d) = (errTruncated, some d) := by
  have hlen := h.length_eq
  have hsmall := h.small
  simp only [weight_nil] at hlen
  have hp : fdtOffsetPtr fdt offset 4 = false :=
    fdtOffsetPtr_eq_false (by omega) (by omega) (by omega)
  simp [nextNodeLoop, fdtNextTag, hp]

theorem subnodeLoop_eq_scan {name : Bytes} (hname : 0 ∉ name) {ts : List Tok} {offset : Nat}
    (h : At fdt offset ts) {fuel fuel' : Nat} (hfuel : ts.length < fuel)
    (hfuel' : ts.length < fuel') {d : Int} (hd : 0 ≤ d) :
    subnodeLoop fdt name fuel' (nextNodeLoop fdt fuel offset (some d)).1
      ((nextNodeLoop fdt fuel offset (some d)).2.getD 0) = scan name ts offset d := by
  induction ts generalizing offset fuel fuel' d with
  | nil =>
    obtain ⟨f', rfl⟩ : ∃ f', fuel' = f' + 1 := ⟨fuel' - 1, by simp at hfuel'; omega⟩
    obtain ⟨f, rfl⟩ : ∃ f, fuel = f + 1 := ⟨fuel - 1, by simp at hfuel; omega⟩
    have hlt : ¬d < 0 := by omega
    simp [nextNodeLoop_nil h, subnodeLoop, scan, hlt]
  | cons t ts ih =>
    obtain ⟨f, rfl⟩ : ∃ f, fuel = f + 1 := ⟨fuel - 1, by simp at hfuel; omega⟩
    have hf : ts.length < f := by simp at hfuel; omega
    have hf' : ts.length < fuel' := by simp at hfuel'; omega
    cases t with
    | prop nameoff value pad =>
      simp only [nextNodeLoop, h.nextTag, Tok.tag, scan]
      exact ih h.tail hf hf' hd
    | endNode =>
      simp only [nextNodeLoop, h.nextTag, Tok.tag, scan]
      by_cases hd' : d - 1 < 0
      · obtain ⟨g, rfl⟩ : ∃ g, fuel' = g + 1 := ⟨fuel' - 1, by omega⟩
        simp only [hd', if_true, Option.getD_some, subnodeLoop]
        rw [if_neg (by omega)]
      · simp only [hd', if_false]
        exact ih h.tail hf hf' (by omega)
    | fend =>
      obtain ⟨g, rfl⟩ : ∃ g, fuel' = g + 1 := ⟨fuel' - 1, by omega⟩
      have hlt : ¬d < 0 := by omega
      have hpos : (0 : Int) ≤ ((offset + Tok.fend.size : Nat) : Int) := by omega
      simp only [nextNodeLoop, h.nextTag, Tok.tag, scan, hpos, true_or, if_true, Option.getD_some,
        subnodeLoop, if_neg hlt]
      rw [if_neg (by simp [errNotFound])]
    | beginNode n pad =>
      obtain ⟨g, rfl⟩ : ∃ g, fuel' = g + 1 := ⟨fuel' - 1, by omega⟩
      have hpos : (0 : Int) ≤ (offset : Int) ∧ 0 ≤ d + 1 := by omega
      simp only [nextNodeLoop, h.nextTag, Tok.tag, scan, Option.map_some, Option.getD_some,
        subnodeLoop, if_pos hpos, fdtNodenameEq_eq h hname]
      split
      · rfl
      · have hn : ¬((offset + (Tok.beginNode n pad).size : Nat) : Int) < 0 := by omega
        simp only [fdtNextNode, hpos.1, if_true, checkNodeOffset_eq h, if_neg hn]
        exact ih h.tail h.tail.length_lt_fuel (by simp at hfuel'; omega) hpos.2

theorem scan_props {name : Bytes} {strings : Bytes} {props : List (Bytes × Bytes)} {ps : List Tok}
    (h : PropsEnc strings props ps) (ts : List Tok) (o : Nat) (d : Int) :
    scan name (ps ++ ts) o d = scan name ts (o + weight Tok.size ps) d := by
  induction h generalizing o with
  | nil => simp
  | cons _ _ ih => simp [scan, ih, Nat.add_assoc]

theorem scan_deep {name strings : Bytes} {sub : DeviceTree} {ss : List Tok}
    (h : TreeEnc strings sub ss) (ts : List Tok) (o : Nat) {d : Int} (hd : 1 ≤ d) :
    scan name (ss ++ ts) o d = scan name ts (o + weight Tok.size ss) d := by
  induction h generalizing ts o d with
  | nil => simp
  | @node i n sub next tn ss ns ha _ _ ihs ihn =>
    obtain ⟨pad, ps, rfl, hps⟩ := ha
    have h₁ : ¬(d + 1 = 1 ∧ DtNode.nameMatches name n.name = true) := by omega
    have h₂ : ¬(d + 1 - 1 < 0) := by omega
    simp only [List.cons_append, List.append_assoc, scan, if_neg h₁, scan_props hps,
      ihs _ _ (show 1 ≤ d + 1 by omega), List.nil_append, if_neg h₂]
    rw [show d + 1 - 1 = d by omega, ihn _ _ hd]
    simp only [weight_append, weight_cons, Tok.size]
    congr 1
    omega

theorem scan_children (name : Bytes) {strings : Bytes} {sub : DeviceTree} {ss : List Tok}
    (h : TreeEnc strings sub ss) (ts : List Tok) (o : Nat) :
    (sub.child? (DtNode.isNamed name) = none → scan name (ss ++ (.endNode :: ts)) o 0 = errNotFound) ∧
      ∀ j, sub.child? (DtNode.isNamed name) = some j → ∀ o', DeviceTree.offset sub j = some o' →
        sub.ids.Nodup → scan name (ss ++ (.endNode :: ts)) o 0 = ((o + o' : Nat) : Int) := by
  induction h generalizing ts o with
  | nil => exact ⟨fun _ => by simp [scan], fun j hj => by simp [child?] at hj⟩
  | @node i n sub next tn ss ns ha hs _ _ ihn =>
    obtain ⟨pad, ps, rfl, hps⟩ := ha
    by_cases hm : DtNode.nameMatches name n.name = true
    · refine ⟨fun hc => by simp [child?, DtNode.isNamed, hm] at hc, fun j hj o' ho _ => ?_⟩
      obtain rfl : i = j := by simpa [child?, DtNode.isNamed, hm] using hj
      obtain rfl : 0 = o' := by simpa [DeviceTree.offset, Forest.offset] using ho
      simp [scan, hm]
    · have hstep : scan name (.beginNode n.name pad :: ps ++ (ss ++ ([.endNode] ++ ns)) ++
          (.endNode :: ts)) o 0 = scan name (ns ++ (.endNode :: ts))
            (o + (n.openSize + (sub.size DtNode.openSize 4 + 4))) 0 := by
        have hw := NodeEnc.weight (show NodeEnc strings n (.beginNode n.name pad :: ps) from
          ⟨pad, ps, rfl, hps⟩)
        have hws := TreeEnc.weight hs
        simp only [List.cons_append, List.append_assoc, scan, hm, and_false, if_false, scan_props hps,
          scan_deep hs _ _ (show (1 : Int) ≤ 0 + 1 by omega), List.nil_append,
          Bool.false_eq_true]
        simp only [weight_cons, Tok.size] at hw
        rw [if_neg (by omega), show (0 : Int) + 1 - 1 = 0 by omega, hws]
        congr 1
        simp only [Tok.size]
        omega
      rw [hstep]
      constructor
      · intro hc
        refine (ihn ts _).1 ?_
        simpa [child?, DtNode.isNamed, hm] using hc
      · intro j hj o' ho hn
        obtain ⟨hi, hin, hns, hnn, hd⟩ := nodup_ids_node.mp hn
        have hj' : next.child? (DtNode.isNamed name) = some j := by
          simpa [child?, DtNode.isNamed, hm] using hj
        have hjn := child?_mem hj'
        have hij : i ≠ j := fun e => hin (e ▸ hjn)
        simp only [DeviceTree.offset, Forest.offset, hij, if_false,
          offset_eq_none (fun hx => hd j hx hjn), Option.map_eq_some_iff] at ho
        obtain ⟨o₁, ho₁, rfl⟩ := ho
        rw [(ihn ts _).2 j hj' o₁ ho₁ hnn]
        congr 1
        omega

theorem Repr.subnodeOffset {id o : Nat} (h : Repr fdt T) (ho : DeviceTree.offset T id = some o)
    {name : Bytes} (hname : 0 ∉ name) :
    (T.childOf id (DtNode.isNamed name) = none → fdtSubnodeOffset fdt o name = errNotFound) ∧
      ∀ j, T.childOf id (DtNode.isNamed name) = some j → ∀ oj, DeviceTree.offset T j = some oj →
        fdtSubnodeOffset fdt o name = oj := by
  have hid : id ∈ T.ids := mem_of_offset ho
  obtain ⟨⟨n, sub⟩, hf⟩ := find?_isSome hid
  simp only [childOf, hf]
  obtain ⟨pre, pad, ps, ss, post, hat, hps, hss, ho', -⟩ := h.split hf
  obtain rfl : weight Tok.size pre = o := by simpa [ho] using ho'.symm
  have hnode : At fdt (weight Tok.size pre)
      (.beginNode n.name pad :: (ps ++ (ss ++ (.endNode :: post)))) := by
    simpa using hat.append
  have hsub : fdtSubnodeOffset fdt (weight Tok.size pre) name =
      scan name (ss ++ (.endNode :: post)) (weight Tok.size pre + n.openSize) 0 := by
    have hpos : (0 : Int) ≤ (weight Tok.size pre : Nat) ∧ (0 : Int) ≤ 0 := by omega
    have h₁ : ¬((0 : Int) = 1 ∧ fdtNodenameEq fdt (weight Tok.size pre : Nat) name = true) := by
      omega
    have h₂ : ¬((weight Tok.size pre + (Tok.beginNode n.name pad).size : Nat) : Int) < 0 := by omega
    have hlt := hnode.tail.length_lt_fuel
    have hlt' := hnode.length_lt_fuel
    rw [List.length_cons] at hlt'
    have hw := NodeEnc.weight (show NodeEnc fdt.dtStrings n (.beginNode n.name pad :: ps) from
      ⟨pad, ps, rfl, hps⟩)
    rw [weight_cons] at hw
    rw [fdtSubnodeOffset, show fdtFuel fdt = fdt.dtStruct.length + 1 from rfl, subnodeLoop,
      if_pos hpos, if_neg h₁]
    simp only [fdtNextNode, hpos.1, if_true, checkNodeOffset_eq hnode, if_neg h₂]
    rw [subnodeLoop_eq_scan hname hnode.tail hlt (by unfold fdtFuel at hlt'; omega) hpos.2,
      scan_props hps, ← hw, Nat.add_assoc]
  obtain ⟨hnone, hsome⟩ := scan_children name hss post (weight Tok.size pre + n.openSize)
  rw [hsub]
  refine ⟨hnone, fun j hj oj hoj => ?_⟩
  obtain ⟨o', ho'⟩ := DeviceTree.offset_isSome (child?_mem hj)
  have hnd : sub.ids.Nodup := by
    have := nodup_of_find? h.nodup hf
    exact this
  rw [hsome j hj o' ho' hnd]
  have hc := offset_child h.nodup hf ho ho'
  unfold DeviceTree.offset at hoj
  rw [hc, Option.some.injEq] at hoj
  omega

theorem zero_not_mem_of_mem_components {path c : Bytes} (h : 0 ∉ path)
    (hc : c ∈ pathComponents path) : 0 ∉ c := by
  have hc' := (List.mem_filter.mp hc).1
  clear hc
  induction path generalizing c with
  | nil =>
    simp only [List.splitOn_nil, List.mem_singleton] at hc'
    simp [hc']
  | cons b path ih =>
    simp only [List.mem_cons, not_or] at h
    rw [List.splitOn_cons_eq_if_modifyHead] at hc'
    split at hc'
    · rcases List.mem_cons.mp hc' with rfl | hc'
      · simp
      · exact ih h.2 hc'
    · cases hs : path.splitOn slash with
      | nil => exact absurd hs (List.splitOn_ne_nil _ _)
      | cons x xs =>
        rw [hs, List.modifyHead_cons, List.mem_cons] at hc'
        rcases hc' with rfl | hc'
        · have hx := ih h.2 (c := x) (by simp [hs])
          simp [h.1, hx]
        · exact ih h.2 (by simp [hs, hc'])

theorem Repr.pathLoop {id o : Nat} (h : Repr fdt T) (ho : DeviceTree.offset T id = some o)
    (hid : id ∈ T.ids) (cs : List Bytes) (hcs : ∀ c ∈ cs, 0 ∉ c) :
    (T.walk id (cs.map DtNode.isNamed) = none → pathLoop fdt o cs = errNotFound) ∧
      ∀ j, T.walk id (cs.map DtNode.isNamed) = some j → ∀ oj, DeviceTree.offset T j = some oj →
        pathLoop fdt o cs = oj := by
  induction cs generalizing id o with
  | nil =>
    refine ⟨fun hw => by simp [walk] at hw, fun j hj oj hoj => ?_⟩
    obtain rfl : id = j := by simpa [walk] using hj
    obtain rfl : o = oj := by simpa [ho] using hoj
    rfl
  | cons c cs ih =>
    have hcs' : ∀ d ∈ cs, 0 ∉ d := fun d hd => hcs d (List.mem_cons_of_mem _ hd)
    obtain ⟨⟨n, sub⟩, hf⟩ := find?_isSome hid
    obtain ⟨hnone, hsome⟩ := h.subnodeOffset ho (hcs c List.mem_cons_self)
    simp only [childOf, hf] at hnone hsome
    simp only [List.map_cons, walk, hf, Libfdt.pathLoop]
    cases hc : sub.child? (DtNode.isNamed c) with
    | none =>
      refine ⟨fun _ => ?_, fun j hj => by simp at hj⟩
      rw [hnone hc, if_pos (by simp [errNotFound])]
    | some k =>
      have hk := ids_subset_of_find? hf (child?_mem hc)
      obtain ⟨ok, hok⟩ := DeviceTree.offset_isSome hk
      rw [hsome k hc ok hok, if_neg (by omega)]
      exact ih hok hk hcs'

theorem Repr.pathOffset_abs {path : Bytes} (h : Repr fdt T) (hz : 0 ∉ path)
    (habs : path.head? = some slash) :
    (DeviceTree.lookup T path = none → fdtPathOffset fdt path = errNotFound) ∧
      ∀ j, DeviceTree.lookup T path = some j → ∀ oj, DeviceTree.offset T j = some oj →
        fdtPathOffset fdt path = oj := by
  have := h.pathLoop h.offset_root h.root_mem (pathComponents path)
    fun c hc => zero_not_mem_of_mem_components hz hc
  rw [fdtPathOffset, aliasFuel, fdtPathOffsetAux, if_pos habs]
  exact this

theorem DeviceTree.lookup_mem {path : Bytes} (h : Repr fdt T) {j : Nat}
    (hj : DeviceTree.lookup T path = some j) : j ∈ T.ids := walk_mem h.root_mem hj

theorem aliasPath_abs {name p : Bytes} (h : DeviceTree.aliasPath T name = some p) :
    0 ∉ p ∧ p.head? = some slash := by
  unfold DeviceTree.aliasPath at h
  split at h
  · split at h
    · rename_i v _
      split at h
      · rename_i hc
        obtain rfl : cstr v = p := by simpa using h
        refine ⟨zero_not_mem_cstr v, ?_⟩
        cases v with
        | nil => simp at hc
        | cons b v =>
          obtain rfl : b = slash := by simpa using hc.2
          simp [cstr, slash]
      · cases h
    · cases h
  · cases h

theorem Repr.getAlias {name p : Bytes} (h : Repr fdt T)
    (ha : DeviceTree.aliasPath T name = some p) : fdtGetAlias fdt name = some p := by
  unfold DeviceTree.aliasPath at ha
  cases hl : DeviceTree.lookup T strAliases with
  | none => simp [hl] at ha
  | some a =>
    have hmem := DeviceTree.lookup_mem h hl
    obtain ⟨⟨n, sub⟩, hf⟩ := find?_isSome hmem
    obtain ⟨o, ho⟩ := DeviceTree.offset_isSome hmem
    have hn : T.get? a = some n := by simp [get?, hf]
    simp only [hl, Option.bind_some, hn] at ha
    cases hv : n.getprop name with
    | none => simp [hv] at ha
    | some v =>
      simp only [hv] at ha
      obtain ⟨hz, hp⟩ : 0 ∈ v ∧ cstr v = p := by
        split at ha
        · rename_i hc
          exact ⟨hc.1, by simpa using ha⟩
        · cases ha
      obtain ⟨q, hget, -, rest, hdrop⟩ := h.getprop_some hn ho hv
      have hpath := (h.pathLoop h.offset_root h.root_mem (pathComponents strAliases)
        (by decide)).2 a hl o ho
      have hpath' : Libfdt.pathLoop fdt 0 (pathComponents strAliases) = (o : Int) := hpath
      simp only [fdtGetAlias, hpath', hget, Option.map_some, cstrAt, Int.toNat_natCast, hdrop,
        cstr_append_of_mem hz, hp]
      rw [if_neg (by omega)]

theorem Repr.pathOffset {path : Bytes} (h : Repr fdt T) (hz : 0 ∉ path) {j oj : Nat}
    (hr : DeviceTree.resolve T path = some j) (hoj : DeviceTree.offset T j = some oj) :
    fdtPathOffset fdt path = oj := by
  unfold DeviceTree.resolve at hr
  split at hr
  · rename_i habs
    exact (h.pathOffset_abs hz habs).2 j hr oj hoj
  · rename_i habs
    obtain ⟨id, hid, hw⟩ := Option.bind_eq_some_iff.mp hr
    obtain ⟨p, hp, hl⟩ := Option.bind_eq_some_iff.mp hid
    have hmem := DeviceTree.lookup_mem h hl
    obtain ⟨o, ho⟩ := DeviceTree.offset_isSome hmem
    obtain ⟨hzp, hpabs⟩ := aliasPath_abs hp
    have hrest : 0 ∉ path.dropWhile (· ≠ slash) := fun hm =>
      hz ((List.dropWhile_suffix _).subset hm)
    have hinner : fdtPathOffsetAux fdt 2147483647 p = o := by
      rw [fdtPathOffsetAux, if_pos hpabs]
      exact (h.pathLoop h.offset_root h.root_mem _
        fun c hc => zero_not_mem_of_mem_components hzp hc).2 id hl o ho
    rw [fdtPathOffset, aliasFuel, fdtPathOffsetAux, if_neg habs, h.getAlias hp]
    simp only [hinner]
    exact (h.pathLoop ho hmem _ fun c hc => zero_not_mem_of_mem_components hrest hc).2 j hw oj hoj

theorem DeviceTree.resolve_mem {path : Bytes} (h : Repr fdt T) {j : Nat}
    (hj : DeviceTree.resolve T path = some j) : j ∈ T.ids := by
  unfold DeviceTree.resolve at hj
  split at hj
  · exact DeviceTree.lookup_mem h hj
  · obtain ⟨id, hid, hw⟩ := Option.bind_eq_some_iff.mp hj
    obtain ⟨p, -, hl⟩ := Option.bind_eq_some_iff.mp hid
    exact walk_mem (DeviceTree.lookup_mem h hl) hw

end Babelfish.Libfdt
