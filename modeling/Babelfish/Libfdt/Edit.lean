import Babelfish.Libfdt.Stock

/-! `fdt_setprop`, `fdt_appendprop` and `fdt_add_subnode` as edits of the tree that a blob
represents. -/

namespace Babelfish.Libfdt

open Bytes Forest

variable {fdt : Fdt} {T : DeviceTree}

/-- An edit with result `r` came out as `T'`, or there was not the room it takes at most and the tree
stayed `T`. -/
def Edited (fdt : Fdt) (T T' : DeviceTree) (room : Nat) (ok : Int) (r : Int × Fdt) : Prop :=
  r.1 = ok ∧ Repr r.2 T' ∧ fdt.free.length ≤ r.2.free.length + room ∨
    r.1 = errNoSpace ∧ Repr r.2 T ∧ fdt.free.length < room

theorem Edited.mono {T' : DeviceTree} {room room' : Nat} {ok : Int} {r : Int × Fdt}
    (h : Edited fdt T T' room ok r) (hle : room ≤ room') : Edited fdt T T' room' ok r := by
  rcases h with ⟨hr, hrepr, hfree⟩ | ⟨hr, hrepr, hfree⟩
  · exact Or.inl ⟨hr, hrepr, by omega⟩
  · exact Or.inr ⟨hr, hrepr, by omega⟩

theorem Edited.of_room {T' : DeviceTree} {room : Nat} {ok : Int} {r : Int × Fdt}
    (h : Edited fdt T T' room ok r) (hroom : room ≤ fdt.free.length) :
    r.1 = ok ∧ Repr r.2 T' ∧ fdt.free.length ≤ r.2.free.length + room := by
  rcases h with h | ⟨-, -, hlt⟩
  · exact h
  · omega

theorem Edits.edited {S : Stock} {T' : DeviceTree} {name : Bytes} {need give room : Nat} {ok : Int}
    {r : Int × Fdt} (h : Edits ok r (S.splice T' name need give)) (hs : Stocked fdt S)
    (hroom : name.length + need ≤ room + give) : Edited fdt S.tree T' room ok r := by
  obtain ⟨hr, hrepr, -, hfree⟩ := h
  have hold := hs.free
  unfold Stock.splice at hr hrepr hfree
  by_cases hfits : name.length + need ≤ S.free + give
  · simp only [if_pos hfits] at hr hrepr hfree
    exact Or.inl ⟨hr, hrepr, by omega⟩
  · rw [if_neg hfits] at hr hrepr
    refine Or.inr ⟨?_, ?_, by omega⟩
    · split at hr <;> exact hr
    · split at hrepr <;> exact hrepr

def propRoom (name : Bytes) (len : Nat) : Nat := 12 + align4 len + (name.length + 1)

def setRoom (n : DtNode) (name : Bytes) (len : Nat) : Nat :=
  match n.getprop name with
  | some v => align4 len - align4 v.length
  | none => propRoom name len

theorem setRoom_le (n : DtNode) (name : Bytes) (len : Nat) :
    setRoom n name len ≤ propRoom name len := by
  unfold setRoom propRoom
  split <;> omega

theorem At.congr (fdt' : Fdt) {offset : Nat} {ts : List Tok} (h : At fdt offset ts)
    (hs : fdt'.dtStruct = fdt.dtStruct) : At fdt' offset ts :=
  ⟨h.aligned, hs ▸ h.le, hs ▸ h.drop, h.wf, hs ▸ h.small⟩

theorem Repr.of_tokens {fdt' : Fdt} {T' : DeviceTree} (h : Repr fdt T) {ts us : List Tok}
    (hstruct : fdt'.dtStruct = encode ts) (hwf : ∀ t ∈ ts, t.Wf) (hts : us ++ [.fend] = ts)
    (henc : TreeEnc fdt'.dtStrings T' us) (hn : T'.ids.Nodup)
    (hr : DeviceTree.Rooted T')
    (htotal : fdt'.dtStruct.length + fdt'.dtStrings.length + fdt'.free.length =
      fdt.dtStruct.length + fdt.dtStrings.length + fdt.free.length) : Repr fdt' T' := by
  have hsmall := h.small
  subst hts
  refine ⟨⟨us, ⟨rfl, Nat.zero_le _, by simpa using hstruct, hwf, by omega⟩, henc⟩, hn, hr, by omega⟩

theorem fdtFindAddString_spec (fdt : Fdt) (hs : fdt.dtStrings.length < 2147483648) {name : Bytes}
    (hz : 0 ∉ name) :
    ((newName fdt.dtStrings name).length ≤ fdt.free.length ∧ ∃ p : Nat, fdtFindAddString fdt name =
        ((p : Int), ⟨fdt.dtStruct, fdt.dtStrings ++ newName fdt.dtStrings name,
          fdt.free.drop (newName fdt.dtStrings name).length⟩) ∧
      HasString (fdt.dtStrings ++ newName fdt.dtStrings name) p name ∧ p < 4294967296) ∨
    fdt.free.length < (newName fdt.dtStrings name).length ∧
      fdtFindAddString fdt name = (errNoSpace, fdt) := by
  unfold fdtFindAddString newName
  cases hf : fdtFindString fdt.dtStrings name with
  | some p =>
    refine Or.inl ⟨by simp, p, by simp, ?_, ?_⟩
    · have hp := List.find?_some hf
      simp only [beq_iff_eq] at hp
      refine ⟨hz, (fdt.dtStrings.drop p).drop (name.length + 1), ?_⟩
      rw [Option.isSome_some, if_pos rfl, List.append_nil]
      conv_lhs => rw [← List.take_append_drop (name.length + 1) (fdt.dtStrings.drop p), hp]
      simp
    · have := List.mem_range.mp (List.mem_of_find?_eq_some hf)
      omega
  | none =>
    have hlen : (name ++ [(0 : UInt8)]).length = name.length + 1 := by simp
    simp only [Option.isSome_none, Bool.false_eq_true, if_false, hlen]
    by_cases hfree : fdt.free.length < name.length + 1
    · exact Or.inr ⟨hfree, if_pos hfree⟩
    · exact Or.inl ⟨by omega, fdt.dtStrings.length, if_neg hfree, ⟨hz, [], by simp⟩, by omega⟩

theorem Repr.addStrings (h : Repr fdt T) {more free' : Bytes}
    (hfree : free'.length + more.length = fdt.free.length) :
    Repr ⟨fdt.dtStruct, fdt.dtStrings ++ more, free'⟩ T := by
  obtain ⟨ts, hat, henc⟩ := h.enc
  have hsmall := h.small
  refine ⟨⟨ts, hat.congr _ rfl, henc.mono fun _ _ hn => hn.mono more⟩, h.nodup, h.rooted, ?_⟩
  simp only [List.length_append]
  omega

theorem Stocked.addProperty {S : Stock} {id o : Nat} {n : DtNode} (h : Stocked fdt S)
    (hn : S.tree.get? id = some n) (ho : DeviceTree.offset S.tree id = some o)
    {name : Bytes} (hz : 0 ∉ name) (val : Bytes) :
    Edits 0
      (if (fdtAddProperty fdt o name val.length).1 ≠ 0
        then ((fdtAddProperty fdt o name val.length).1, (fdtAddProperty fdt o name val.length).2.2)
        else (0, (fdtAddProperty fdt o name val.length).2.2.write
          ((fdtAddProperty fdt o name val.length).2.1 + 12) val))
      (S.splice (S.tree.modify id fun n => { n with props := (name, val) :: n.props })
        (newName S.strings name) (12 + align4 val.length) 0) := by
  obtain ⟨T, strings, free⟩ := S
  obtain ⟨h, rfl, rfl⟩ := h
  have hsmall := h.small
  obtain ⟨⟨n', sub⟩, hf, rfl⟩ := Option.map_eq_some_iff.mp hn
  obtain ⟨pre, pad, ps, ss, post, hat, hps, hss, ho', hedit⟩ := h.split hf
  obtain rfl : weight Tok.size pre = o := by simpa [ho] using ho'.symm
  have hat' : At fdt 0 ((pre ++ [.beginNode n'.name pad]) ++ (ps ++ (ss ++ (.endNode :: post)))) := by
    simpa using hat
  have hcheck := checkNodeOffset_append hat
  have hpos : ∀ m : Nat, ¬((m : Int) < 0) := fun m => by omega
  unfold fdtAddProperty
  simp only [hcheck, if_neg (hpos _)]
  unfold Stock.splice
  simp only [Nat.add_zero]
  rcases fdtFindAddString_spec fdt (by omega) hz with ⟨hle, p, hadd, hstr, hlt⟩ | ⟨hfree, hadd⟩
  · generalize newName fdt.dtStrings name = more at hle hadd hstr ⊢
    have hfree' : (fdt.free.drop more.length).length + more.length = fdt.free.length := by
      rw [List.length_drop]
      omega
    generalize fdt.free.drop more.length = free' at hadd hfree'
    have hstrings := h.addStrings hfree'
    simp only [hadd, if_neg (hpos p)]
    by_cases hroom : 12 + align4 val.length ≤ free'.length
    · rw [if_pos (show more.length + (12 + align4 val.length) ≤ fdt.free.length by omega)]
      obtain ⟨M, free'', hok, hwrite, hM, hfree''⟩ := splice_new_prop
        (hat'.congr ⟨fdt.dtStruct, fdt.dtStrings ++ more, free'⟩ rfl) val.length p hroom
      obtain ⟨vpad, hvpad, hval⟩ := withProp_write (ps ++ (ss ++ (.endNode :: post))) p [] val
        (fdt.dtStrings ++ more) free''
        (fun t ht => hat'.wf t (List.mem_append_left _ ht)) (by simpa using hM) rfl
        (p := ((weight Tok.size (pre ++ [Tok.beginNode n'.name pad]) : Nat) : Int) + 12)
        (by simp)
      simp only [List.nil_append, List.length_nil, Nat.zero_add] at hval hvpad
      simp only at hfree''
      simp only [hok, ne_eq, not_true_eq_false, if_false, Int.toNat_natCast, hwrite, hval]
      obtain ⟨us, henc, hus⟩ := hedit (fun n s => ({ n with props := (name, val) :: n.props }, s))
        more (.beginNode n'.name pad :: .prop p val vpad :: ps) ss
        ⟨pad, _, rfl, .cons hstr (hps.mono more)⟩ (hss.mono fun _ _ hn => hn.mono more)
      have hwf : ∀ t ∈ (pre ++ [.beginNode n'.name pad]) ++
          Tok.prop p val vpad :: (ps ++ (ss ++ (.endNode :: post))), t.Wf := by
        intro t ht
        have hold := hat'.wf t
        rw [List.mem_append] at ht hold
        rw [List.mem_cons] at ht
        rcases ht with ht | rfl | ht
        · exact hold (Or.inl ht)
        · exact ⟨hlt, hvpad⟩
        · exact hold (Or.inr ht)
      have hold := hat'.length_eq
      have hnew := length_encode hwf
      simp only [weight_append, weight_cons, Tok.size] at hold hnew
      refine ⟨rfl, ?_, rfl, by simp only; omega⟩
      refine h.of_tokens rfl hwf (show us ++ [.fend] = _ by rw [hus]; simp) henc ?_
        (h.rooted.update _ _) ?_
      · exact (ids_modify id (fun n => { n with props := (name, val) :: n.props }) T) ▸ h.nodup
      · simp only [hnew, List.length_append]
        omega
    · rw [if_neg (show ¬(more.length + (12 + align4 val.length) ≤ fdt.free.length) by omega), if_pos hle]
      have hfull : free'.length < 12 + align4 val.length := by omega
      have hns : fdtSpliceStruct ⟨fdt.dtStruct, fdt.dtStrings ++ more, free'⟩
          (weight Tok.size (pre ++ [.beginNode n'.name pad]) : Nat) 0 (12 + fdtTagAlign val.length) =
          (errNoSpace, ⟨fdt.dtStruct, fdt.dtStrings ++ more, free'⟩) :=
        splice_new_prop_noSpace
          (hat'.congr ⟨fdt.dtStruct, fdt.dtStrings ++ more, free'⟩ rfl) hfull
      simp only [hns]
      rw [if_pos (by simp [errNoSpace]), if_pos (by simp [errNoSpace])]
      exact ⟨rfl, hstrings, rfl, by simp only; omega⟩
  · simp only [hadd]
    rw [if_pos (by simp [errNoSpace]), if_pos (by simp [errNoSpace]), if_neg (by omega),
      if_neg (by omega)]
    exact ⟨rfl, h, rfl, rfl⟩

theorem Stocked.replaceValue {S : Stock} {id o : Nat} {n : DtNode} (h : Stocked fdt S)
    (hn : S.tree.get? id = some n) (ho : DeviceTree.offset S.tree id = some o)
    {name v : Bytes} (hp : n.getprop name = some v) (keep val : Bytes)
    (hkeep : keep = [] ∨ keep = v) {p : Int} (hprop : p = fdtGetProperty fdt o name) :
    0 ≤ p ∧ propLen fdt p = v.length ∧
    Edits 0
      (if (fdtSpliceStruct fdt (p + 12) (fdtTagAlign v.length)
          (fdtTagAlign ((keep.length + val.length : Nat) : Int))).1 ≠ 0
        then fdtSpliceStruct fdt (p + 12) (fdtTagAlign v.length)
          (fdtTagAlign ((keep.length + val.length : Nat) : Int))
        else (0, ((fdtSpliceStruct fdt (p + 12) (fdtTagAlign v.length)
          (fdtTagAlign ((keep.length + val.length : Nat) : Int))).2.write (p + 4)
            (be32 (keep.length + val.length))).write (p + 12 + keep.length) val))
      (S.splice (S.tree.modify id (DtNode.setprop name (keep ++ val))) []
        (align4 (keep.length + val.length)) (align4 v.length)) := by
  obtain ⟨T, strings, free⟩ := S
  obtain ⟨h, rfl, rfl⟩ := h
  have hsmall := h.small
  obtain ⟨⟨n', sub⟩, hf, rfl⟩ := Option.map_eq_some_iff.mp hn
  obtain ⟨pre, pad, ps, ss, post, hat, hps, hss, ho', hedit⟩ := h.split hf
  obtain rfl : weight Tok.size pre = o := by simpa [ho] using ho'.symm
  obtain ⟨l₁, l₂, ps₁, nameoff, vpad, ps₂, hl, hl₁, rfl, h₁, hs, h₂⟩ := hps.split hp
  have hnode : At fdt (weight Tok.size pre)
      (.beginNode n'.name pad :: ps₁ ++
        (.prop nameoff v vpad :: (ps₂ ++ (ss ++ (.endNode :: post))))) := by
    simpa using hat.append
  have hat' : At fdt 0 ((pre ++ .beginNode n'.name pad :: ps₁) ++
      .prop nameoff v vpad :: (ps₂ ++ (ss ++ (.endNode :: post)))) := by
    simpa using hat
  have hget := fdtGetProperty_eq_some hnode h₁ hl₁ hs
  obtain rfl : p = (weight Tok.size (pre ++ .beginNode n'.name pad :: ps₁) : Nat) := by
    rw [hprop, hget]
    simp only [weight_append, weight_cons]
    omega
  have hlen : keep.length = 0 ∨ keep.length = v.length := by
    rcases hkeep with rfl | rfl
    · exact Or.inl rfl
    · exact Or.inr rfl
  refine ⟨by omega, propLen_eq (by simpa using hat'.append), ?_⟩
  unfold Stock.splice
  simp only [List.length_nil, Nat.zero_add, List.append_nil, Nat.zero_le, if_true, Nat.sub_zero]
  by_cases hroom : align4 (keep.length + val.length) ≤ align4 v.length + fdt.free.length
  · rw [if_pos (show align4 (keep.length + val.length) ≤ fdt.free.length + align4 v.length by omega)]
    obtain ⟨M, free', hok, hwrite, hM, htake, hfree'⟩ := splice_prop hat' hroom
    have hkeepM : M.take keep.length = keep := by
      rcases hkeep with rfl | rfl
      · simp
      · exact htake (by omega)
    obtain ⟨vpad', hvpad, hval⟩ := withProp_write (ps₂ ++ (ss ++ (.endNode :: post))) nameoff keep val
      fdt.dtStrings free'
      (fun t ht => hat'.wf t (List.mem_append_left _ ht)) hM hkeepM
      (p := ((weight Tok.size (pre ++ .beginNode n'.name pad :: ps₁) : Nat) : Int) + 12 +
        keep.length) (by omega)
    rw [if_neg (by rw [hok]; simp), hwrite, hval]
    obtain ⟨us, henc, hus⟩ := hedit (fun n s => (n.setprop name (keep ++ val), s)) []
      (.beginNode n'.name pad :: (ps₁ ++ .prop nameoff (keep ++ val) vpad' :: ps₂)) ss
      ⟨pad, _, rfl, by
        rw [List.append_nil]
        simp only [DtNode.setprop, hl, Assoc.upsert_append hl₁]
        exact h₁.append (.cons hs h₂)⟩ (by simpa using hss)
    rw [List.append_nil] at henc
    have hwf : ∀ t ∈ (pre ++ .beginNode n'.name pad :: ps₁) ++
        .prop nameoff (keep ++ val) vpad' :: (ps₂ ++ (ss ++ (.endNode :: post))), t.Wf := by
      intro t ht
      have hold := hat'.wf t
      rw [List.mem_append, List.mem_cons] at ht hold
      rcases ht with ht | rfl | ht
      · exact hold (Or.inl ht)
      · exact ⟨(hat'.wf (.prop nameoff v vpad) (by simp)).1, hvpad⟩
      · exact hold (Or.inr (Or.inr ht))
    have hold := hat'.length_eq
    have hnew := length_encode hwf
    simp only [weight_append, weight_cons, Tok.size, List.length_append] at hold hnew
    refine ⟨rfl, ?_, rfl, by simp only; omega⟩
    refine h.of_tokens rfl hwf (show us ++ [.fend] = _ by rw [hus]; simp) henc ?_
      (h.rooted.update _ _) ?_
    · exact (ids_modify id (DtNode.setprop name (keep ++ val)) T) ▸ h.nodup
    · simp only [hnew]
      omega
  · rw [if_neg (show ¬(align4 (keep.length + val.length) ≤ fdt.free.length + align4 v.length) by omega)]
    have hns := splice_prop_noSpace hat' (keep.length + val.length) (by omega)
    rw [hns, if_pos (by simp [errNoSpace])]
    exact ⟨rfl, h, rfl, rfl⟩

theorem Repr.getProperty_none {id o : Nat} {n : DtNode} (h : Repr fdt T)
    (hn : T.get? id = some n) (ho : DeviceTree.offset T id = some o) {name : Bytes}
    (hp : n.getprop name = none) : fdtGetProperty fdt o name = errNotFound := by
  have hget := h.getprop_none hn ho hp
  unfold fdtGetprop at hget
  by_cases hneg : fdtGetProperty fdt o name < 0
  · simpa [hneg] using hget
  · simp [hneg] at hget

theorem fdtSetprop_of_neg {o : Int} (ho : o < 0) (name val : Bytes) :
    fdtSetprop fdt o name val = (errBadOffset, fdt) := by
  have hcheck : fdtCheckNodeOffset fdt o = errBadOffset := by
    rw [fdtCheckNodeOffset, if_pos (Or.inl ho)]
  have hneg : errBadOffset < 0 := by simp [errBadOffset]
  have hprop : fdtGetProperty fdt o name = errBadOffset := by
    simp only [fdtGetProperty, fdtFirstPropertyOffset, hcheck, if_pos hneg, fdtFuel, propertyLoop]
  have hne : ¬(errBadOffset = errNotFound) := by simp [errBadOffset, errNotFound]
  have hne' : errBadOffset ≠ 0 := by simp [errBadOffset]
  simp only [fdtSetprop, fdtResizeProperty, hprop, if_pos hneg, if_neg hne, if_pos hne']

theorem Stocked.setprop {S : Stock} {id o : Nat} {n : DtNode} (h : Stocked fdt S)
    (hn : S.tree.get? id = some n) (ho : DeviceTree.offset S.tree id = some o)
    {name : Bytes} (hz : 0 ∉ name) (val : Bytes) :
    Edits 0 (fdtSetprop fdt o name val) (S.setprop id name val) := by
  obtain ⟨⟨n', sub⟩, hf, rfl⟩ := Option.map_eq_some_iff.mp hn
  have hvalue : S.value id name = n'.getprop name := by rw [Stock.value, hn]; rfl
  cases hp : n'.getprop name with
  | none =>
    have hadd := h.addProperty hn ho hz val
    rw [modify_congr h.repr.nodup hf (DtNode.setprop name val) (by
      simp [DtNode.setprop, Assoc.upsert_of_none (show n'.props.lookup name = none from hp)])] at hadd
    have hlt : errNotFound < 0 := by simp [errNotFound]
    rw [Stock.setprop, Stock.put_eq_none (hvalue.trans hp)]
    simpa only [fdtSetprop, fdtResizeProperty, h.repr.getProperty_none hn ho hp, if_pos hlt,
      if_true] using hadd
  | some v =>
    obtain ⟨hpos, hlen, hedit⟩ := h.replaceValue hn ho hp [] val (Or.inl rfl) rfl
    have hneg : ¬fdtGetProperty fdt o name < 0 := by omega
    simp only [List.length_nil, Nat.zero_add, List.nil_append] at hedit
    rw [Stock.setprop, Stock.put_eq_some (hvalue.trans hp)]
    simp only [fdtSetprop, fdtResizeProperty, if_neg hneg, hlen, Int.toNat_natCast]
    by_cases hr : (fdtSpliceStruct fdt (fdtGetProperty fdt o name + 12) (fdtTagAlign v.length)
        (fdtTagAlign val.length)).1 ≠ 0
    · rw [if_pos hr] at hedit
      simp only [if_pos hr]
      have hns : (fdtSpliceStruct fdt (fdtGetProperty fdt o name + 12) (fdtTagAlign v.length)
          (fdtTagAlign val.length)).1 = errNoSpace := by
        have hret := hedit.ret
        split at hret
        · exact absurd hret hr
        · exact hret
      have hne : errNoSpace ≠ errNotFound := by simp [errNoSpace, errNotFound]
      simp only [hns, if_neg hne]
      rw [if_pos (by simp [errNoSpace]), ← hns]
      exact hedit
    · rw [if_neg hr] at hedit
      have hne : (0 : Int) ≠ errNotFound := by simp [errNotFound]
      simpa only [if_neg hr, if_neg hne, ne_eq, not_true_eq_false, if_false, Int.add_zero,
        Int.ofNat_zero] using hedit

theorem Stocked.appendprop {S : Stock} {id o : Nat} {n : DtNode} (h : Stocked fdt S)
    (hn : S.tree.get? id = some n) (ho : DeviceTree.offset S.tree id = some o)
    {name : Bytes} (hz : 0 ∉ name) (val : Bytes) :
    Edits 0 (fdtAppendprop fdt o name val) (S.appendprop id name val) := by
  obtain ⟨⟨n', sub⟩, hf, rfl⟩ := Option.map_eq_some_iff.mp hn
  have hvalue : S.value id name = n'.getprop name := by rw [Stock.value, hn]; rfl
  cases hp : n'.getprop name with
  | none =>
    have hadd := h.addProperty hn ho hz val
    rw [modify_congr h.repr.nodup hf (DtNode.appendprop name val) (by
      simp [DtNode.appendprop, Assoc.upsert_of_none (show n'.props.lookup name = none from hp)])]
      at hadd
    have hlt : ¬(0 ≤ errNotFound) := by simp [errNotFound]
    rw [Stock.appendprop, Stock.put_eq_none (hvalue.trans hp), hvalue, hp]
    simpa only [fdtAppendprop, h.repr.getProperty_none hn ho hp, if_neg hlt, Option.getD_none,
      List.length_nil, Nat.zero_add] using hadd
  | some v =>
    obtain ⟨hpos, hlen, hedit⟩ := h.replaceValue hn ho hp v val (Or.inr rfl) rfl
    rw [modify_congr h.repr.nodup hf (DtNode.appendprop name val) (by
      obtain ⟨l₁, l₂, hl, hl₁⟩ := Assoc.exists_of_lookup (show n'.props.lookup name = some v from hp)
      simp [DtNode.setprop, DtNode.appendprop, hl, Assoc.upsert_append hl₁])] at hedit
    have hsum : ((val.length : Int) + v.length) = ((v.length + val.length : Nat) : Int) := by omega
    rw [Stock.appendprop, Stock.put_eq_some (hvalue.trans hp), hvalue, hp]
    simpa only [fdtAppendprop, if_pos hpos, hlen, hsum, Int.toNat_natCast, Option.getD_some] using hedit

theorem Repr.setprop {id o : Nat} {n : DtNode} (h : Repr fdt T)
    (hn : T.get? id = some n) (ho : DeviceTree.offset T id = some o)
    {name : Bytes} (hz : 0 ∉ name) (val : Bytes) :
    Edited fdt T (T.modify id (DtNode.setprop name val)) (setRoom n name val.length) 0
      (fdtSetprop fdt o name val) := by
  have hedit := h.stocked.setprop hn ho hz val
  have hname := length_newName_le fdt.dtStrings name
  have hvalue : Stock.value ⟨T, fdt.dtStrings, fdt.free.length⟩ id name = n.getprop name := by
    rw [Stock.value, hn]
    rfl
  unfold Stock.setprop at hedit
  cases hp : n.getprop name with
  | none =>
    rw [Stock.put_eq_none (hvalue.trans hp)] at hedit
    simp only [setRoom, hp, propRoom]
    exact hedit.edited h.stocked (by simp only; omega)
  | some v =>
    rw [Stock.put_eq_some (hvalue.trans hp)] at hedit
    simp only [setRoom, hp]
    exact hedit.edited h.stocked (by simp only [List.length_nil]; omega)

theorem Repr.appendprop {id o : Nat} {n : DtNode} (h : Repr fdt T)
    (hn : T.get? id = some n) (ho : DeviceTree.offset T id = some o)
    {name : Bytes} (hz : 0 ∉ name) (val : Bytes) :
    Edited fdt T (T.modify id (DtNode.appendprop name val)) (propRoom name val.length) 0
      (fdtAppendprop fdt o name val) := by
  have hedit := h.stocked.appendprop hn ho hz val
  have hname := length_newName_le fdt.dtStrings name
  unfold propRoom
  unfold Stock.appendprop at hedit
  cases hp : Stock.value ⟨T, fdt.dtStrings, fdt.free.length⟩ id name with
  | none =>
    rw [Stock.put_eq_none hp, hp] at hedit
    exact hedit.edited h.stocked (by simp only [Option.getD_none, List.length_nil, Nat.zero_add]; omega)
  | some v =>
    have hle := align4_add_le v.length val.length
    rw [Stock.put_eq_some hp, hp] at hedit
    exact hedit.edited h.stocked (by simp only [Option.getD_some, List.length_nil]; omega)

theorem skipProps_eq {props : List (Bytes × Bytes)} {ps ts : List Tok}
    (hp : PropsEnc fdt.dtStrings props ps) (hts : NotProp ts) {offset : Nat}
    (h : At fdt offset (ps ++ ts)) {fuel : Nat} (hfuel : ps.length < fuel) :
    skipProps fdt fuel offset = ((offset + weight Tok.size ps : Nat) : Int) := by
  induction hp generalizing offset fuel with
  | nil =>
    obtain ⟨f, rfl⟩ : ∃ f, fuel = f + 1 := ⟨fuel - 1, by simp at hfuel; omega⟩
    match ts, hts with
    | .beginNode _ _ :: _, _ =>
      have hh : At fdt offset (.beginNode _ _ :: _) := h
      simp [skipProps, hh.nextTag, Tok.tag]
    | .endNode :: _, _ =>
      have hh : At fdt offset (.endNode :: _) := h
      simp [skipProps, hh.nextTag, Tok.tag]
  | @cons name value pad nameoff props ps _ _ ih =>
    obtain ⟨f, rfl⟩ : ∃ f, fuel = f + 1 := ⟨fuel - 1, by simp at hfuel; omega⟩
    have hh : At fdt offset (.prop nameoff value pad :: (ps ++ ts)) := h
    simp only [skipProps, hh.nextTag, Tok.tag]
    rw [ih hh.tail (by simp at hfuel; omega), weight_cons, Nat.add_assoc]

theorem Stocked.addSubnode {S : Stock} {id o new : Nat} {n : DtNode} (h : Stocked fdt S)
    (hn : S.tree.get? id = some n) (ho : DeviceTree.offset S.tree id = some o) {name : Bytes}
    (hz : 0 ∉ name) (hnone : S.tree.childOf id (DtNode.isNamed name) = none) (hfresh : new ∉ S.tree.ids) :
    DeviceTree.offset (S.tree.addFirst id new ⟨name, []⟩) new = some (o + n.openSize) ∧
      Edits ((o + n.openSize : Nat) : Int) (fdtAddSubnode fdt o name) (S.addSubnode id new name) := by
  obtain ⟨T, strings, free⟩ := S
  obtain ⟨h, rfl, rfl⟩ := h
  obtain ⟨sub, hf⟩ := find?_of_get? hn
  have hoff : DeviceTree.offset (T.addFirst id new ⟨name, []⟩) new = some (o + n.openSize) := by
    have hid : (T.addFirst id new ⟨name, []⟩).offset DtNode.openSize 4 id = some o := by
      rw [addFirst, offset_update_of_precedes h.nodup (Or.inr rfl)]
      exact ho
    have hnew : (Forest.node new (⟨name, []⟩ : DtNode) .nil sub).offset DtNode.openSize 4 new =
        some 0 := by simp [Forest.offset]
    have := offset_child (nodup_addFirst h.nodup hfresh _) (find?_addFirst_self hf new ⟨name, []⟩)
      hid hnew
    simpa [DeviceTree.offset] using this
  refine ⟨hoff, ?_⟩
  have hsubnode := (h.subnodeOffset ho hz).1 hnone
  obtain ⟨pre, pad, ps, ss, post, hat, hps, hss, ho', hedit⟩ := h.split hf
  obtain rfl : weight Tok.size pre = o := by simpa [ho] using ho'.symm
  have hnode : At fdt (weight Tok.size pre)
      (.beginNode n.name pad :: (ps ++ (ss ++ (.endNode :: post)))) := by
    simpa using hat.append
  have hat' : At fdt 0 ((pre ++ .beginNode n.name pad :: ps) ++ (ss ++ (.endNode :: post))) := by
    simpa using hat
  have hskip : skipProps fdt (fdtFuel fdt) (fdtNextTag fdt (weight Tok.size pre : Nat)).2 =
      (weight Tok.size (pre ++ .beginNode n.name pad :: ps) : Nat) := by
    have hlt := hnode.length_lt_fuel
    simp only [List.length_cons, List.length_append] at hlt
    rw [hnode.nextTag, skipProps_eq hps (hss.notProp post) hnode.tail (by omega)]
    simp only [weight_append, weight_cons, Nat.add_assoc]
  have hw := NodeEnc.weight (show NodeEnc fdt.dtStrings n (.beginNode n.name pad :: ps) from
    ⟨pad, ps, rfl, hps⟩)
  have hneg : ¬(0 ≤ errNotFound) := by simp [errNotFound]
  simp only [fdtAddSubnode, hsubnode, if_neg hneg, ne_eq, not_true_eq_false, if_false, hskip]
  unfold Stock.addSubnode Stock.splice
  simp only [List.length_nil, Nat.zero_add, Nat.add_zero, List.append_nil, Nat.zero_le, if_true,
    Nat.sub_zero]
  by_cases hroom : nodeRoom name ≤ fdt.free.length
  · rw [if_pos hroom]
    obtain ⟨npad, free', hpad, hok, hwrite, hfree'⟩ := splice_new_node hat' hroom
    simp only [hok, not_true_eq_false, if_false, hwrite]
    obtain ⟨us, henc, hus⟩ := hedit (fun a sub => (a, .node new ⟨name, []⟩ .nil sub)) []
      (.beginNode n.name pad :: ps) (.beginNode name npad :: .endNode :: ss)
      ⟨pad, ps, rfl, by simpa using hps⟩ (by
        have hnew : NodeEnc (fdt.dtStrings ++ []) ⟨name, []⟩ [.beginNode name npad] :=
          ⟨npad, [], rfl, .nil⟩
        have hsub : TreeEnc (fdt.dtStrings ++ []) sub ss := by simpa using hss
        exact Flat.node hnew .nil hsub)
    rw [List.append_nil] at henc
    have hwf : ∀ t ∈ (pre ++ .beginNode n.name pad :: ps) ++
        .beginNode name npad :: .endNode :: (ss ++ (.endNode :: post)), t.Wf := by
      intro t ht
      have hold := hat'.wf t
      rw [List.mem_append] at ht hold
      rw [List.mem_cons, List.mem_cons] at ht
      rcases ht with ht | rfl | rfl | ht
      · exact hold (Or.inl ht)
      · exact ⟨hz, hpad⟩
      · trivial
      · exact hold (Or.inr ht)
    have hold := hat'.length_eq
    have hnew := length_encode hwf
    simp only [weight_append, weight_cons, Tok.size] at hold hnew
    refine ⟨?_, ?_, rfl, by unfold nodeRoom; simp only; omega⟩
    · simp only [weight_append, hw, if_true]
    · refine h.of_tokens rfl hwf (show us ++ [.fend] = _ by rw [hus]; simp) henc
        (nodup_addFirst h.nodup hfresh _) (h.rooted.update _ _) ?_
      simp only [hnew]
      unfold nodeRoom at hroom
      omega
  · rw [if_neg hroom]
    have hns := splice_new_node_noSpace hat' (n := align4 (name.length + 1))
      (by unfold nodeRoom at hroom; omega)
    simp only [hns]
    rw [if_pos (by simp [errNoSpace])]
    exact ⟨rfl, h, rfl, rfl⟩

theorem Repr.addSubnode {id o new : Nat} {n : DtNode} (h : Repr fdt T)
    (hn : T.get? id = some n) (ho : DeviceTree.offset T id = some o) {name : Bytes} (hz : 0 ∉ name)
    (hnone : T.childOf id (DtNode.isNamed name) = none) (hfresh : new ∉ T.ids) :
    DeviceTree.offset (T.addFirst id new ⟨name, []⟩) new = some (o + n.openSize) ∧
      Edited fdt T (T.addFirst id new ⟨name, []⟩) (nodeRoom name) ((o + n.openSize : Nat) : Int)
        (fdtAddSubnode fdt o name) := by
  obtain ⟨hoff, hedit⟩ := h.stocked.addSubnode hn ho hz hnone hfresh
  exact ⟨hoff, hedit.edited h.stocked (by simp only [List.length_nil]; omega)⟩

end Babelfish.Libfdt
