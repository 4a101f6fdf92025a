import Babelfish.Libfdt.Tree

/-! The lookups of libfdt on a blob that represents a tree. -/

namespace Babelfish.Libfdt

open Bytes Forest

variable {fdt : Fdt} {T : DeviceTree}

theorem At.length_lt_fuel {offset : Nat} {ts : List Tok} (h : At fdt offset ts) :
    ts.length < fdtFuel fdt := by
  have hw : ts.length ≤ weight Tok.size ts := by
    clear h
    induction ts with
    | nil => rfl
    | cons t ts ih =>
      have := t.four_le_size
      rw [List.length_cons, weight_cons]
      omega
  have := h.length_eq
  unfold fdtFuel
  omega

def NotProp : List Tok → Prop
  | .beginNode _ _ :: _ => True
  | .endNode :: _ => True
  | _ => False

theorem TreeEnc.notProp {strings : Bytes} {sub : DeviceTree} {ss : List Tok}
    (h : TreeEnc strings sub ss) (post : List Tok) : NotProp (ss ++ (.endNode :: post)) := by
  cases h with
  | nil => trivial
  | node ha _ _ =>
    obtain ⟨pad, ps, rfl, -⟩ := ha
    trivial

theorem nextprop_of_prop {offset nameoff : Nat} {value pad : Bytes} {ts : List Tok}
    (h : At fdt offset (.prop nameoff value pad :: ts)) (fuel : Nat) :
    nextprop fdt (fuel + 1) offset = offset := by
  simp [nextprop, h.nextTag, Tok.tag]

theorem nextprop_of_notProp {offset : Nat} {ts : List Tok} (h : At fdt offset ts)
    (hts : NotProp ts) (fuel : Nat) : nextprop fdt (fuel + 1) offset = errNotFound := by
  match ts, hts with
  | .beginNode _ _ :: _, _ => simp [nextprop, h.nextTag, Tok.tag]
  | .endNode :: _, _ => simp [nextprop, h.nextTag, Tok.tag]

theorem checkNodeOffset_eq {offset : Nat} {name pad : Bytes} {ts : List Tok}
    (h : At fdt offset (.beginNode name pad :: ts)) :
    fdtCheckNodeOffset fdt offset = ((offset + (Tok.beginNode name pad).size : Nat) : Int) := by
  have hal := h.aligned
  have h₁ : ¬((offset : Int) < 0 ∨ (offset : Int) % 4 ≠ 0) := by omega
  simp only [fdtCheckNodeOffset, h₁, if_false, h.nextTag, Tok.tag]

theorem checkNodeOffset_append {pre ts : List Tok} {name pad : Bytes}
    (h : At fdt 0 (pre ++ .beginNode name pad :: ts)) :
    fdtCheckNodeOffset fdt (weight Tok.size pre : Nat) =
      (weight Tok.size (pre ++ [.beginNode name pad]) : Nat) := by
  have hnode : At fdt (weight Tok.size pre) (.beginNode name pad :: ts) := by simpa using h.append
  rw [checkNodeOffset_eq hnode]
  simp

theorem checkPropOffset_eq {offset nameoff : Nat} {value pad : Bytes} {ts : List Tok}
    (h : At fdt offset (.prop nameoff value pad :: ts)) :
    fdtCheckPropOffset fdt offset =
      ((offset + (Tok.prop nameoff value pad).size : Nat) : Int) := by
  have hal := h.aligned
  have h₁ : ¬((offset : Int) < 0 ∨ (offset : Int) % 4 ≠ 0) := by omega
  simp only [fdtCheckPropOffset, h₁, if_false, h.nextTag, Tok.tag]

theorem propertyLoop_skip {name : Bytes} {props : List (Bytes × Bytes)} {ps ts : List Tok}
    (hp : PropsEnc fdt.dtStrings props ps) (hl : props.lookup name = none) {offset : Nat}
    (h : At fdt offset (ps ++ ts)) {fuel : Nat} (hfuel : ps.length < fuel) :
    propertyLoop fdt name fuel (nextprop fdt (fdtFuel fdt) offset) =
      propertyLoop fdt name (fuel - ps.length)
        (nextprop fdt (fdtFuel fdt) ((offset + weight Tok.size ps : Nat) : Int)) := by
  induction hp generalizing offset fuel with
  | nil => simp
  | @cons pname value pad nameoff props ps hs _ ih =>
    obtain ⟨f, rfl⟩ : ∃ f, fuel = f + 1 := ⟨fuel - 1, by simp at hfuel; omega⟩
    rw [List.lookup_cons] at hl
    cases hne : name == pname with
    | true => simp [hne] at hl
    | false =>
      simp only [hne] at hl
      have hne' : (pname == name) = false := by
        simp only [beq_eq_false_iff_ne, ne_eq] at hne ⊢
        exact fun e => hne e.symm
      have hh : At fdt offset (.prop nameoff value pad :: (ps ++ ts)) := h
      have hpos : ¬((offset : Int) < 0) := by omega
      have hcheck := checkPropOffset_eq hh
      have hc : ¬fdtCheckPropOffset fdt offset < 0 := by rw [hcheck]; omega
      have hn : ¬((offset + (Tok.prop nameoff value pad).size : Nat) : Int) < 0 := by omega
      have hf : f - ps.length = f + 1 - (ps.length + 1) := by omega
      have hstr : fdtString fdt (propNameoff fdt offset) = pname := by
        rw [propNameoff, hh.prop_fields.2.1, hs.fdtString]
      rw [fdtFuel, nextprop_of_prop hh, ← fdtFuel]
      rw [propertyLoop, if_neg hpos, if_neg hc, hstr, hne', fdtNextPropertyOffset]
      simp only [hcheck, Bool.false_eq_true, if_false, if_neg hn, weight_cons, List.length_cons]
      rw [ih hl hh.tail (by simp at hfuel; omega), hf, Nat.add_assoc]

theorem fdtFirstPropertyOffset_eq {offset : Nat} {name pad : Bytes} {ts : List Tok}
    (h : At fdt offset (.beginNode name pad :: ts)) :
    fdtFirstPropertyOffset fdt offset = nextprop fdt (fdtFuel fdt)
      ((offset + (Tok.beginNode name pad).size : Nat) : Int) := by
  have hn : ¬((offset + (Tok.beginNode name pad).size : Nat) : Int) < 0 := by omega
  simp only [fdtFirstPropertyOffset, checkNodeOffset_eq h, if_neg hn]

theorem fdtGetProperty_eq_none {offset : Nat} {nname pad name : Bytes}
    {props : List (Bytes × Bytes)} {ps ts : List Tok}
    (h : At fdt offset (.beginNode nname pad :: ps ++ ts)) (hts : NotProp ts)
    (hp : PropsEnc fdt.dtStrings props ps) (hl : props.lookup name = none) :
    fdtGetProperty fdt offset name = errNotFound := by
  have hfuel : ps.length < fdtFuel fdt := by
    have := h.length_lt_fuel
    simp only [List.cons_append, List.length_cons, List.length_append] at this
    omega
  have hrest : At fdt (offset + (Tok.beginNode nname pad).size + weight Tok.size ps) ts :=
    (At.tail (by simpa using h)).append
  rw [fdtGetProperty, fdtFirstPropertyOffset_eq (by simpa using h),
    propertyLoop_skip hp hl (At.tail (by simpa using h)) hfuel]
  obtain ⟨f, hf⟩ : ∃ f, fdtFuel fdt - ps.length = f + 1 := ⟨fdtFuel fdt - ps.length - 1, by omega⟩
  rw [hf, show fdtFuel fdt = fdt.dtStruct.length + 1 from rfl, nextprop_of_notProp hrest hts]
  simp [propertyLoop]

theorem fdtGetProperty_eq_some {offset nameoff : Nat} {nname pad name value vpad : Bytes}
    {props : List (Bytes × Bytes)} {ps ts : List Tok}
    (h : At fdt offset (.beginNode nname pad :: ps ++ (.prop nameoff value vpad :: ts)))
    (hp : PropsEnc fdt.dtStrings props ps) (hl : props.lookup name = none)
    (hs : HasString fdt.dtStrings nameoff name) :
    fdtGetProperty fdt offset name =
      ((offset + (Tok.beginNode nname pad).size + weight Tok.size ps : Nat) : Int) := by
  have hfuel : ps.length < fdtFuel fdt := by
    have := h.length_lt_fuel
    simp only [List.cons_append, List.length_cons, List.length_append] at this
    omega
  have hrest : At fdt (offset + (Tok.beginNode nname pad).size + weight Tok.size ps)
      (.prop nameoff value vpad :: ts) := (At.tail (by simpa using h)).append
  rw [fdtGetProperty, fdtFirstPropertyOffset_eq (by simpa using h),
    propertyLoop_skip hp hl (At.tail (by simpa using h)) hfuel]
  obtain ⟨f, hf⟩ : ∃ f, fdtFuel fdt - ps.length = f + 1 := ⟨fdtFuel fdt - ps.length - 1, by omega⟩
  rw [hf, show fdtFuel fdt = fdt.dtStruct.length + 1 from rfl, nextprop_of_prop hrest]
  have hpos : ∀ m : Nat, ¬((m : Int) < 0) := fun m => by omega
  rw [propertyLoop, if_neg (hpos _), checkPropOffset_eq hrest, if_neg (hpos _), propNameoff,
    hrest.prop_fields.2.1, hs.fdtString]
  simp

theorem propLen_eq {offset nameoff : Nat} {value pad : Bytes} {ts : List Tok}
    (h : At fdt offset (.prop nameoff value pad :: ts)) : propLen fdt offset = value.length := by
  have hsize := h.size_le
  have hsmall := h.small
  have hle := le_align4 value.length
  simp only [Tok.size] at hsize
  have hlt : value.length < 2147483648 := by omega
  have hlt' : (value.length : Int) < 2147483648 := by omega
  have hword : fdt32At fdt ((offset : Int) + 4) = value.length := h.prop_fields.1
  unfold propLen
  simp only [hword, hlt', if_true]

theorem PropsEnc.split {strings : Bytes} {props : List (Bytes × Bytes)} {ps : List Tok}
    (h : PropsEnc strings props ps) {name value : Bytes} (hl : props.lookup name = some value) :
    ∃ l₁ l₂ ps₁ nameoff pad ps₂, props = l₁ ++ (name, value) :: l₂ ∧ l₁.lookup name = none ∧
      ps = ps₁ ++ .prop nameoff value pad :: ps₂ ∧ PropsEnc strings l₁ ps₁ ∧
      HasString strings nameoff name ∧ PropsEnc strings l₂ ps₂ := by
  obtain ⟨l₁, l₂, rfl, hl₁⟩ := Assoc.exists_of_lookup hl
  obtain ⟨ps₁, ts, rfl, h₁, h₂⟩ := h.append_left
  cases h₂ with
  | cons hs h₂ => exact ⟨l₁, l₂, ps₁, _, _, _, rfl, hl₁, rfl, h₁, hs, h₂⟩

theorem Repr.getprop_none {id o : Nat} {n : DtNode} (h : Repr fdt T)
    (hn : T.get? id = some n) (ho : DeviceTree.offset T id = some o) {name : Bytes}
    (hp : n.getprop name = none) : fdtGetprop fdt o name = (none, errNotFound) := by
  obtain ⟨⟨n', sub⟩, hf, rfl⟩ := Option.map_eq_some_iff.mp hn
  obtain ⟨pre, pad, ps, ss, post, hat, hps, hss, ho', -⟩ := h.split hf
  obtain rfl : weight Tok.size pre = o := by simpa [ho] using ho'.symm
  have hnode := hat.append
  rw [Nat.zero_add] at hnode
  have := fdtGetProperty_eq_none hnode (hss.notProp post) hps hp
  simp [fdtGetprop, this, errNotFound]

/-- What the properties in front of the first one with a name take. -/
def propsBefore (name : Bytes) : List (Bytes × Bytes) → Nat
  | [] => 0
  | p :: l => if name == p.1 then 0 else DtNode.propSize p + propsBefore name l

theorem propsBefore_append_none {name : Bytes} {l₁ : List (Bytes × Bytes)} (h : l₁.lookup name = none)
    (l : List (Bytes × Bytes)) :
    propsBefore name (l₁ ++ l) = (l₁.map DtNode.propSize).sum + propsBefore name l := by
  induction l₁ with
  | nil => simp
  | cons p l₁ ih =>
    rw [List.lookup_cons] at h
    cases hb : name == p.1 with
    | true => simp [hb] at h
    | false =>
      simp only [hb] at h
      simp [propsBefore, hb, ih h, Nat.add_assoc]

def DtNode.propPos (n : DtNode) (name : Bytes) : Nat :=
  4 + align4 (n.name.length + 1) + propsBefore name n.props

theorem Repr.property_at {id o : Nat} {n : DtNode} (h : Repr fdt T) (hn : T.get? id = some n)
    (ho : DeviceTree.offset T id = some o) {name v : Bytes} (hv : n.getprop name = some v) :
    fdtGetProperty fdt o name = ((o + n.propPos name : Nat) : Int) ∧
      propLen fdt ((o + n.propPos name : Nat) : Int) = v.length ∧
      ∃ pad rest, pad.length = pad4 v.length ∧
        fdt.dtStruct.drop (o + n.propPos name + 12) = v ++ (pad ++ 0 :: rest) := by
  obtain ⟨⟨n', sub⟩, hf, rfl⟩ := Option.map_eq_some_iff.mp hn
  obtain ⟨pre, pad, ps, ss, post, hat, hps, hss, ho', -⟩ := h.split hf
  obtain rfl : weight Tok.size pre = o := by simpa [ho] using ho'.symm
  obtain ⟨l₁, l₂, ps₁, nameoff, vpad, ps₂, hl, hl₁, rfl, h₁, hs, -⟩ := hps.split hv
  have hnode : At fdt (weight Tok.size pre) (.beginNode n'.name pad :: ps₁ ++
      (.prop nameoff v vpad :: (ps₂ ++ (ss ++ (.endNode :: post))))) := by
    simpa using hat.append
  have hpos : n'.propPos name = (Tok.beginNode n'.name pad).size + weight Tok.size ps₁ := by
    rw [DtNode.propPos, hl, propsBefore_append_none hl₁, h₁.weight]
    simp [propsBefore, Tok.size]
  have hprop : At fdt (weight Tok.size pre + (Tok.beginNode n'.name pad).size + weight Tok.size ps₁)
      (.prop nameoff v vpad :: (ps₂ ++ (ss ++ (.endNode :: post)))) :=
    (At.tail (by simpa using hnode)).append
  have hne : ps₂ ++ (ss ++ (.endNode :: post)) ≠ [] := by simp
  obtain ⟨rest, hrest⟩ := encode_head hne
  rw [hpos, ← Nat.add_assoc]
  refine ⟨fdtGetProperty_eq_some hnode h₁ hl₁ hs, propLen_eq hprop, vpad, rest,
    (hprop.wf _ List.mem_cons_self).2, ?_⟩
  rw [hprop.prop_fields.2.2, hrest]

/-- A property of the tree is found, with the bytes of its value where `fdt_getprop` points; a
string there ends with the padding at the latest. -/
theorem Repr.getprop_some {id o : Nat} {n : DtNode} (h : Repr fdt T)
    (hn : T.get? id = some n) (ho : DeviceTree.offset T id = some o) {name v : Bytes}
    (hp : n.getprop name = some v) :
    ∃ p : Nat, fdtGetprop fdt o name = (some (p : Int), (v.length : Int)) ∧
      (cstrAt fdt p).length ≤ v.length + 3 ∧ ∃ rest, fdt.dtStruct.drop p = v ++ rest := by
  obtain ⟨hget, hlen, pad, rest, hpad, hdrop⟩ := h.property_at hn ho hp
  have hpos : ∀ m : Nat, ¬((m : Int) < 0) := fun m => by omega
  refine ⟨o + n.propPos name + 12, ?_, ?_, _, hdrop⟩
  · simp only [fdtGetprop, hget, if_neg (hpos _), hlen]
    rfl
  · have hlt : pad4 v.length < 4 := by unfold pad4 align4; omega
    have hle := length_cstr_le (v ++ pad) rest
    rw [List.length_append] at hle
    rw [cstrAt, Int.toNat_natCast, hdrop, ← List.append_assoc]
    omega

theorem Repr.getprop_len {id o : Nat} {n : DtNode} (h : Repr fdt T)
    (hn : T.get? id = some n) (ho : DeviceTree.offset T id = some o) (name : Bytes) :
    (fdtGetprop fdt o name).2 = match n.getprop name with
      | some v => (v.length : Int)
      | none => errNotFound := by
  cases hp : n.getprop name with
  | none => rw [h.getprop_none hn ho hp]
  | some v =>
    obtain ⟨p, hp, -⟩ := h.getprop_some hn ho hp
    rw [hp]

theorem Repr.getprop_cell {id o : Nat} {n : DtNode} (h : Repr fdt T)
    (hn : T.get? id = some n) (ho : DeviceTree.offset T id = some o) (name : Bytes) :
    (∀ c, n.cell name = some c → ∃ p : Nat, fdtGetprop fdt o name = (some (p : Int), 4) ∧
      fdt32At fdt p = c) ∧
    (n.cell name = none → ∀ p, fdtGetprop fdt o name ≠ (some p, 4)) := by
  cases hp : n.getprop name with
  | none =>
    refine ⟨fun c hc => by simp [DtNode.cell, hp] at hc, fun _ p e => ?_⟩
    simp [h.getprop_none hn ho hp] at e
  | some v =>
    obtain ⟨p, hget, -, rest, hdrop⟩ := h.getprop_some hn ho hp
    simp only [DtNode.cell, hp, hget]
    by_cases hv : v.length = 4
    · refine ⟨fun c hc => ⟨p, by simp [hv], ?_⟩, fun hc => by simp [hv] at hc⟩
      simp only [hv, if_true, Option.some.injEq] at hc
      rw [fdt32At, Int.toNat_natCast, hdrop, ← hc]
      obtain ⟨a, b, c, d, rfl⟩ := List.length_eq_four.mp hv
      rfl
    · refine ⟨fun c hc => by simp [hv] at hc, fun _ q e => ?_⟩
      simp only [Prod.mk.injEq] at e
      omega

theorem Repr.getPhandle {id o : Nat} {n : DtNode} (h : Repr fdt T)
    (hn : T.get? id = some n) (ho : DeviceTree.offset T id = some o) :
    fdtGetPhandle fdt o = n.phandle := by
  have hfst := h.getprop_cell hn ho strPhandle
  have hsnd := h.getprop_cell hn ho strLinuxPhandle
  unfold fdtGetPhandle DtNode.phandle
  cases hc : n.cell strPhandle with
  | some c =>
    obtain ⟨p, hp, rfl⟩ := hfst.1 c hc
    simp only [hp]
  | none =>
    have hne := hfst.2 hc
    split
    · rename_i php heq
      exact absurd heq (hne php)
    · cases hc' : n.cell strLinuxPhandle with
      | some c =>
        obtain ⟨p, hp, rfl⟩ := hsnd.1 c hc'
        simp only [hp, Option.getD_some]
      | none =>
        have hne' := hsnd.2 hc'
        split
        · rename_i php heq
          exact absurd heq (hne' php)
        · rfl

end Babelfish.Libfdt
