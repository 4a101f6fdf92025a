import Babelfish.Libfdt.Path

/-! The edits of libfdt on a blob that represents a tree. An edit either does to the tree what its
name says or, without room, leaves the tree as it was. -/

namespace Babelfish.Libfdt

open Bytes Forest

theorem fdtSpliceStruct_ok {fdt : Fdt} {A M B : Bytes} (h : fdt.dtStruct = A ++ (M ++ B)) (new : Nat)
    (hfree : new ≤ M.length + fdt.free.length) :
    ∃ M' free', fdtSpliceStruct fdt (A.length : Int) (M.length : Int) (new : Int) =
        (0, ⟨A ++ (M' ++ B), fdt.dtStrings, free'⟩) ∧
      M'.length = new ∧ M'.take (min M.length new) = M.take (min M.length new) ∧
      free'.length + new = fdt.free.length + M.length := by
  have hlen := congrArg List.length h
  simp only [List.length_append] at hlen
  have h₁ : ¬((M.length : Int) < 0 ∨
      (((fdt.dtStruct ++ fdt.dtStrings).length : Nat) : Int) < A.length + M.length) := by
    simp only [List.length_append]
    omega
  have h₂ : ¬((fdt.free.length : Int) < (new : Int) - M.length) := by omega
  have hdrop : (fdt.dtStruct ++ fdt.dtStrings).drop (A.length + M.length) = B ++ fdt.dtStrings := by
    rw [h, ← List.append_assoc, List.append_assoc, List.drop_left']
    simp
  have htake : (fdt.dtStruct ++ fdt.dtStrings).take (A.length + min M.length new) =
      A ++ M.take (min M.length new) := by
    rw [h, List.append_assoc, List.take_length_add_append, List.append_assoc,
      List.take_append_of_le_length (by omega)]
  have hstale : (((fdt.dtStruct ++ fdt.dtStrings) ++ fdt.free).drop (A.length + M.length)).take
      (new - M.length) = (B ++ (fdt.dtStrings ++ fdt.free)).take (new - M.length) := by
    rw [List.drop_append_of_le_length (by simp only [List.length_append]; omega), hdrop,
      List.append_assoc]
  refine ⟨M.take (min M.length new) ++ (B ++ (fdt.dtStrings ++ fdt.free)).take (new - M.length),
    (fdt.dtStruct ++ fdt.dtStrings).drop
      ((fdt.dtStruct ++ fdt.dtStrings).length - (M.length - new)) ++ fdt.free.drop (new - M.length),
    ?_, ?_, ?_, ?_⟩
  · simp only [fdtSpliceStruct, if_neg h₁, if_neg h₂, Int.toNat_natCast, hdrop, htake, hstale]
    have hsize : (A ++ (M.take (min M.length new) ++
        ((B ++ (fdt.dtStrings ++ fdt.free)).take (new - M.length) ++ B))).length =
        fdt.dtStruct.length + new - M.length := by
      simp only [List.length_append, List.length_take]
      omega
    have hassoc : A ++ M.take (min M.length new) ++
        ((B ++ (fdt.dtStrings ++ fdt.free)).take (new - M.length) ++ (B ++ fdt.dtStrings)) =
        (A ++ (M.take (min M.length new) ++
          ((B ++ (fdt.dtStrings ++ fdt.free)).take (new - M.length) ++ B))) ++ fdt.dtStrings := by
      simp
    rw [hassoc, List.take_left' hsize, List.drop_left' hsize]
    simp
  · simp only [List.length_append, List.length_take]
    omega
  · rw [List.take_append_of_le_length (by simp)]
    simp
  · simp only [List.length_append, List.length_drop]
    omega

theorem fdtSpliceStruct_noSpace {fdt : Fdt} {A M B : Bytes} (h : fdt.dtStruct = A ++ (M ++ B))
    (new : Nat) (hfree : M.length + fdt.free.length < new) :
    fdtSpliceStruct fdt (A.length : Int) (M.length : Int) (new : Int) = (errNoSpace, fdt) := by
  have hlen := congrArg List.length h
  simp only [List.length_append] at hlen
  have h₁ : ¬((M.length : Int) < 0 ∨
      (((fdt.dtStruct ++ fdt.dtStrings).length : Nat) : Int) < A.length + M.length) := by
    simp only [List.length_append]
    omega
  have h₂ : (fdt.free.length : Int) < (new : Int) - M.length := by omega
  simp only [fdtSpliceStruct, if_neg h₁, if_pos h₂]

theorem Fdt.write_eq {fdt : Fdt} {A M B bs : Bytes} (h : fdt.dtStruct = A ++ (M ++ B))
    (hbs : bs.length = M.length) {p : Int} (hp : p = A.length) :
    fdt.write p bs = { fdt with dtStruct := A ++ (bs ++ B) } := by
  subst hp
  rw [Fdt.write, h, Int.toNat_natCast, List.take_left, ← List.append_assoc A M B, List.drop_left',
    List.append_assoc]
  simp [hbs]

theorem exists_append_of_le {M : Bytes} {n : Nat} (h : n ≤ M.length) :
    ∃ M₁ M₂, M = M₁ ++ M₂ ∧ M₁.length = n :=
  ⟨M.take n, M.drop n, (List.take_append_drop n M).symm, by simp [h]⟩

/-- The structure block with a property of which the value `M` is yet to be written. -/
def withProp (pre : List Tok) (nameoff len : Nat) (M : Bytes) (post : List Tok)
    (strings free : Bytes) : Fdt :=
  ⟨encode pre ++ (be32 FdtTag.prop.code ++ (be32 len ++ (be32 nameoff ++ (M ++ encode post)))),
    strings, free⟩

theorem withProp_write {pre : List Tok} (post : List Tok) (nameoff : Nat) {M : Bytes}
    (v val strings free : Bytes)
    (hpre : ∀ t ∈ pre, t.Wf) (hM : M.length = align4 (v.length + val.length))
    (hv : M.take v.length = v) {p : Int} (hp : p = (weight Tok.size pre + 12 + v.length : Nat)) :
    ∃ pad, pad.length = pad4 (v ++ val).length ∧
      (withProp pre nameoff (v.length + val.length) M post strings free).write p val =
        ⟨encode (pre ++ .prop nameoff (v ++ val) pad :: post), strings, free⟩ := by
  have hle := le_align4 (v.length + val.length)
  have hrest : M = v ++ ((M.drop v.length).take val.length ++ M.drop (v.length + val.length)) := by
    conv_lhs => rw [← List.take_append_drop v.length M, hv]
    rw [← List.drop_drop, List.take_append_drop]
  refine ⟨M.drop (v.length + val.length), by simp [hM, pad4], ?_⟩
  rw [Fdt.write_eq (A := encode pre ++ (be32 FdtTag.prop.code ++ (be32 (v.length + val.length) ++
      (be32 nameoff ++ v)))) (M := (M.drop v.length).take val.length)
      (B := M.drop (v.length + val.length) ++ encode post)]
  · simp [withProp, Tok.bytes]
  · have hassoc : M ++ encode post = v ++ ((M.drop v.length).take val.length ++
        (M.drop (v.length + val.length) ++ encode post)) := by
      conv_lhs => rw [hrest]
      simp only [List.append_assoc]
    simp only [withProp, hassoc, List.append_assoc]
  · simp only [List.length_take, List.length_drop]
    omega
  · simp only [List.length_append, length_encode hpre, length_be32, hp]
    omega

theorem At.value_split {fdt : Fdt} {pre post : List Tok} {nameoff : Nat} {v pad : Bytes}
    (h : At fdt 0 (pre ++ .prop nameoff v pad :: post)) :
    fdt.dtStruct = (encode pre ++ (be32 FdtTag.prop.code ++ (be32 v.length ++ be32 nameoff))) ++
        ((v ++ pad) ++ encode post) ∧
      ((encode pre ++ (be32 FdtTag.prop.code ++ (be32 v.length ++ be32 nameoff))).length : Int) =
        (weight Tok.size pre : Nat) + 12 ∧
      (v ++ pad).length = align4 v.length := by
  have hpad : pad.length = pad4 v.length := (h.wf (.prop nameoff v pad) (by simp)).2
  refine ⟨?_, ?_, by simp [hpad]⟩
  · have := h.drop
    simpa [Tok.bytes] using this
  · simp only [List.length_append, length_encode fun t ht => h.wf t (List.mem_append_left _ ht),
      length_be32]
    omega

theorem splice_prop {fdt : Fdt} {pre post : List Tok} {nameoff : Nat} {v pad : Bytes}
    (h : At fdt 0 (pre ++ .prop nameoff v pad :: post)) {len : Nat}
    (hfree : align4 len ≤ align4 v.length + fdt.free.length) :
    ∃ M free', (fdtSpliceStruct fdt ((weight Tok.size pre : Nat) + 12) (fdtTagAlign v.length)
        (fdtTagAlign len)).1 = 0 ∧
      (fdtSpliceStruct fdt ((weight Tok.size pre : Nat) + 12) (fdtTagAlign v.length)
        (fdtTagAlign len)).2.write ((weight Tok.size pre : Nat) + 4) (be32 len) =
        withProp pre nameoff len M post fdt.dtStrings free' ∧
      M.length = align4 len ∧ (v.length ≤ len → M.take v.length = v) ∧
      free'.length + align4 len = fdt.free.length + align4 v.length := by
  have hpre : ∀ t ∈ pre, t.Wf := fun t ht => h.wf t (List.mem_append_left _ ht)
  obtain ⟨hstruct, hA, hM⟩ := h.value_split
  obtain ⟨M, free', hsplice, hlen, htake, hfree'⟩ :=
    fdtSpliceStruct_ok hstruct (align4 len) (by rw [hM]; exact hfree)
  rw [hA, hM] at hsplice
  rw [hM] at htake hfree'
  refine ⟨M, free', ?_, ?_, hlen, fun hv => ?_, hfree'⟩
  · rw [fdtTagAlign_natCast, fdtTagAlign_natCast, hsplice]
  · rw [fdtTagAlign_natCast, fdtTagAlign_natCast, hsplice,
      Fdt.write_eq (A := encode pre ++ be32 FdtTag.prop.code) (M := be32 v.length)
        (B := be32 nameoff ++ (M ++ encode post)) (by simp) (by simp)
        (by simp only [List.length_append, length_encode hpre, length_be32]; omega)]
    simp [withProp]
  · have hle := le_align4 v.length
    have hle' := align4_mono hv
    have := congrArg (List.take v.length) htake
    rw [List.take_take, List.take_take, show min v.length (min (align4 v.length) (align4 len)) =
      v.length by omega, List.take_left] at this
    exact this

theorem splice_prop_noSpace {fdt : Fdt} {pre post : List Tok} {nameoff : Nat} {v pad : Bytes}
    (h : At fdt 0 (pre ++ .prop nameoff v pad :: post)) (len : Nat)
    (hfree : align4 v.length + fdt.free.length < align4 len) :
    fdtSpliceStruct fdt ((weight Tok.size pre : Nat) + 12) (fdtTagAlign v.length)
      (fdtTagAlign len) = (errNoSpace, fdt) := by
  obtain ⟨hstruct, hA, hM⟩ := h.value_split
  have hns := fdtSpliceStruct_noSpace hstruct (align4 len) (by rw [hM]; exact hfree)
  rwa [hA, hM, ← fdtTagAlign_natCast, ← fdtTagAlign_natCast] at hns

theorem splice_new_prop {fdt : Fdt} {pre post : List Tok} (h : At fdt 0 (pre ++ post))
    (len nameoff : Nat) (hfree : 12 + align4 len ≤ fdt.free.length) :
    ∃ M free', (fdtSpliceStruct fdt (weight Tok.size pre : Nat) 0 (12 + fdtTagAlign len)).1 = 0 ∧
      (((fdtSpliceStruct fdt (weight Tok.size pre : Nat) 0 (12 + fdtTagAlign len)).2.write
          (weight Tok.size pre : Nat) (be32 FdtTag.prop.code)).write
          ((weight Tok.size pre : Nat) + 8) (be32 nameoff)).write ((weight Tok.size pre : Nat) + 4)
          (be32 len) = withProp pre nameoff len M post fdt.dtStrings free' ∧
      M.length = align4 len ∧ free'.length + (12 + align4 len) = fdt.free.length := by
  have hpre : ∀ t ∈ pre, t.Wf := fun t ht => h.wf t (List.mem_append_left _ ht)
  have hlenpre := length_encode hpre
  have hstruct : fdt.dtStruct = encode pre ++ ([] ++ encode post) := by
    have := h.drop
    simpa using this
  obtain ⟨M, free', hsplice, hlen, -, hfree'⟩ :=
    fdtSpliceStruct_ok hstruct (12 + align4 len) (by simpa using hfree)
  have hcast : (((12 + align4 len : Nat) : Int)) = 12 + fdtTagAlign len := by
    rw [fdtTagAlign_natCast]
    omega
  rw [hlenpre, List.length_nil, hcast, show ((0 : Nat) : Int) = 0 from rfl] at hsplice
  obtain ⟨M₁, R₁, rfl, h₁⟩ := exists_append_of_le (M := M) (n := 4) (by omega)
  simp only [List.length_append] at hlen
  obtain ⟨M₂, R₂, rfl, h₂⟩ := exists_append_of_le (M := R₁) (n := 4) (by omega)
  simp only [List.length_append] at hlen
  obtain ⟨M₃, M₄, rfl, h₃⟩ := exists_append_of_le (M := R₂) (n := 4) (by omega)
  simp only [List.length_append] at hlen
  have htag : (⟨encode pre ++ ((M₁ ++ (M₂ ++ (M₃ ++ M₄))) ++ encode post), fdt.dtStrings, free'⟩ :
      Fdt).write (weight Tok.size pre : Nat) (be32 FdtTag.prop.code) = ⟨encode pre ++
        (be32 FdtTag.prop.code ++ (M₂ ++ (M₃ ++ (M₄ ++ encode post)))), fdt.dtStrings, free'⟩ :=
    Fdt.write_eq (M := M₁) (by simp) (by simp [h₁]) (by rw [hlenpre])
  have hoff : (⟨encode pre ++ (be32 FdtTag.prop.code ++ (M₂ ++ (M₃ ++ (M₄ ++ encode post)))),
      fdt.dtStrings, free'⟩ : Fdt).write ((weight Tok.size pre : Nat) + 8) (be32 nameoff) =
        ⟨(encode pre ++ (be32 FdtTag.prop.code ++ M₂)) ++ (be32 nameoff ++ (M₄ ++ encode post)),
          fdt.dtStrings, free'⟩ :=
    Fdt.write_eq (M := M₃) (by simp) (by simp [h₃])
      (by simp only [List.length_append, hlenpre, length_be32, h₂]; omega)
  have hword : (⟨(encode pre ++ (be32 FdtTag.prop.code ++ M₂)) ++
      (be32 nameoff ++ (M₄ ++ encode post)), fdt.dtStrings, free'⟩ : Fdt).write
        ((weight Tok.size pre : Nat) + 4) (be32 len) =
        ⟨(encode pre ++ be32 FdtTag.prop.code) ++ (be32 len ++ (be32 nameoff ++ (M₄ ++ encode post))),
          fdt.dtStrings, free'⟩ :=
    Fdt.write_eq (M := M₂) (by simp) (by simp [h₂])
      (by simp only [List.length_append, hlenpre, length_be32]; omega)
  refine ⟨M₄, free', by rw [hsplice], ?_, by omega, by simpa using hfree'⟩
  rw [hsplice, htag, hoff, hword]
  simp [withProp]

theorem splice_new_prop_noSpace {fdt : Fdt} {pre post : List Tok} (h : At fdt 0 (pre ++ post))
    {len : Nat} (hfree : fdt.free.length < 12 + align4 len) :
    fdtSpliceStruct fdt (weight Tok.size pre : Nat) 0 (12 + fdtTagAlign len) = (errNoSpace, fdt) := by
  have hlenpre := length_encode fun t ht => h.wf t (List.mem_append_left _ ht)
  have hstruct : fdt.dtStruct = encode pre ++ ([] ++ encode post) := by
    have := h.drop
    simpa using this
  have hns := fdtSpliceStruct_noSpace hstruct (12 + align4 len) (by simpa using hfree)
  have hcast : (((12 + align4 len : Nat) : Int)) = 12 + fdtTagAlign len := by
    rw [fdtTagAlign_natCast]
    omega
  rwa [hlenpre, List.length_nil, hcast, show ((0 : Nat) : Int) = 0 from rfl] at hns

theorem splice_new_node {fdt : Fdt} {pre post : List Tok} (h : At fdt 0 (pre ++ post)) {name : Bytes}
    (hfree : 8 + align4 (name.length + 1) ≤ fdt.free.length) :
    ∃ pad free', pad.length = pad4 (name.length + 1) ∧
      (fdtSpliceStruct fdt (weight Tok.size pre : Nat) 0 (4 + (align4 (name.length + 1) : Nat) + 4)).1 =
        0 ∧
      ((((fdtSpliceStruct fdt (weight Tok.size pre : Nat) 0
          (4 + (align4 (name.length + 1) : Nat) + 4)).2.write (weight Tok.size pre : Nat)
          (be32 FdtTag.beginNode.code)).write ((weight Tok.size pre : Nat) + 4)
          (List.replicate (align4 (name.length + 1)) 0)).write ((weight Tok.size pre : Nat) + 4)
          name).write ((weight Tok.size pre : Nat) + (4 + (align4 (name.length + 1) : Nat)))
          (be32 FdtTag.endNode.code) =
        ⟨encode (pre ++ .beginNode name pad :: .endNode :: post), fdt.dtStrings, free'⟩ ∧
      free'.length + (8 + align4 (name.length + 1)) = fdt.free.length := by
  have hlenpre := length_encode fun t ht => h.wf t (List.mem_append_left _ ht)
  have hle := le_align4 (name.length + 1)
  have hstruct : fdt.dtStruct = encode pre ++ ([] ++ encode post) := by
    have := h.drop
    simpa using this
  obtain ⟨M, free', hsplice, hlen, -, hfree'⟩ :=
    fdtSpliceStruct_ok hstruct (4 + align4 (name.length + 1) + 4)
      (by simp only [List.length_nil]; omega)
  have hcast : (((4 + align4 (name.length + 1) + 4 : Nat) : Int)) =
      4 + (align4 (name.length + 1) : Nat) + 4 := by omega
  rw [hlenpre, List.length_nil, hcast, show ((0 : Nat) : Int) = 0 from rfl] at hsplice
  obtain ⟨M₁, R₁, rfl, h₁⟩ := exists_append_of_le (M := M) (n := 4) (by omega)
  simp only [List.length_append] at hlen
  obtain ⟨M₂, M₃, rfl, h₂⟩ := exists_append_of_le (M := R₁) (n := align4 (name.length + 1)) (by omega)
  simp only [List.length_append] at hlen
  have hzeros : List.replicate (align4 (name.length + 1)) (0 : UInt8) =
      List.replicate name.length 0 ++ 0 :: List.replicate (pad4 (name.length + 1)) 0 := by
    rw [← List.replicate_succ, List.replicate_append_replicate]
    congr 1
    unfold pad4
    omega
  have htag : (⟨encode pre ++ ((M₁ ++ (M₂ ++ M₃)) ++ encode post), fdt.dtStrings, free'⟩ : Fdt).write
      (weight Tok.size pre : Nat) (be32 FdtTag.beginNode.code) =
        ⟨encode pre ++ (be32 FdtTag.beginNode.code ++ (M₂ ++ (M₃ ++ encode post))),
          fdt.dtStrings, free'⟩ :=
    Fdt.write_eq (M := M₁) (by simp) (by simp [h₁]) (by rw [hlenpre])
  have hclear : (⟨encode pre ++ (be32 FdtTag.beginNode.code ++ (M₂ ++ (M₃ ++ encode post))),
      fdt.dtStrings, free'⟩ : Fdt).write ((weight Tok.size pre : Nat) + 4)
        (List.replicate (align4 (name.length + 1)) 0) =
        ⟨(encode pre ++ be32 FdtTag.beginNode.code) ++
          (List.replicate (align4 (name.length + 1)) 0 ++ (M₃ ++ encode post)),
          fdt.dtStrings, free'⟩ :=
    Fdt.write_eq (M := M₂) (by simp) (by simp [h₂])
      (by simp only [List.length_append, hlenpre, length_be32]; omega)
  have hname : (⟨(encode pre ++ be32 FdtTag.beginNode.code) ++
      (List.replicate (align4 (name.length + 1)) 0 ++ (M₃ ++ encode post)),
      fdt.dtStrings, free'⟩ : Fdt).write ((weight Tok.size pre : Nat) + 4) name =
        ⟨(encode pre ++ be32 FdtTag.beginNode.code) ++ (name ++
          ((0 :: List.replicate (pad4 (name.length + 1)) 0) ++ (M₃ ++ encode post))),
          fdt.dtStrings, free'⟩ := by
    refine Fdt.write_eq (M := List.replicate name.length 0) ?_ (by simp)
      (by simp only [List.length_append, hlenpre, length_be32]; omega)
    rw [hzeros]
    simp
  have hstop : (⟨(encode pre ++ be32 FdtTag.beginNode.code) ++ (name ++
      ((0 :: List.replicate (pad4 (name.length + 1)) 0) ++ (M₃ ++ encode post))),
      fdt.dtStrings, free'⟩ : Fdt).write
        ((weight Tok.size pre : Nat) + (4 + (align4 (name.length + 1) : Nat)))
        (be32 FdtTag.endNode.code) =
        ⟨(encode pre ++ (be32 FdtTag.beginNode.code ++ (name ++
          (0 :: List.replicate (pad4 (name.length + 1)) 0)))) ++
          (be32 FdtTag.endNode.code ++ encode post), fdt.dtStrings, free'⟩ := by
    refine Fdt.write_eq (M := M₃) (by simp) (by simp only [length_be32]; omega) ?_
    have := add_pad4 (name.length + 1)
    simp only [List.length_append, hlenpre, length_be32, List.length_cons, List.length_replicate]
    omega
  refine ⟨List.replicate (pad4 (name.length + 1)) 0, free', by simp, by rw [hsplice], ?_,
    by simp only [List.length_nil] at hfree'; omega⟩
  rw [hsplice, htag, hclear, hname, hstop]
  simp [Tok.bytes]

theorem splice_new_node_noSpace {fdt : Fdt} {pre post : List Tok} (h : At fdt 0 (pre ++ post))
    {n : Nat} (hfree : fdt.free.length < 8 + n) :
    fdtSpliceStruct fdt (weight Tok.size pre : Nat) 0 (4 + (n : Int) + 4) = (errNoSpace, fdt) := by
  have hlenpre := length_encode fun t ht => h.wf t (List.mem_append_left _ ht)
  have hstruct : fdt.dtStruct = encode pre ++ ([] ++ encode post) := by
    have := h.drop
    simpa using this
  have hns := fdtSpliceStruct_noSpace hstruct (4 + n + 4)
    (by simp only [List.length_nil]; omega)
  have hcast : (((4 + n + 4 : Nat) : Int)) = 4 + (n : Int) + 4 := by omega
  rwa [hlenpre, List.length_nil, hcast, show ((0 : Nat) : Int) = 0 from rfl] at hns

end Babelfish.Libfdt
