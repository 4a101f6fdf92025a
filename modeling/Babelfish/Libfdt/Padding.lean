import Babelfish.Libfdt.Edit
import Babelfish.Libfdt.Outcome

/-! A string without an end is read on in the padding behind its value. What is read there stays when
another property is set. -/

namespace Babelfish.Libfdt

open Bytes Forest

/-- The `m` bytes from `a` on have been replaced by `m'` others. -/
def Replaced (s s' : Bytes) (a m m' : Nat) : Prop :=
  ∃ A M M' B, s = A ++ (M ++ B) ∧ s' = A ++ (M' ++ B) ∧ A.length = a ∧ M.length = m ∧ M'.length = m'

namespace Replaced

variable {s s' : Bytes} {a m m' p q : Nat}

theorem front (h : Replaced s s' a m m') {k : Nat} (hq : q + k ≤ a) :
    (s'.drop q).take k = (s.drop q).take k := by
  obtain ⟨A, M, M', B, rfl, rfl, rfl, rfl, rfl⟩ := h
  rw [List.drop_append_of_le_length (by omega), List.drop_append_of_le_length (by omega),
    List.take_append_of_le_length (by rw [List.length_drop]; omega),
    List.take_append_of_le_length (by rw [List.length_drop]; omega)]

theorem behind (h : Replaced s s' a m m') (hq : a + m ≤ q) (hp : p + m = q + m') :
    s'.drop p = s.drop q := by
  obtain ⟨A, M, M', B, rfl, rfl, rfl, rfl, rfl⟩ := h
  obtain ⟨k, rfl⟩ : ∃ k, q = (A ++ M).length + k :=
    ⟨q - (A ++ M).length, by rw [List.length_append]; omega⟩
  obtain rfl : p = (A ++ M').length + k := by
    simp only [List.length_append] at hp ⊢
    omega
  rw [← List.append_assoc, ← List.append_assoc, List.drop_length_add_append,
    List.drop_length_add_append]

theorem widen {k : Nat} (h : Replaced s s' (a + k) m m') : Replaced s s' a (k + m) (k + m') := by
  obtain ⟨A, M, M', B, rfl, rfl, hA, rfl, rfl⟩ := h
  obtain ⟨A₁, A₂, rfl, h₁⟩ := exists_append_of_le (M := A) (n := a) (by omega)
  rw [List.length_append] at hA
  refine ⟨A₁, A₂ ++ M, A₂ ++ M', B, by simp, by simp, h₁, ?_, ?_⟩
  · rw [List.length_append]
    omega
  · rw [List.length_append]
    omega

theorem write {fdt : Fdt} {bs : Bytes} (h : Replaced s fdt.dtStruct a m m') (hp : a ≤ p)
    (hbs : p + bs.length ≤ a + m') : Replaced s (fdt.write p bs).dtStruct a m m' := by
  obtain ⟨A, M, M', B, hs, hs', rfl, rfl, rfl⟩ := h
  obtain ⟨M₁, R, rfl, h₁⟩ := exists_append_of_le (M := M') (n := p - A.length) (by omega)
  rw [List.length_append] at hbs
  obtain ⟨M₂, M₃, rfl, h₂⟩ := exists_append_of_le (M := R) (n := bs.length) (by omega)
  refine ⟨A, M, M₁ ++ (bs ++ M₃), B, hs, ?_, rfl, rfl, ?_⟩
  · rw [Fdt.write_eq (A := A ++ M₁) (M := M₂) (B := M₃ ++ B) (by rw [hs']; simp) h₂.symm
      (by rw [List.length_append]; omega)]
    simp
  · simp only [List.length_append]
    omega

theorem splice {fdt : Fdt} (hle : a + m ≤ fdt.dtStruct.length)
    (h : (fdtSpliceStruct fdt a m m').1 = 0) :
    Replaced fdt.dtStruct (fdtSpliceStruct fdt a m m').2.dtStruct a m m' := by
  obtain ⟨A, R, hs, rfl⟩ := exists_append_of_le (M := fdt.dtStruct) (n := a) (by omega)
  obtain ⟨M, B, rfl, rfl⟩ := exists_append_of_le (M := R) (n := m) (by
    rw [hs, List.length_append] at hle
    omega)
  by_cases hfree : m' ≤ M.length + fdt.free.length
  · obtain ⟨M', free', heq, hlen, -⟩ := fdtSpliceStruct_ok hs m' hfree
    rw [heq]
    exact ⟨A, M, M', B, hs, rfl, rfl, rfl, hlen⟩
  · rw [fdtSpliceStruct_noSpace hs m' (by omega)] at h
    simp [errNoSpace] at h

end Replaced

section

variable {name other v v₀ : Bytes} {l l₁ : List (Bytes × Bytes)}

theorem propsBefore_append_some (h : l₁.lookup name = some v) (l : List (Bytes × Bytes)) :
    propsBefore name (l₁ ++ l) = propsBefore name l₁ := by
  induction l₁ with
  | nil => simp at h
  | cons p l₁ ih =>
    rw [List.lookup_cons] at h
    cases hb : name == p.1 with
    | true => simp [propsBefore, hb]
    | false =>
      simp only [hb] at h
      simp [propsBefore, hb, ih h]

theorem propsBefore_le (h : l.lookup name = some v) :
    propsBefore name l + (12 + align4 v.length) ≤ (l.map DtNode.propSize).sum := by
  obtain ⟨l₁, l₂, rfl, h₁⟩ := Assoc.exists_of_lookup h
  rw [propsBefore_append_none h₁]
  simp [propsBefore, DtNode.propSize]

/-- The properties in front of another one, when one is set. -/
theorem propsBefore_upsert (hne : other ≠ name) (hv : l.lookup other = some v)
    (h₀ : l.lookup name = some v₀) (val : Bytes) :
    propsBefore other l + (12 + align4 v.length) ≤ propsBefore name l ∧
        propsBefore other (Assoc.upsert name (fun _ => val) val l) = propsBefore other l ∨
      propsBefore name l + (12 + align4 v₀.length) ≤ propsBefore other l ∧
        propsBefore other (Assoc.upsert name (fun _ => val) val l) + align4 v₀.length =
          propsBefore other l + align4 val.length := by
  have hb : (other == name) = false := by simpa using hne
  obtain ⟨l₁, l₂, rfl, h₁⟩ := Assoc.exists_of_lookup h₀
  rw [Assoc.upsert_append h₁, propsBefore_append_none h₁]
  cases ho : l₁.lookup other with
  | some w =>
    rw [propsBefore_append_some ho, propsBefore_append_some ho]
    obtain ⟨m₁, m₂, rfl, hm⟩ := Assoc.exists_of_lookup ho
    obtain rfl : w = v := by
      simpa [Assoc.lookup_append_of_none hm] using hv
    have := propsBefore_le ho
    refine Or.inl ⟨?_, rfl⟩
    omega
  | none =>
    rw [propsBefore_append_none ho, propsBefore_append_none ho]
    refine Or.inr ⟨?_, ?_⟩
    · simp [propsBefore, hb, DtNode.propSize]
    · simp only [propsBefore, hb, Bool.false_eq_true, if_false, DtNode.propSize]
      omega

end

namespace DtNode

def setPos (n : DtNode) (name : Bytes) : Nat :=
  if n.getprop name = none then 4 + align4 (n.name.length + 1) else n.propPos name

def setOld (n : DtNode) (name : Bytes) : Nat := (n.getprop name).elim 0 fun v => 12 + align4 v.length

variable {n : DtNode} {name other v : Bytes}

theorem setPos_of_none (h : n.getprop name = none) :
    n.setPos name = 4 + align4 (n.name.length + 1) ∧ n.setOld name = 0 := by
  simp [setPos, setOld, h]

theorem setPos_of_some (h : n.getprop name = some v) :
    n.setPos name = n.propPos name ∧ n.setOld name = 12 + align4 v.length := by
  simp [setPos, setOld, h]

theorem propPos_le (h : n.getprop name = some v) :
    n.propPos name + (12 + align4 v.length) ≤ n.openSize := by
  have := propsBefore_le h
  unfold propPos openSize
  omega

theorem setPos_le (n : DtNode) (name : Bytes) : n.setPos name + n.setOld name ≤ n.openSize := by
  cases h : n.getprop name with
  | none =>
    rw [(setPos_of_none h).1, (setPos_of_none h).2, openSize]
    omega
  | some v =>
    rw [(setPos_of_some h).1, (setPos_of_some h).2]
    exact propPos_le h

theorem openSize_setprop (n : DtNode) (name val : Bytes) :
    (n.setprop name val).openSize + n.setOld name = n.openSize + (12 + align4 val.length) := by
  cases h : n.getprop name with
  | none =>
    rw [(setPos_of_none h).2]
    simp only [openSize, setprop, Assoc.upsert_of_none h, List.map_cons, List.sum_cons, propSize]
    omega
  | some v =>
    rw [(setPos_of_some h).2]
    obtain ⟨l₁, l₂, hl, h₁⟩ := Assoc.exists_of_lookup h
    simp only [openSize, setprop, hl, Assoc.upsert_append h₁, List.map_append, List.map_cons,
      List.sum_append, List.sum_cons, propSize]
    omega

theorem propPos_setprop (hne : other ≠ name) (hv : n.getprop other = some v) (val : Bytes) :
    n.propPos other + (12 + align4 v.length) ≤ n.setPos name ∧
        (n.setprop name val).propPos other = n.propPos other ∨
      n.setPos name + n.setOld name ≤ n.propPos other ∧
        (n.setprop name val).propPos other + n.setOld name =
          n.propPos other + (12 + align4 val.length) := by
  have hb : (other == name) = false := by simpa using hne
  cases h : n.getprop name with
  | none =>
    rw [(setPos_of_none h).1, (setPos_of_none h).2]
    refine Or.inr ⟨?_, ?_⟩
    · unfold propPos
      omega
    · simp only [propPos, setprop, Assoc.upsert_of_none h, propsBefore, hb, Bool.false_eq_true,
        if_false, propSize]
      omega
  | some v₀ =>
    rw [(setPos_of_some h).1, (setPos_of_some h).2]
    have := propsBefore_upsert hne hv h val
    simp only [propPos, setprop]
    omega

end DtNode

section

variable {fdt : Fdt} {T : DeviceTree} {id o : Nat} {n : DtNode} {name val : Bytes}

theorem DeviceTree.offset_modify {g : DtNode → DtNode} (hnodup : T.ids.Nodup) {i j oj : Nat}
    (h : T.Precedes i j) (hi : T.get? i = some n) (ho : DeviceTree.offset T j = some oj) :
    ∃ oj', DeviceTree.offset (T.modify i g) j = some oj' ∧
      oj' + n.openSize = oj + (g n).openSize := by
  obtain ⟨sub, hf⟩ := find?_of_get? hi
  rcases Nat.le_total n.openSize (g n).openSize with hle | hle
  · exact ⟨_, offset_modify_of_precedes hnodup h hf
      (show (g n).openSize = n.openSize + ((g n).openSize - n.openSize) by omega) ho, by omega⟩
  · have hmem : j ∈ (T.modify i g).ids := by
      rw [ids_modify]
      exact h.mem_right
    have hnodup' : (T.modify i g).ids.Nodup := by rwa [ids_modify]
    obtain ⟨oj', ho'⟩ := DeviceTree.offset_isSome hmem
    have hback : (T.modify i g).modify i (fun _ => n) = T := by
      rw [modify_modify, modify_congr hnodup hf (g := (fun _ => n) ∘ g) (fun a => a) rfl]
      exact modify_id i T
    have hf' := find?_modify_self hf g
    have hmove := offset_modify_of_precedes hnodup' (precedes_modify h i g) hf' (g := fun _ => n)
      (show n.openSize = (g n).openSize + (n.openSize - (g n).openSize) by omega) ho'
    rw [hback] at hmove
    have hoj : oj = oj' + (n.openSize - (g n).openSize) := Option.some.inj (ho.symm.trans hmove)
    exact ⟨oj', ho', by omega⟩

/-- Another property stays in front of the one that is set, or moves with what is behind it. -/
theorem DeviceTree.propPos_setprop (hnodup : T.ids.Nodup) (hn : T.get? id = some n)
    (ho : DeviceTree.offset T id = some o) (val : Bytes) {j oj oj' : Nat} {nj : DtNode}
    (hj : T.get? j = some nj) (hoj : DeviceTree.offset T j = some oj)
    (hoj' : DeviceTree.offset (T.modify id (DtNode.setprop name val)) j = some oj') {other v : Bytes}
    (hne : j = id → other ≠ name) (hv : nj.getprop other = some v) :
    ∃ nj', (T.modify id (DtNode.setprop name val)).get? j = some nj' ∧ nj'.getprop other = some v ∧
      (oj + nj.propPos other + (12 + align4 v.length) ≤ o + n.setPos name ∧
          oj' + nj'.propPos other = oj + nj.propPos other ∨
        o + n.setPos name + n.setOld name ≤ oj + nj.propPos other ∧
          oj' + nj'.propPos other + n.setOld name =
            oj + nj.propPos other + (12 + align4 val.length)) := by
  have hset := n.setPos_le name
  by_cases hji : j = id
  · subst hji
    obtain rfl := Option.some.inj (hn.symm.trans hj)
    obtain rfl := Option.some.inj (ho.symm.trans hoj)
    obtain ⟨hn', ho'⟩ := stays_modify hnodup hn ho (DtNode.setprop name val)
    obtain rfl := Option.some.inj (ho'.symm.trans hoj')
    have := DtNode.propPos_setprop (hne rfl) hv val
    exact ⟨_, hn', (DtNode.getprop_setprop_of_ne (hne rfl) val n).trans hv, by omega⟩
  · refine ⟨nj, (get?_modify_of_ne hji hnodup _).trans hj, hv, ?_⟩
    rcases precedes_total (mem_of_get? hj) (mem_of_get? hn) hji with h | h
    · obtain ⟨sub, hf⟩ := find?_of_get? hj
      have hle := offset_add_le_of_precedes hnodup h hf hoj ho
      obtain rfl := Option.some.inj
        (((offset_update_of_precedes hnodup (Or.inl h) _).trans hoj).symm.trans hoj')
      have := DtNode.propPos_le hv
      exact Or.inl ⟨by omega, rfl⟩
    · obtain ⟨sub, hf⟩ := find?_of_get? hn
      have hle := offset_add_le_of_precedes hnodup h hf ho hoj
      obtain ⟨oj'', hoj'', heq⟩ := DeviceTree.offset_modify hnodup h hn hoj
        (g := DtNode.setprop name val)
      obtain rfl := Option.some.inj (hoj'.symm.trans hoj'')
      have := n.openSize_setprop name val
      exact Or.inr ⟨by omega, by omega⟩

theorem fdtFindAddString_struct (fdt : Fdt) (s : Bytes) :
    (fdtFindAddString fdt s).2.dtStruct = fdt.dtStruct := by
  unfold fdtFindAddString
  split
  · rfl
  · dsimp only
    split
    · rfl
    · rfl

theorem Repr.resize_replaced (h : Repr fdt T) (hn : T.get? id = some n)
    (ho : DeviceTree.offset T id = some o) (hok : (fdtSetprop fdt o name val).1 = 0) {v : Bytes}
    (hv : n.getprop name = some v) :
    Replaced fdt.dtStruct (fdtSetprop fdt o name val).2.dtStruct (o + n.propPos name)
      (12 + align4 v.length) (12 + align4 val.length) := by
  have hpos : ∀ m : Nat, ¬((m : Int) < 0) := fun m => by omega
  have hval := le_align4 val.length
  have hfits := (fdtSetprop_ok fdt o name val).2.mp hok
  unfold SetFits at hfits
  unfold fdtSetprop fdtResizeProperty
  obtain ⟨hget, hlen, pad, rest, hpad, hdrop⟩ := h.property_at hn ho hv
  have hle : o + n.propPos name + 12 + align4 v.length ≤ fdt.dtStruct.length := by
    have hlength := congrArg List.length hdrop
    have hsum := add_pad4 v.length
    simp only [List.length_drop, List.length_append, List.length_cons] at hlength
    omega
  have hcast : ((o + n.propPos name : Nat) : Int) + 12 = ((o + n.propPos name + 12 : Nat) : Int) := by
    omega
  have hcast' : ((o + n.propPos name : Nat) : Int) + 4 = ((o + n.propPos name + 4 : Nat) : Int) := by
    omega
  have hge : 0 ≤ ((o + n.propPos name : Nat) : Int) := by omega
  simp only [hget, if_neg (hpos _), if_pos hge, hlen, fdtTagAlign_natCast, hcast, hcast'] at hfits ⊢
  have hr := fdtSpliceStruct_eq_zero.mpr hfits
  have hs := (Replaced.splice hle hr).widen
  have hzero : ¬((0 : Int) = errNotFound) := by simp [errNotFound]
  simp only [hr, ne_eq, not_true_eq_false, if_false, if_neg hzero, hcast]
  refine (hs.write ?_ ?_).write ?_ ?_
  · omega
  · rw [length_be32]
    omega
  · omega
  · omega

theorem Repr.add_replaced (h : Repr fdt T) (hn : T.get? id = some n)
    (ho : DeviceTree.offset T id = some o) (hok : (fdtSetprop fdt o name val).1 = 0)
    (hv : n.getprop name = none) :
    Replaced fdt.dtStruct (fdtSetprop fdt o name val).2.dtStruct
      (o + (4 + align4 (n.name.length + 1))) 0 (12 + align4 val.length) := by
  have hpos : ∀ m : Nat, ¬((m : Int) < 0) := fun m => by omega
  have hval := le_align4 val.length
  have hfits := (fdtSetprop_ok fdt o name val).2.mp hok
  unfold SetFits at hfits
  unfold fdtSetprop fdtResizeProperty
  have hget := h.getProperty_none hn ho hv
  obtain ⟨⟨n', sub⟩, hf, rfl⟩ := Option.map_eq_some_iff.mp hn
  obtain ⟨pre, pad, ps, ss, post, hat, -, -, ho', -⟩ := h.split hf
  obtain rfl : weight Tok.size pre = o := by simpa [ho] using ho'.symm
  have hcheck : fdtCheckNodeOffset fdt (weight Tok.size pre : Nat) =
      ((weight Tok.size pre + (4 + align4 (n'.name.length + 1)) : Nat) : Int) := by
    rw [checkNodeOffset_append hat]
    simp [Tok.size]
  have hneg : errNotFound < 0 := by simp [errNotFound]
  have hge : ¬0 ≤ errNotFound := by simp [errNotFound]
  unfold AddFits at hfits
  have hnew : (12 : Int) + (align4 val.length : Nat) = ((12 + align4 val.length : Nat) : Int) := by omega
  simp only [hget, if_neg hge, hcheck, fdtTagAlign_natCast, hnew] at hfits
  obtain ⟨-, -, hs, hsplice⟩ := hfits
  have hr := fdtSpliceStruct_eq_zero.mpr hsplice
  have hle : weight Tok.size pre + (4 + align4 (n'.name.length + 1)) + 0 ≤
      (fdtFindAddString fdt name).2.dtStruct.length := by
    rw [fdtFindAddString_struct]
    have := hat.length_eq
    simp only [weight_append, weight_cons, Tok.size, List.cons_append] at this
    omega
  have hrep := Replaced.splice hle hr
  rw [fdtFindAddString_struct] at hrep
  simp only [hget, if_pos hneg, if_true, fdtAddProperty, hcheck, if_neg (hpos _), fdtTagAlign_natCast,
    hnew, if_neg (Int.not_lt.mpr hs), hr, ne_eq, not_true_eq_false, if_false]
  generalize weight Tok.size pre + (4 + align4 (n'.name.length + 1)) = q at hrep ⊢
  have hcasts : (q : Int) + 4 = ((q + 4 : Nat) : Int) ∧ (q : Int) + 8 = ((q + 8 : Nat) : Int) ∧
      (q : Int) + 12 = ((q + 12 : Nat) : Int) := by omega
  rw [hcasts.1, hcasts.2.1, hcasts.2.2]
  refine (((hrep.write (Nat.le_refl q) ?_).write ?_ ?_).write ?_ ?_).write ?_ ?_
  all_goals try rw [length_be32]
  all_goals omega

theorem Repr.setprop_replaced (h : Repr fdt T) (hn : T.get? id = some n)
    (ho : DeviceTree.offset T id = some o) (hok : (fdtSetprop fdt o name val).1 = 0) :
    Replaced fdt.dtStruct (fdtSetprop fdt o name val).2.dtStruct (o + n.setPos name) (n.setOld name)
      (12 + align4 val.length) := by
  cases hv : n.getprop name with
  | some v =>
    rw [(DtNode.setPos_of_some hv).1, (DtNode.setPos_of_some hv).2]
    exact h.resize_replaced hn ho hok hv
  | none =>
    rw [(DtNode.setPos_of_none hv).1, (DtNode.setPos_of_none hv).2]
    exact h.add_replaced hn ho hok hv

theorem cstr_zero (x rest rest' : Bytes) : cstr (x ++ 0 :: rest) = cstr (x ++ 0 :: rest') := by
  by_cases hz : 0 ∈ x
  · rw [cstr_append_of_mem hz, cstr_append_of_mem hz]
  · rw [cstr_append hz, cstr_append hz]

/-- The string at another property reads the same, also where it has no end. -/
theorem Repr.setprop_string (h : Repr fdt T) (hn : T.get? id = some n)
    (ho : DeviceTree.offset T id = some o) (hok : (fdtSetprop fdt o name val).1 = 0)
    (h' : Repr (fdtSetprop fdt o name val).2 (T.modify id (DtNode.setprop name val)))
    {j oj oj' : Nat} {nj : DtNode} (hj : T.get? j = some nj) (hoj : DeviceTree.offset T j = some oj)
    (hoj' : DeviceTree.offset (T.modify id (DtNode.setprop name val)) j = some oj') {other : Bytes}
    (hne : j = id → other ≠ name) :
    (fdtGetprop (fdtSetprop fdt o name val).2 oj' other).1.map (cstrAt (fdtSetprop fdt o name val).2) =
      (fdtGetprop fdt oj other).1.map (cstrAt fdt) := by
  have hpos : ∀ m : Nat, ¬((m : Int) < 0) := fun m => by omega
  have hrep := h.setprop_replaced hn ho hok
  cases hv : nj.getprop other with
  | none =>
    have hget : ((T.modify id (DtNode.setprop name val)).get? j).bind (DtNode.getprop · other) = none := by
      by_cases hji : j = id
      · subst hji
        rw [get?_modify_self, hj, Option.map_some, Option.bind_some,
          DtNode.getprop_setprop_of_ne (hne rfl), hv]
      · rw [get?_modify_of_ne hji h.nodup, hj, Option.bind_some, hv]
    obtain ⟨nj', hj'⟩ := get?_of_mem (mem_of_offset hoj')
    rw [hj', Option.bind_some] at hget
    rw [h.getprop_none hj hoj hv, h'.getprop_none hj' hoj' hget]
    rfl
  | some v =>
    obtain ⟨nj', hj', hv', hmove⟩ := DeviceTree.propPos_setprop h.nodup hn ho val hj hoj hoj' hne hv
    obtain ⟨hget, -, pad, rest, hpad, hdrop⟩ := h.property_at hj hoj hv
    obtain ⟨hget', -, pad', rest', hpad', hdrop'⟩ := h'.property_at hj' hoj' hv'
    have hsum := add_pad4 v.length
    have hcast : ∀ k : Nat, ((k : Int) + 12).toNat = k + 12 := fun k => by omega
    simp only [fdtGetprop, hget, hget', if_neg (hpos _), Option.map_some, cstrAt, hcast]
    rcases hmove with ⟨hle, heq⟩ | ⟨hle, heq⟩
    · rw [heq] at hdrop' ⊢
      have hfront := hrep.front (q := oj + nj.propPos other + 12) (k := align4 v.length) (by omega)
      rw [hdrop, hdrop', ← List.append_assoc, ← List.append_assoc,
        List.take_left' (by rw [List.length_append]; omega),
        List.take_left' (by rw [List.length_append]; omega)] at hfront
      rw [hdrop, hdrop', ← List.append_assoc, ← List.append_assoc, hfront]
      exact congrArg some (cstr_zero _ _ _)
    · rw [hrep.behind (q := oj + nj.propPos other + 12) (by omega) (by omega)]

end

end Babelfish.Libfdt
