import Babelfish.Strings.Move
import Babelfish.Libfdt.ReadWrite

/-! `_fdt_splice` of `fdt_rw.c` on memory: what `memmove` makes of a blob is what the model of
`_fdt_splice_struct` makes of its blocks. -/

namespace Babelfish.Strings

open Libfdt

/-- The call with its `int` result; `stop` is the end of the data and `limit` that of the blob. -/
def fdtSplice (m : Memory) (stop limit p : Addr) (oldlen newlen : UInt32) : Int × Memory :=
  if p + oldlen < p ∨ stop < p + oldlen then (errBadOffset, m)
  else if limit < stop - oldlen + newlen then (errNoSpace, m)
  else (0, (memmove m (p + newlen) (p + oldlen) (stop - p - oldlen)).2)

def blocks (fdt : Fdt) : Bytes := fdt.dtStruct ++ fdt.dtStrings ++ fdt.free

variable {fdt : Fdt} {p old new : Nat}

theorem take_spliced (data free : Bytes) (hold : p + old ≤ data.length) :
    data.take (p + min old new) ++ (((data ++ free).drop (p + old)).take (new - old) ++
        data.drop (p + old)) ++ (data.drop (data.length - (old - new)) ++ free.drop (new - old)) =
      (data ++ free).take (p + new) ++ (data.drop (p + old) ++
        (data ++ free).drop (p + new + (data.length - (p + old)))) := by
  by_cases hle : old ≤ new
  · -- The room grows, into the free space.
    have hmin : min old new = old := Nat.min_eq_left hle
    have hnew : p + new = p + old + (new - old) := by omega
    have hend : p + new + (data.length - (p + old)) = data.length + (new - old) := by omega
    have hzero : data.length - (old - new) = data.length := by omega
    have htake : (data ++ free).take (p + old + (new - old)) =
        data.take (p + old) ++ ((data ++ free).drop (p + old)).take (new - old) := by
      rw [List.take_add, List.take_append_of_le_length hold]
    rw [hmin, hend, hzero, hnew, htake, List.drop_length, List.drop_length_add_append]
    simp only [List.append_assoc, List.nil_append]
  · have hmin : min old new = new := Nat.min_eq_right (by omega)
    have hend : p + new + (data.length - (p + old)) = data.length - (old - new) := by omega
    have hzero : new - old = 0 := by omega
    rw [hmin, hend, hzero, List.take_zero, List.drop_zero, List.nil_append,
      List.take_append_of_le_length (by omega), List.drop_append_of_le_length (by omega),
      List.append_assoc]

theorem blocks_spliceStruct (hold : p + old ≤ (fdt.dtStruct ++ fdt.dtStrings).length)
    (hnew : new ≤ fdt.free.length + old) :
    (fdtSpliceStruct fdt p old new).1 = 0 ∧ blocks (fdtSpliceStruct fdt p old new).2 =
      (blocks fdt).take (p + new) ++ ((fdt.dtStruct ++ fdt.dtStrings).drop (p + old) ++
        (blocks fdt).drop (p + new + ((fdt.dtStruct ++ fdt.dtStrings).length - (p + old)))) := by
  have hgood : ¬((old : Int) < 0 ∨
      ((fdt.dtStruct ++ fdt.dtStrings).length : Int) < (p : Int) + old) := by omega
  have hroom : ¬((fdt.free.length : Int) < (new : Int) - old) := by omega
  unfold fdtSpliceStruct
  simp only [if_neg hgood, if_neg hroom, Int.toNat_natCast, blocks, List.take_append_drop]
  exact ⟨trivial, take_spliced _ _ hold⟩

section

variable {m : Memory} {a : Addr} {data free : Bytes}

theorem holds_spliced {m' : Memory} (h : m.Holds a (data ++ free))
    (hspace : a.toNat + (data ++ free).length ≤ 2 ^ 31) (hold : p + old ≤ data.length)
    (hnew : new ≤ free.length + old)
    (hm' : Moved m (a + UInt32.ofNat (p + new)) (a + UInt32.ofNat (p + old)) 0
      (data.length - (p + old)) m') :
    m'.Holds a ((data ++ free).take (p + new) ++ (data.drop (p + old) ++
      (data ++ free).drop (p + new + (data.length - (p + old))))) := by
  rw [List.length_append] at hspace
  have hlen : (data ++ free).length = data.length + free.length := List.length_append
  have hframe : ∀ i < data.length + free.length, i < p + new ∨ p + new + (data.length - (p + old)) ≤ i →
      m' (a + UInt32.ofNat i) = m (a + UInt32.ofNat i) := fun i hi hout =>
    hm'.frame _ fun j _ hj => by
      rw [Memory.add_ofNat_add, Memory.add_ofNat_ne_iff (by omega), Memory.toNat_add_ofNat (by omega)]
      omega
  have htake : ((data ++ free).take (p + new)).length = p + new := by
    rw [List.length_take]
    omega
  have hdrop : (data.drop (p + old)).length = data.length - (p + old) := List.length_drop
  have hend : ((data ++ free).drop (p + new + (data.length - (p + old)))).length =
      data.length + free.length - (p + new + (data.length - (p + old))) := by
    rw [List.length_drop, hlen]
  rw [Memory.holds_append, Memory.holds_append, htake, hdrop, Memory.add_ofNat_add]
  refine ⟨(h.take _).congr fun i hi => hframe i (by omega) (Or.inl (by omega)), ?_,
    (h.drop (by omega)).congr fun i hi => ?_⟩
  · have hmoved := (hm'.outside (by rw [Memory.toNat_add_ofNat (by omega)]; omega)).1
    have hdata : m.Holds (a + UInt32.ofNat (p + old)) (data.drop (p + old)) :=
      (Memory.holds_append.mp h).1.drop hold
    unfold Memory.Holds at hdata ⊢
    rw [hdrop] at hdata ⊢
    exact hmoved.trans hdata
  · rw [Memory.add_ofNat_add]
    exact hframe _ (by omega) (Or.inr (by omega))

end

section

variable {a : Addr} {size limit : Nat}

theorem toNat_ofNat_of_lt (h : new < 2 ^ 31) : (UInt32.ofNat new).toNat = new := by
  rw [UInt32.toNat_ofNat']
  omega

/-- The first test, which also sees sums that wrap around. -/
theorem badOffset_iff (hspace : a.toNat + size < 2 ^ 31) (hp : p < 2 ^ 31) (hold : old < 2 ^ 31) :
    (a + UInt32.ofNat p + UInt32.ofNat old < a + UInt32.ofNat p ∨
      a + UInt32.ofNat size < a + UInt32.ofNat p + UInt32.ofNat old) ↔ size < p + old := by
  have hsize : (a + UInt32.ofNat size).toNat = a.toNat + size := Memory.toNat_add_ofNat (by omega)
  have hpoint : (a + UInt32.ofNat p).toNat = a.toNat + p := Memory.toNat_add_ofNat (by omega)
  rw [UInt32.lt_iff_toNat_lt, UInt32.lt_iff_toNat_lt, UInt32.toNat_add, hpoint, toNat_ofNat_of_lt hold,
    hsize]
  omega

theorem noSpace_iff (hspace : a.toNat + limit < 2 ^ 31) (hsize : size ≤ limit) (hold : old ≤ size)
    (hnew : new < 2 ^ 31) :
    a + UInt32.ofNat limit < a + UInt32.ofNat size - UInt32.ofNat old + UInt32.ofNat new ↔
      limit + old < size + new := by
  have hstop : (a + UInt32.ofNat size).toNat = a.toNat + size := Memory.toNat_add_ofNat (by omega)
  have hlimit : (a + UInt32.ofNat limit).toNat = a.toNat + limit := Memory.toNat_add_ofNat (by omega)
  have hsub := UInt32.toNat_sub (a + UInt32.ofNat size) (UInt32.ofNat old)
  rw [hstop, toNat_ofNat_of_lt (by omega)] at hsub
  rw [UInt32.lt_iff_toNat_lt, hlimit, UInt32.toNat_add, toNat_ofNat_of_lt hnew, hsub]
  omega

theorem toNat_moved (hspace : a.toNat + size < 2 ^ 31) (hp : p + old ≤ size) :
    (a + UInt32.ofNat size - (a + UInt32.ofNat p) - UInt32.ofNat old).toNat = size - (p + old) := by
  have hstop : (a + UInt32.ofNat size).toNat = a.toNat + size := Memory.toNat_add_ofNat (by omega)
  have hpoint : (a + UInt32.ofNat p).toNat = a.toNat + p := Memory.toNat_add_ofNat (by omega)
  rw [UInt32.toNat_sub, UInt32.toNat_sub, hstop, hpoint, toNat_ofNat_of_lt (by omega)]
  omega

end

theorem fdtSplice_refines {m : Memory} {a : Addr} (h : m.Holds a (blocks fdt))
    (hspace : a.toNat + (blocks fdt).length < 2 ^ 31) (hp : p < 2 ^ 31) (hold : old < 2 ^ 31)
    (hnew : new < 2 ^ 31) :
    let r := fdtSpliceStruct fdt p old new
    let s := fdtSplice m (a + UInt32.ofNat (fdt.dtStruct ++ fdt.dtStrings).length)
      (a + UInt32.ofNat (blocks fdt).length) (a + UInt32.ofNat p) (UInt32.ofNat old) (UInt32.ofNat new)
    s.1 = r.1 ∧ s.2.Holds a (blocks r.2) ∧
      ∀ b : Addr, ¬(a.toNat ≤ b.toNat ∧ b.toNat < a.toNat + (blocks fdt).length) → s.2 b = m b := by
  have hlen : (blocks fdt).length = (fdt.dtStruct ++ fdt.dtStrings).length + fdt.free.length :=
    List.length_append
  have hdata : a.toNat + (fdt.dtStruct ++ fdt.dtStrings).length < 2 ^ 31 := by omega
  have hbad := badOffset_iff hdata hp hold
  dsimp only
  unfold fdtSplice
  by_cases hout : (fdt.dtStruct ++ fdt.dtStrings).length < p + old
  · have hmodel : (old : Int) < 0 ∨
        ((fdt.dtStruct ++ fdt.dtStrings).length : Int) < (p : Int) + old := by omega
    rw [if_pos (hbad.mpr hout), fdtSpliceStruct, if_pos hmodel]
    exact ⟨rfl, h, fun _ _ => rfl⟩
  have hmodel : ¬((old : Int) < 0 ∨
      ((fdt.dtStruct ++ fdt.dtStrings).length : Int) < (p : Int) + old) := by omega
  have hle : (fdt.dtStruct ++ fdt.dtStrings).length ≤ (blocks fdt).length := by omega
  have hfits : old ≤ (fdt.dtStruct ++ fdt.dtStrings).length := by omega
  have hfull := noSpace_iff hspace hle hfits hnew
  rw [if_neg (mt hbad.mp hout)]
  by_cases hno : (blocks fdt).length + old < (fdt.dtStruct ++ fdt.dtStrings).length + new
  · have hroom : (fdt.free.length : Int) < (new : Int) - old := by omega
    rw [if_pos (hfull.mpr hno), fdtSpliceStruct, if_neg hmodel, if_pos hroom]
    exact ⟨rfl, h, fun _ _ => rfl⟩
  obtain ⟨hret, hblocks⟩ := @blocks_spliceStruct fdt p old new (by omega) (by omega)
  have hdest : (a + UInt32.ofNat (p + new)).toNat = a.toNat + (p + new) :=
    Memory.toNat_add_ofNat (by omega)
  have hsrc : (a + UInt32.ofNat (p + old)).toNat = a.toNat + (p + old) :=
    Memory.toNat_add_ofNat (by omega)
  have hcount := toNat_moved hdata (Nat.le_of_not_lt hout)
  have hmoved := (@memmove_spec m (a + UInt32.ofNat (p + new)) (a + UInt32.ofNat (p + old)) _
    (by rw [hcount]; omega) (by rw [hcount, hdest]; omega) (by rw [hcount, hsrc]; omega)).2
  rw [hcount] at hmoved
  rw [if_neg (mt hfull.mp hno), Memory.add_ofNat_add, Memory.add_ofNat_add, hret, hblocks]
  refine ⟨rfl, holds_spliced h (Nat.le_of_lt hspace) (by omega) (by omega) hmoved, fun b hb => ?_⟩
  refine (hmoved.outside (by rw [hdest]; omega)).2 b ?_
  rw [hdest]
  omega

end Babelfish.Strings
