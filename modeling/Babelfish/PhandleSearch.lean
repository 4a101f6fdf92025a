import Babelfish.Libfdt.Searches
import Babelfish.Handles

/-! `fdt_node_offset_by_phandle` leads to the node that holds the phandle: in any tree whose phandles
are distinct, and after `fdt_create_phandle`. -/

namespace Babelfish

open Libfdt Bytes Forest DeviceTree

variable {fdt : Fdt} {T : DeviceTree}

theorem firstOf_eq {accept : DtNode → Bool} {id o : Nat} {n : DtNode} (hn : T.get? id = some n)
    (ho : DeviceTree.offset T id = some o) (hacc : accept n = true)
    (hother : ∀ i m, T.get? i = some m → accept m = true → i = id) :
    T.firstOf accept T.ids = o := by
  have hfind : T.ids.find? (fun i => (T.get? i).any accept) = some id := by
    have hex : (T.ids.find? fun i => (T.get? i).any accept).isSome := by
      rw [List.find?_isSome]
      exact ⟨id, mem_of_get? hn, by simp [hn, hacc]⟩
    obtain ⟨i, hi⟩ := Option.isSome_iff_exists.mp hex
    have hsat := List.find?_some hi
    obtain ⟨m, hm⟩ := get?_of_mem (List.mem_of_find?_eq_some hi)
    rw [hm, Option.any_some] at hsat
    rw [hi, hother i m hm hsat]
  simp [DeviceTree.firstOf, hfind, ho]

theorem firstOf_none {accept : DtNode → Bool} (h : ∀ i m, T.get? i = some m → accept m = false) :
    T.firstOf accept T.ids = errNotFound := by
  have hfind : T.ids.find? (fun i => (T.get? i).any accept) = none := by
    rw [List.find?_eq_none]
    intro i hi
    obtain ⟨m, hm⟩ := get?_of_mem hi
    simp [hm, h i m hm]
  simp [DeviceTree.firstOf, hfind]

/-- Where no two nodes share a phandle, `fdt_node_offset_by_phandle` is the inverse of
`fdt_get_phandle`. -/
theorem nodeOffsetByPhandle_iff (h : Repr fdt T) (hd : DistinctHandles T) {phandle : UInt32}
    (hok : phandle ≠ 0 ∧ phandle ≠ 4294967295) {o : Nat} :
    fdtNodeOffsetByPhandle fdt phandle = o ↔
      (∃ id, DeviceTree.offset T id = some o) ∧ fdtGetPhandle fdt o = phandle.toNat := by
  have hpos : phandle.toNat ≠ 0 := fun e => hok.1 (UInt32.toNat_inj.mp e)
  have hfound : ∀ {id oid : Nat} {n : DtNode}, T.get? id = some n →
      DeviceTree.offset T id = some oid → n.phandle = phandle.toNat →
      fdtNodeOffsetByPhandle fdt phandle = oid := by
    intro id oid n hn hoid hp
    rw [h.nodeOffsetByPhandle hok]
    refine firstOf_eq hn hoid (by simpa using hp) fun i m hm hacc => ?_
    have hm' : m.phandle = phandle.toNat := by simpa using hacc
    exact hd i id m n hm hn (by rw [hm']; exact hpos) (hm'.trans hp.symm)
  constructor
  · intro ho
    by_cases hex : ∃ i m, T.get? i = some m ∧ m.phandle = phandle.toNat
    · obtain ⟨i, m, hm, hp⟩ := hex
      obtain ⟨oi, hoi⟩ := DeviceTree.offset_isSome (mem_of_get? hm)
      have := hfound hm hoi hp
      obtain rfl : oi = o := by omega
      exact ⟨⟨i, hoi⟩, by rw [h.getPhandle hm hoi, hp]⟩
    · have hnone : T.firstOf (fun n => n.phandle == phandle.toNat) T.ids = errNotFound :=
        firstOf_none fun i m hm => by
          simpa using fun hp => hex ⟨i, m, hm, hp⟩
      rw [h.nodeOffsetByPhandle hok, hnone] at ho
      simp only [errNotFound] at ho
      omega
  · rintro ⟨⟨id, hid⟩, hp⟩
    obtain ⟨n, hn⟩ := get?_of_mem (mem_of_offset hid)
    rw [h.getPhandle hn hid] at hp
    exact hfound hn hid hp

theorem nodeOffsetByPhandle_iff_handle :
    fdtNodeOffsetByPhandle (handleTree.blob 200) 1 = (8 : Nat) ↔
      (∃ id, DeviceTree.offset handleTree id = some 8) ∧ fdtGetPhandle (handleTree.blob 200) (8 : Nat) = 1 :=
  nodeOffsetByPhandle_iff handleTree_repr (fun i j n m hi hj hne he => by
    rw [(handleTree_nodes i n hi).2 hne, (handleTree_nodes j m hj).2 (he ▸ hne)]) (by decide)

/-- The phandle that `fdt_create_phandle` returns leads back to the node. -/
theorem createPhandle_search {w : World} {target : Target} {id o : Nat} {n : DtNode}
    (h : Repr w.fdt T) (hlt : PhandlesBelow 2147483647 T) (hn : T.get? id = some n)
    (ho : DeviceTree.offset T id = some o) (hnone : n.phandle = 0) (hroom : 54 ≤ w.fdt.free.length) :
    Runs (fdtCreatePhandle target o) w fun ph w' =>
      fdtGetPhandle w'.fdt o = ph.toNat ∧ fdtNodeOffsetByPhandle w'.fdt ph = o := by
  refine runs_createPhandle h hn ho hnone hroom fun ph w' hnext hleaves => ?_
  have hph := hnext hlt
  have hrepr := hleaves.1
  rw [modify_modify] at hrepr
  change Repr w'.fdt (T.modify id (giveHandle ph)) at hrepr
  obtain ⟨hn', ho'⟩ := DeviceTree.stays_modify h.nodup hn ho (giveHandle ph)
  have hpos := hph.pos
  have hmax : ph.toNat < 4294967295 := by
    rcases hph.least with hone | ⟨j, m, hm, hp⟩
    · omega
    · have := hlt j m hm
      omega
  have hok : ph ≠ 0 ∧ ph ≠ 4294967295 := by
    constructor
    · rintro rfl
      simp at hpos
    · rintro rfl
      simp at hmax
  refine ⟨by rw [hrepr.getPhandle hn' ho', phandle_giveHandle], ?_⟩
  rw [hrepr.nodeOffsetByPhandle hok]
  refine firstOf_eq hn' ho' (by simp [phandle_giveHandle]) fun i m hm hacc => ?_
  by_contra hi
  rw [get?_modify_of_ne hi h.nodup] at hm
  have hltm := hph.lt i m hm
  have heq : m.phandle = ph.toNat := by simpa using hacc
  omega

theorem createPhandle_search_handle :
    Runs (fdtCreatePhandle .root (36 : Nat)) ⟨handleTree.blob 200, []⟩ fun ph w' =>
      fdtGetPhandle w'.fdt (36 : Nat) = ph.toNat ∧ fdtNodeOffsetByPhandle w'.fdt ph = (36 : Nat) :=
  createPhandle_search handleTree_repr (fun j n hj => by
      have := (handleTree_nodes j n hj).1
      omega)
    (show handleTree.get? 2 = some ⟨Bytes.ofString "b", []⟩ from rfl) (by decide) (by decide)
    ((show 54 ≤ 200 by decide).trans_eq List.length_replicate.symm)

end Babelfish
