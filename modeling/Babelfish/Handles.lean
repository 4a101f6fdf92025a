import Babelfish.Grouping
import Babelfish.Libfdt.Flatten

/-! Sequences of `fdt_create_phandle`: the phandles of a tree stay apart. -/

namespace Babelfish

open Libfdt Bytes Forest DeviceTree

def createPhandles : List Bytes → Fixup (List UInt32)
  | [] => pure []
  | path :: paths => do
    let offset ← pathOffset path
    let phandle ← fdtCreatePhandle (.path path) offset
    let phandles ← createPhandles paths
    pure (phandle :: phandles)

def giveHandle (ph : UInt32) (n : DtNode) : DtNode :=
  (n.setprop strPhandle (be32 ph.toNat)).setprop strLinuxPhandle (be32 ph.toNat)

def DistinctHandles (T : DeviceTree) : Prop :=
  ∀ i j n m, T.get? i = some n → T.get? j = some m → n.phandle ≠ 0 → n.phandle = m.phandle → i = j

/-- `T` is `T₀` but for the nodes that were made a phandle. -/
structure Handled (T₀ T : DeviceTree) (made : Nat → Option UInt32) : Prop where
  ids : T.ids = T₀.ids
  kids : ∀ j, T.kids j = T₀.kids j
  node : ∀ j, T.get? j = (T₀.get? j).map fun n => (made j).elim n fun ph => giveHandle ph n
  none : ∀ j n, T₀.get? j = some n → made j ≠ none → n.phandle = 0
  pos : ∀ j ph, made j = some ph → 0 < ph.toNat

theorem getprop_giveHandle (ph : UInt32) (n : DtNode) :
    (giveHandle ph n).getprop strPhandle = some (be32 ph.toNat) ∧
      (giveHandle ph n).getprop strLinuxPhandle = some (be32 ph.toNat) := by
  have hne : strPhandle ≠ strLinuxPhandle := by decide
  constructor
  · rw [giveHandle, DtNode.getprop_setprop_of_ne hne, DtNode.getprop_setprop_self]
  · rw [giveHandle, DtNode.getprop_setprop_self]

theorem phandle_giveHandle (ph : UInt32) (n : DtNode) : (giveHandle ph n).phandle = ph.toNat := by
  have hlen : (be32 ph.toNat).length = 4 := rfl
  have hread : readBe32 (be32 ph.toNat) = ph.toNat := by
    have := readBe32_be32 ph.toNat_lt []
    rwa [List.append_nil] at this
  rw [DtNode.phandle, DtNode.cell, (getprop_giveHandle ph n).1]
  simp only [hlen, if_true, hread]

theorem keepsName_giveHandle (ph : UInt32) : KeepsName (giveHandle ph) := fun _ => rfl

theorem phandle_lt (n : DtNode) : n.phandle < 4294967296 := by
  have hcell : ∀ name p, n.cell name = some p → p < 4294967296 := fun name p hp => by
    unfold DtNode.cell at hp
    split at hp
    · split at hp
      · exact Option.some.inj hp ▸ readBe32_lt _
      · cases hp
    · cases hp
  unfold DtNode.phandle
  cases hp : n.cell strPhandle with
  | some p => exact hcell _ _ hp
  | none =>
    cases hp' : n.cell strLinuxPhandle with
    | some p => exact hcell _ _ hp'
    | none => exact Nat.zero_lt_succ _

section

variable {w : World} {T₀ T : DeviceTree} {made : Nat → Option UInt32} {i : Nat} {path : Bytes}

theorem Handled.refl (T : DeviceTree) : Handled T T fun _ => Option.none where
  ids := rfl
  kids _ := rfl
  node j := by
    cases T.get? j with
    | none => rfl
    | some n => rfl
  none _ _ _ h := absurd rfl h
  pos _ _ h := by cases h

theorem Handled.give (h : Handled T₀ T made) (hn : T.ids.Nodup) {n : DtNode} (hi : T.get? i = some n)
    (hnone : n.phandle = 0) (hmade : made i = Option.none) {ph : UInt32} (hpos : 0 < ph.toNat) :
    Handled T₀ (T.modify i (giveHandle ph)) fun j => if j = i then some ph else made j where
  ids := (ids_modify _ _ _).trans h.ids
  kids j := (kids_modify hn i j _).trans (h.kids j)
  node j := by
    by_cases hj : j = i
    · subst hj
      have hnode := h.node j
      rw [hmade] at hnode
      rw [get?_modify_self, hnode]
      simp only [if_true, Option.map_map]
      rfl
    · rw [get?_modify_of_ne hj hn, h.node j]
      simp only [if_neg hj]
  none j m hm hne := by
    by_cases hj : j = i
    · subst hj
      have hnode := h.node j
      rw [hmade, hm, hi] at hnode
      have he : n = m := Option.some.inj hnode
      exact he ▸ hnone
    · simp only [if_neg hj] at hne
      exact h.none j m hm hne
  pos j ph' hj := by
    by_cases he : j = i
    · rw [if_pos he] at hj
      exact Option.some.inj hj ▸ hpos
    · rw [if_neg he] at hj
      exact h.pos j ph' hj

theorem distinct_give (hd : DistinctHandles T) (hn : T.ids.Nodup) {ph : UInt32}
    (hph : NextPhandle T ph) : DistinctHandles (T.modify i (giveHandle ph)) := by
  have hget : ∀ j n, (T.modify i (giveHandle ph)).get? j = some n → j = i ∧ n.phandle = ph.toNat ∨
      j ≠ i ∧ T.get? j = some n := fun j n hj => by
    by_cases he : j = i
    · subst he
      rw [get?_modify_self, Option.map_eq_some_iff] at hj
      obtain ⟨m, -, rfl⟩ := hj
      exact Or.inl ⟨rfl, phandle_giveHandle ph m⟩
    · rw [get?_modify_of_ne he hn] at hj
      exact Or.inr ⟨he, hj⟩
  intro j k n m hj hk hne he
  rcases hget j n hj with ⟨rfl, hjp⟩ | ⟨hji, hj⟩
  · rcases hget k m hk with ⟨rfl, -⟩ | ⟨-, hk⟩
    · rfl
    · have := hph.lt k m hk
      omega
  · rcases hget k m hk with ⟨rfl, hkp⟩ | ⟨-, hk⟩
    · have := hph.lt j n ‹T.get? j = some n›
      omega
    · exact hd j k n m ‹T.get? j = some n› hk hne he

structure Created (T₀ T T' : DeviceTree) (made made' : Nat → Option UInt32) (i : Nat) (ph : UInt32) :
    Prop where
  handled : Handled T₀ T' made'
  distinct : DistinctHandles T'
  node : ∃ n, T'.get? i = some n ∧ n.phandle = ph.toNat
  pos : 0 < ph.toNat
  kept : ∀ j n, T.get? j = some n → n.phandle ≠ 0 → T'.get? j = some n
  only : ∀ j, made j = Option.none → made' j ≠ Option.none → j = i

theorem runs_handle (h : Repr w.fdt T) (hh : Handled T₀ T made) (hd : DistinctHandles T)
    (hz : 0 ∉ path) (habs : path.head? = some slash) (hi : T.lookup path = some i) {k : Nat}
    (hlt : ∀ j n, T.get? j = some n → n.phandle + (k + 1) < 2147483647)
    (hroom : 54 ≤ w.fdt.free.length) {Q : UInt32 → World → Prop}
    (hQ : ∀ ph w' T' made', Created T₀ T T' made made' i ph →
      (∀ j n, T'.get? j = some n → n.phandle + k < 2147483647) →
      (∀ p, T'.lookup p = T.lookup p) → Leaves w 54 T' w' → Q ph w') :
    Runs (pathOffset path >>= fun o => fdtCreatePhandle (.path path) o) w Q := by
  obtain ⟨n, hn⟩ := get?_of_mem (walk_mem h.root_mem hi)
  obtain ⟨o, ho⟩ := DeviceTree.offset_isSome (mem_of_get? hn)
  have hr : T.resolve path = some i := by rw [resolve, if_pos habs, hi]
  refine Runs.bind (runs_pathOffset h hz hr ho ?_)
  have hw : Repr (w.call .root (.pathOffset path) 0).fdt T := h
  by_cases hnone : n.phandle = 0
  · refine runs_createPhandle hw hn ho hnone hroom fun ph w' hnext hl => ?_
    have hph := hnext fun j m hj => by have := hlt j m hj; omega
    have hpos := hph.pos
    rw [modify_modify] at hl
    have hl' : Leaves w 54 (T.modify i (giveHandle ph)) w' := hl
    have hmade : made i = Option.none := by
      by_contra hne
      obtain ⟨ph', hph'⟩ := Option.ne_none_iff_exists'.mp hne
      have hnode := hh.node i
      rw [hph', hn, eq_comm, Option.map_eq_some_iff] at hnode
      obtain ⟨m, -, rfl⟩ := hnode
      have hpos' := hh.pos i ph' hph'
      rw [Option.elim_some, phandle_giveHandle] at hnone
      omega
    refine hQ ph w' _ _ ⟨hh.give h.nodup hn hnone hmade hpos, distinct_give hd h.nodup hph,
      ⟨giveHandle ph n, by rw [get?_modify_self, hn]; rfl, phandle_giveHandle ph n⟩, hpos,
      fun j m hj hne => ?_, fun j hj hne => ?_⟩ (fun j m hj => ?_)
      (fun p => lookup_modify h.nodup (keepsName_giveHandle ph) p) hl'
    · rw [get?_modify_of_ne (fun e => ?_) h.nodup, hj]
      subst e
      rw [hn] at hj
      exact hne (Option.some.inj hj ▸ hnone)
    · by_contra hji
      simp only [if_neg hji] at hne
      exact hne hj
    · by_cases hji : j = i
      · subst hji
        rw [get?_modify_self, hn, Option.map_some, Option.some.injEq] at hj
        rw [← hj, phandle_giveHandle]
        rcases hph.least with hone | ⟨j', n', hn', hp⟩
        · have := hlt j n hn
          omega
        · have := hlt j' n' hn'
          omega
      · rw [get?_modify_of_ne hji h.nodup] at hj
        have := hlt j m hj
        omega
  · have hzero : ¬((n.phandle : Int) = 0) := by omega
    have hlt' := phandle_lt n
    have hret : (UInt32.ofInt (n.phandle : Int)).toNat = n.phandle := by
      have := toNat_ofInt (Int.natCast_nonneg n.phandle) (by omega)
      omega
    unfold fdtCreatePhandle
    refine Runs.bind (runs_getPhandle hw hn ho ?_)
    rw [if_neg hzero]
    refine Runs.pure (hQ _ _ T made ⟨hh, hd, ⟨n, hn, hret.symm⟩, by omega, fun _ _ hj _ => hj,
      fun j hj hne => absurd hj hne⟩ (fun j m hj => ?_) (fun _ => rfl) ⟨hw, Nat.le_add_right _ _⟩)
    have := hlt j m hj
    omega

/-- The phandles that the calls return are those of the nodes, whatever is called later. -/
structure Returned (T T' : DeviceTree) (paths : List Bytes) (phs : List UInt32) : Prop where
  length : phs.length = paths.length
  node : ∀ p ph, (p, ph) ∈ paths.zip phs → ∃ i n, T.lookup p = some i ∧ T'.get? i = some n ∧
    n.phandle = ph.toNat ∧ 0 < ph.toNat

theorem runs_createPhandles {paths : List Bytes} (h : Repr w.fdt T) (hh : Handled T₀ T made)
    (hd : DistinctHandles T) (hpaths : ∀ p ∈ paths, 0 ∉ p ∧ p.head? = some slash ∧ T.lookup p ≠ none)
    (hlt : ∀ j n, T.get? j = some n → n.phandle + paths.length < 2147483647)
    (hroom : 54 * paths.length ≤ w.fdt.free.length) :
    Runs (createPhandles paths) w fun phs w' => ∃ T' made', Repr w'.fdt T' ∧ Handled T₀ T' made' ∧
      DistinctHandles T' ∧ Returned T T' paths phs ∧
      (∀ j n, T.get? j = some n → n.phandle ≠ 0 → T'.get? j = some n) ∧
      ∀ j, made j = none → made' j ≠ none → ∃ p ∈ paths, T.lookup p = some j := by
  induction paths generalizing w T made with
  | nil =>
    refine Runs.pure ⟨T, made, h, hh, hd, ⟨rfl, fun p ph hm => ?_⟩, fun _ _ hj _ => hj,
      fun j hj hne => absurd hj hne⟩
    simp at hm
  | cons path paths ih =>
    obtain ⟨hz, habs, hne⟩ := hpaths path List.mem_cons_self
    obtain ⟨i, hi⟩ := Option.ne_none_iff_exists'.mp hne
    rw [List.length_cons] at hlt hroom
    unfold createPhandles
    refine Runs.bind_bind (runs_handle h hh hd hz habs hi hlt (by omega)
      fun ph w₁ T₁ made₁ hc hlt₁ hlook hl => ?_)
    have hfree := hl.2
    refine Runs.bind ((ih hl.1 hc.handled hc.distinct (fun p hp => ?_) hlt₁ (by omega)).mono ?_)
    · rw [hlook]
      exact hpaths p (List.mem_cons_of_mem _ hp)
    · rintro phs w₂ ⟨T₂, made₂, hrepr, hh₂, hd₂, hret, hkept, honly⟩
      refine Runs.pure ⟨T₂, made₂, hrepr, hh₂, hd₂, ⟨by rw [List.length_cons, hret.length,
        List.length_cons], fun p ph' hm => ?_⟩, fun j n hj hne => ?_, fun j hj hne => ?_⟩
      · rw [List.zip_cons_cons, List.mem_cons] at hm
        rcases hm with he | hm
        · obtain ⟨rfl, rfl⟩ := Prod.mk.inj he
          obtain ⟨n, hn, hp⟩ := hc.node
          have hpos := hc.pos
          exact ⟨i, n, hi, hkept i n hn (by omega), hp, hpos⟩
        · obtain ⟨j, n, hj, hn⟩ := hret.node p ph' hm
          exact ⟨j, n, (hlook p).symm.trans hj, hn⟩
      · exact hkept j n (hc.kept j n hj hne) hne
      · by_cases hm : made₁ j = none
        · obtain ⟨p, hp, hj⟩ := honly j hm hne
          exact ⟨p, List.mem_cons_of_mem _ hp, (hlook p).symm.trans hj⟩
        · exact ⟨path, List.mem_cons_self, hc.only j hj hm ▸ hi⟩

end

/-- The phandles stay apart; the nodes that are made one have it in both properties, and nothing else
changes. -/
theorem createPhandles_distinct {fdt : Fdt} {T : DeviceTree} {paths : List Bytes} (h : Repr fdt T)
    (hd : DistinctHandles T) (hpaths : ∀ p ∈ paths, 0 ∉ p ∧ p.head? = some slash ∧ T.lookup p ≠ none)
    (hlt : ∀ j n, T.get? j = some n → n.phandle + paths.length < 2147483647)
    (hroom : 54 * paths.length ≤ fdt.free.length) :
    Runs (createPhandles paths) ⟨fdt, []⟩ fun phs w' => ∃ T' made, Repr w'.fdt T' ∧
      DistinctHandles T' ∧ Returned T T' paths phs ∧ Handled T T' made ∧
      (∀ j n, T.get? j = some n → n.phandle ≠ 0 → T'.get? j = some n) ∧
      (∀ p p' ph ph', (p, ph) ∈ paths.zip phs → (p', ph') ∈ paths.zip phs →
        T.lookup p = T.lookup p' → ph = ph') ∧
      ∀ j ph, made j = some ph → (∃ p ∈ paths, T.lookup p = some j) ∧ ∃ n, T'.get? j = some n ∧
        n.getprop strPhandle = some (be32 ph.toNat) ∧
        n.getprop strLinuxPhandle = some (be32 ph.toNat) := by
  refine (runs_createPhandles h (Handled.refl T) hd hpaths hlt hroom).mono ?_
  rintro phs w' ⟨T', made, hrepr, hh, hd', hret, hkept, honly⟩
  refine ⟨T', made, hrepr, hd', hret, hh, hkept, fun p p' ph ph' hp hp' he => ?_, fun j ph hj => ?_⟩
  · obtain ⟨i, n, hi, hn, hph, -⟩ := hret.node p ph hp
    obtain ⟨i', n', hi', hn', hph', -⟩ := hret.node p' ph' hp'
    rw [← he, hi, Option.some.injEq] at hi'
    subst hi'
    rw [hn, Option.some.injEq] at hn'
    subst hn'
    exact UInt32.toNat_inj.mp (hph.symm.trans hph')
  · obtain ⟨p, hp, hlook⟩ := honly j rfl (by rw [hj]; exact Option.some_ne_none ph)
    refine ⟨⟨p, hp, hlook⟩, ?_⟩
    obtain ⟨n, hn⟩ := get?_of_mem (walk_mem h.root_mem hlook)
    have hnode := hh.node j
    rw [hj, hn] at hnode
    exact ⟨giveHandle ph n, hnode, getprop_giveHandle ph n⟩

def handleTree : DeviceTree :=
  .node 0 ⟨[], []⟩ (.node 1 ⟨Bytes.ofString "a", [(strPhandle, be32 1)]⟩ .nil
    (.node 2 ⟨Bytes.ofString "b", []⟩ .nil .nil)) .nil

theorem handleTree_repr : Repr (handleTree.blob 200) handleTree :=
  DeviceTree.repr_blob (by decide) (by decide) ⟨0, _, _, rfl⟩ (by decide)

def handlePaths : List Bytes := [Bytes.ofString "/b", Bytes.ofString "/a", Bytes.ofString "/b"]

theorem handleTree_nodes (j : Nat) (n : DtNode) (h : handleTree.get? j = some n) :
    n.phandle < 2 ∧ (n.phandle ≠ 0 → j = 1) := by
  have hj := mem_of_get? h
  simp only [handleTree, ids, List.mem_append, List.mem_cons, List.not_mem_nil, or_false, false_or] at hj
  rcases hj with rfl | rfl | rfl
  · obtain rfl := Option.some.inj h
    decide
  · obtain rfl := Option.some.inj h
    decide
  · obtain rfl := Option.some.inj h
    decide

theorem createPhandles_distinct_again :
    Runs (createPhandles handlePaths) ⟨handleTree.blob 200, []⟩ fun phs w' => ∃ T' made,
      Repr w'.fdt T' ∧ DistinctHandles T' ∧ Returned handleTree T' handlePaths phs ∧
      Handled handleTree T' made ∧
      (∀ j n, handleTree.get? j = some n → n.phandle ≠ 0 → T'.get? j = some n) ∧
      (∀ p p' ph ph', (p, ph) ∈ handlePaths.zip phs → (p', ph') ∈ handlePaths.zip phs →
        handleTree.lookup p = handleTree.lookup p' → ph = ph') ∧
      ∀ j ph, made j = some ph → (∃ p ∈ handlePaths, handleTree.lookup p = some j) ∧
        ∃ n, T'.get? j = some n ∧ n.getprop strPhandle = some (be32 ph.toNat) ∧
        n.getprop strLinuxPhandle = some (be32 ph.toNat) := by
  refine createPhandles_distinct handleTree_repr (fun i j n m hi hj hne he => ?_) (by decide)
    (fun j n hj => ?_) ?_
  · have hi' := (handleTree_nodes i n hi).2 hne
    have hj' := (handleTree_nodes j m hj).2 (he ▸ hne)
    rw [hi', hj']
  · have hlen : handlePaths.length = 3 := rfl
    have := (handleTree_nodes j n hj).1
    omega
  · have hfree : (handleTree.blob 200).free.length = 200 := List.length_replicate
    have hlen : handlePaths.length = 3 := rfl
    omega

end Babelfish
