import Babelfish.FdtTools
import Babelfish.Libfdt.Path

/-! `fdt_alloc_phandle` visits every node and returns a phandle beyond all of them. -/

namespace Babelfish

open Libfdt Bytes Forest

variable {fdt : Fdt} {T : DeviceTree}

def starts : List Tok → Nat → List Nat
  | [], _ => []
  | .beginNode name pad :: ts, o => o :: starts ts (o + (Tok.beginNode name pad).size)
  | .prop nameoff value pad :: ts, o => starts ts (o + (Tok.prop nameoff value pad).size)
  | .endNode :: ts, o => starts ts (o + 4)
  | .fend :: _, _ => []

theorem starts_props {strings : Bytes} {props : List (Bytes × Bytes)} {ps : List Tok}
    (h : PropsEnc strings props ps) (ts : List Tok) (o : Nat) :
    starts (ps ++ ts) o = starts ts (o + weight Tok.size ps) := by
  induction h generalizing o with
  | nil => simp
  | cons _ _ ih => simp [starts, ih, Nat.add_assoc]

theorem starts_tree {strings : Bytes} {F : DeviceTree} {ts : List Tok} (h : TreeEnc strings F ts)
    (us : List Tok) (o : Nat) : starts (ts ++ us) o =
      (F.offsets DtNode.openSize 4 o).map Prod.snd ++ starts us (o + weight Tok.size ts) := by
  induction h generalizing us o with
  | nil => simp [offsets]
  | @node i n sub next tn ss ns ha hs _ ihs ihn =>
    have hw := ha.weight
    have hws := TreeEnc.weight hs
    obtain ⟨pad, ps, rfl, hps⟩ := ha
    rw [weight_cons] at hw
    simp only [List.cons_append, List.append_assoc, List.nil_append, starts, starts_props hps, ihs,
      ihn, offsets, List.map_cons, List.map_append, weight_append, weight_cons]
    have h₁ : o + (Tok.beginNode n.name pad).size + weight Tok.size ps = o + n.openSize := by omega
    have h₂ : Tok.endNode.size = 4 := rfl
    rw [h₁, hws, h₂]
    simp only [List.cons.injEq, true_and, List.append_cancel_left_eq]
    have h₃ : o + n.openSize + sub.size DtNode.openSize 4 + 4 =
        o + (n.openSize + (sub.size DtNode.openSize 4 + 4)) := by omega
    have h₄ : o + ((Tok.beginNode n.name pad).size + (weight Tok.size ps +
        (sub.size DtNode.openSize 4 + (4 + weight Tok.size ns)))) =
        o + (n.openSize + (sub.size DtNode.openSize 4 + 4)) + weight Tok.size ns := by omega
    rw [h₃, h₄]

theorem nextNodeLoop_eq_starts {ts : List Tok} {o : Nat} (h : At fdt o ts) {fuel : Nat}
    (hfuel : ts.length < fuel) : (nextNodeLoop fdt fuel o none).1 =
      match starts ts o with
      | [] => errNotFound
      | p :: _ => (p : Int) := by
  induction ts generalizing o fuel with
  | nil =>
    obtain ⟨f, rfl⟩ : ∃ f, fuel = f + 1 := ⟨fuel - 1, by simp at hfuel; omega⟩
    have hlen := h.length_eq
    have hsmall := h.small
    simp only [weight_nil] at hlen
    have hp : fdtOffsetPtr fdt o 4 = false :=
      fdtOffsetPtr_eq_false (by omega) (by omega) (by omega)
    simp [nextNodeLoop, fdtNextTag, hp, starts]
  | cons t ts ih =>
    obtain ⟨f, rfl⟩ : ∃ f, fuel = f + 1 := ⟨fuel - 1, by simp at hfuel; omega⟩
    have hf : ts.length < f := by simp at hfuel; omega
    cases t with
    | prop nameoff value pad =>
      simp only [nextNodeLoop, h.nextTag, Tok.tag, starts]
      exact ih h.tail hf
    | endNode =>
      simp only [nextNodeLoop, h.nextTag, Tok.tag, starts]
      exact ih h.tail hf
    | fend =>
      have hpos : (0 : Int) ≤ ((o + Tok.fend.size : Nat) : Int) := by omega
      simp only [nextNodeLoop, h.nextTag, Tok.tag, starts, hpos, true_or, if_true]
    | beginNode n pad => simp only [nextNodeLoop, h.nextTag, Tok.tag, starts]

theorem allocPhandleLoop_eq {ts : List Tok} {o : Nat} (h : At fdt o ts) {fuel fuel' : Nat}
    (hfuel : ts.length < fuel) (hfuel' : ts.length < fuel') (m : Int) :
    allocPhandleLoop fdt fuel (nextNodeLoop fdt fuel' o none).1 m =
      (starts ts o).foldl (fun (m : Int) (p : Nat) => max m (toInt32 (fdtGetPhandle fdt p))) m := by
  induction ts generalizing o fuel fuel' m with
  | nil =>
    obtain ⟨f, rfl⟩ : ∃ f, fuel = f + 1 := ⟨fuel - 1, by simp at hfuel; omega⟩
    have hneg : errNotFound < 0 := by simp [errNotFound]
    simp only [nextNodeLoop_eq_starts h hfuel', starts, allocPhandleLoop, if_pos hneg, List.foldl_nil]
  | cons t ts ih =>
    have hnext := nextNodeLoop_eq_starts h hfuel'
    have hf : ts.length < fuel := by simp at hfuel; omega
    have hrest := ih h.tail hf h.tail.length_lt_fuel
    have htail := nextNodeLoop_eq_starts h.tail h.tail.length_lt_fuel
    cases t with
    | prop nameoff value pad =>
      simp only [starts] at hnext ⊢
      rw [hnext, ← htail, hrest]
    | endNode =>
      simp only [starts] at hnext ⊢
      rw [hnext, show o + 4 = o + Tok.endNode.size from rfl, ← htail, hrest]
    | fend =>
      obtain ⟨f, rfl⟩ : ∃ f, fuel = f + 1 := ⟨fuel - 1, by simp at hfuel; omega⟩
      have hneg : errNotFound < 0 := by simp [errNotFound]
      simp only [hnext, starts, allocPhandleLoop, if_pos hneg, List.foldl_nil]
    | beginNode n pad =>
      obtain ⟨f, rfl⟩ : ∃ f, fuel = f + 1 := ⟨fuel - 1, by simp at hfuel; omega⟩
      have hneg : ¬((o : Int) < 0) := by omega
      have hpos : (0 : Int) ≤ (o : Int) := by omega
      have hn : ¬((o + (Tok.beginNode n pad).size : Nat) : Int) < 0 := by omega
      have hf' : ts.length < f := by simp at hfuel; omega
      simp only [hnext, starts, allocPhandleLoop, if_neg hneg, fdtNextNode, hpos, if_true,
        checkNodeOffset_eq h, if_neg hn, List.foldl_cons]
      rw [ih h.tail hf' h.tail.length_lt_fuel]
      congr 1
      split <;> omega

theorem foldl_max_spec (l : List Nat) (f : Nat → Int) (m₀ : Int) :
    m₀ ≤ l.foldl (fun m p => max m (f p)) m₀ ∧
      (∀ p ∈ l, f p ≤ l.foldl (fun m p => max m (f p)) m₀) ∧
      (l.foldl (fun m p => max m (f p)) m₀ = m₀ ∨
        ∃ p ∈ l, f p = l.foldl (fun m p => max m (f p)) m₀) := by
  induction l generalizing m₀ with
  | nil => simp
  | cons p l ih =>
    obtain ⟨hle, hall, hex⟩ := ih (max m₀ (f p))
    simp only [List.foldl_cons]
    refine ⟨by omega, fun q hq => ?_, ?_⟩
    · rcases List.mem_cons.mp hq with rfl | hq
      · omega
      · exact hall q hq
    · rcases hex with he | ⟨q, hq, he⟩
      · by_cases hm : m₀ ≤ f p
        · exact Or.inr ⟨p, List.mem_cons_self, by omega⟩
        · exact Or.inl (by omega)
      · exact Or.inr ⟨q, List.mem_cons_of_mem _ hq, he⟩

/-- `fdt_alloc_phandle` returns one more than the largest phandle that an `int` holds as positive. -/
theorem fdtAllocPhandle_spec (h : Repr fdt T) : ∃ m : Int, fdtAllocPhandle fdt = m + 1 ∧ 0 ≤ m ∧
    (∀ i n, T.get? i = some n → toInt32 n.phandle ≤ m) ∧
    (m = 0 ∨ ∃ i n, T.get? i = some n ∧ toInt32 n.phandle = m) := by
  obtain ⟨ts, hat, henc⟩ := h.enc
  have hfuel := hat.length_lt_fuel
  have hstarts : starts (ts ++ [.fend]) 0 = (T.offsets DtNode.openSize 4 0).map Prod.snd := by
    rw [starts_tree henc]
    simp [starts]
  have hloop := allocPhandleLoop_eq hat hfuel hfuel 0
  have hneg : ¬((0 : Int) ≤ -1) := by omega
  rw [hstarts] at hloop
  obtain ⟨hle, hall, hex⟩ := foldl_max_spec ((T.offsets DtNode.openSize 4 0).map Prod.snd)
    (fun p : Nat => toInt32 (fdtGetPhandle fdt p)) 0
  have halloc : fdtAllocPhandle fdt = allocPhandleLoop fdt (fdtFuel fdt)
      (nextNodeLoop fdt (fdtFuel fdt) ((0 : Nat) : Int) none).1 0 + 1 := by
    rw [fdtAllocPhandle, fdtNextNode, if_neg hneg]
    rfl
  refine ⟨_, by rw [halloc, hloop], hle, ?_, ?_⟩
  · intro i n hn
    obtain ⟨o, ho⟩ := DeviceTree.offset_isSome (mem_of_get? hn)
    have hmem : (i, o) ∈ T.offsets DtNode.openSize 4 0 := (mem_offsets h.nodup).mpr ⟨o, ho, by omega⟩
    have := hall o (List.mem_map.mpr ⟨_, hmem, rfl⟩)
    rwa [h.getPhandle hn ho] at this
  · rcases hex with he | ⟨p, hp, he⟩
    · exact Or.inl he
    · obtain ⟨⟨i, o⟩, hio, rfl⟩ := List.mem_map.mp hp
      obtain ⟨o', ho', rfl⟩ := (mem_offsets h.nodup).mp hio
      rw [Nat.zero_add] at he
      obtain ⟨n, hn⟩ := get?_of_mem (mem_of_offset ho')
      refine Or.inr ⟨i, n, hn, ?_⟩
      rw [← he]
      simp only [h.getPhandle hn ho']

/-- One more than the largest phandle that an `int` holds as positive. -/
def nextHandle (T : DeviceTree) : Int :=
  T.ids.foldl (fun m i => max m (toInt32 (((T.get? i).map DtNode.phandle).getD 0))) 0 + 1

theorem nextHandle_eq {m : Int} (h₀ : 0 ≤ m) (hall : ∀ i n, T.get? i = some n → toInt32 n.phandle ≤ m)
    (hex : m = 0 ∨ ∃ i n, T.get? i = some n ∧ toInt32 n.phandle = m) : nextHandle T = m + 1 := by
  obtain ⟨hle, hmax, hsome⟩ :=
    foldl_max_spec T.ids (fun i => toInt32 (((T.get? i).map DtNode.phandle).getD 0)) 0
  unfold nextHandle
  refine congrArg (· + 1) (Int.le_antisymm ?_ ?_)
  · rcases hsome with he | ⟨i, hi, he⟩
    · omega
    · obtain ⟨n, hn⟩ := get?_of_mem hi
      simp only [hn, Option.map_some, Option.getD_some] at he
      rw [← he]
      exact hall i n hn
  · rcases hex with rfl | ⟨i, n, hn, rfl⟩
    · exact hle
    · have := hmax i (mem_of_get? hn)
      simpa only [hn, Option.map_some, Option.getD_some] using this

theorem fdtAllocPhandle_eq (h : Repr fdt T) : fdtAllocPhandle fdt = nextHandle T := by
  obtain ⟨m, hm, h₀, hall, hex⟩ := fdtAllocPhandle_spec h
  rw [hm, nextHandle_eq h₀ hall hex]

end Babelfish
