import Babelfish.Lib.Loop
import Babelfish.Lib.Preorder
import Babelfish.Libfdt.Path

/-! The walk of `fdt_next_node` over a blob that represents a tree: every node in document order, with
its depth. -/

namespace Babelfish.Libfdt

open Bytes Forest

variable {fdt : Fdt} {T : DeviceTree}

/-- What `fdt_next_node` takes and gives back: an offset, and the depth unless it is not counted. -/
abbrev Pos := Int × Option Int

def step (fdt : Fdt) (p : Pos) : Pos := fdtNextNode fdt p.1 p.2

/-- The loop of `fdt_next_node` on tokens: `o` is where the first one starts. -/
def nextAt : List Tok → Nat → Option Int → Pos
  | [], _, depth => (if depth = none then errNotFound else errTruncated, depth)
  | .prop nameoff value pad :: ts, o, depth => nextAt ts (o + (Tok.prop nameoff value pad).size) depth
  | .beginNode _ _ :: _, o, depth => (o, depth.map (· + 1))
  | .endNode :: ts, o, depth =>
    match depth with
    | some d => if d - 1 < 0 then (((o + 4 : Nat) : Int), some (d - 1)) else nextAt ts (o + 4) (some (d - 1))
    | none => nextAt ts (o + 4) none
  | .fend :: _, _, depth => (errNotFound, depth)

theorem nextNodeLoop_eq_nextAt {ts : List Tok} {o : Nat} (h : At fdt o ts) {fuel : Nat}
    (hfuel : ts.length < fuel) (depth : Option Int) :
    nextNodeLoop fdt fuel o depth = nextAt ts o depth := by
  induction ts generalizing o fuel depth with
  | nil =>
    obtain ⟨f, rfl⟩ : ∃ f, fuel = f + 1 := ⟨fuel - 1, by simp at hfuel; omega⟩
    have hlen := h.length_eq
    have hsmall := h.small
    simp only [weight_nil] at hlen
    have hp : fdtOffsetPtr fdt o 4 = false :=
      fdtOffsetPtr_eq_false (by omega) (by omega) (by omega)
    simp [nextNodeLoop, fdtNextTag, hp, nextAt]
  | cons t ts ih =>
    obtain ⟨f, rfl⟩ : ∃ f, fuel = f + 1 := ⟨fuel - 1, by simp at hfuel; omega⟩
    have hf : ts.length < f := by simpa using hfuel
    cases t with
    | prop nameoff value pad =>
      simp only [nextNodeLoop, h.nextTag, Tok.tag, nextAt]
      exact ih h.tail hf depth
    | endNode =>
      simp only [nextNodeLoop, h.nextTag, Tok.tag, nextAt]
      cases depth with
      | none => exact ih h.tail hf none
      | some d =>
        by_cases hd : d - 1 < 0
        · simp only [hd, if_true]
          rfl
        · simp only [hd, if_false]
          exact ih h.tail hf _
    | fend =>
      have hpos : (0 : Int) ≤ ((o + Tok.fend.size : Nat) : Int) := by omega
      simp only [nextNodeLoop, h.nextTag, Tok.tag, nextAt, hpos, true_or, if_true]
    | beginNode n pad => simp only [nextNodeLoop, h.nextTag, Tok.tag, nextAt]

theorem step_beginNode {o : Nat} {name pad : Bytes} {ts : List Tok}
    (h : At fdt o (.beginNode name pad :: ts)) (depth : Option Int) :
    step fdt (o, depth) = nextAt ts (o + (Tok.beginNode name pad).size) depth := by
  have hpos : (0 : Int) ≤ (o : Int) := by omega
  have hn : ¬((o + (Tok.beginNode name pad).size : Nat) : Int) < 0 := by omega
  simp only [step, fdtNextNode, if_pos hpos, checkNodeOffset_eq h, if_neg hn]
  exact nextNodeLoop_eq_nextAt h.tail h.tail.length_lt_fuel depth

theorem step_fend {o : Nat} {ts : List Tok} (h : At fdt o (.fend :: ts)) (depth : Option Int) :
    step fdt (o, depth) = (errBadOffset, depth) := by
  have hpos : (0 : Int) ≤ (o : Int) := by omega
  have hcheck : fdtCheckNodeOffset fdt o = errBadOffset := by
    unfold fdtCheckNodeOffset
    split
    · rfl
    · simp only [h.nextTag, Tok.tag]
  have hneg : errBadOffset < 0 := by simp [errBadOffset]
  simp only [step, fdtNextNode, if_pos hpos, hcheck, if_pos hneg]

theorem nextAt_props {strings : Bytes} {props : List (Bytes × Bytes)} {ps : List Tok}
    (h : PropsEnc strings props ps) (ts : List Tok) (o : Nat) (depth : Option Int) :
    nextAt (ps ++ ts) o depth = nextAt ts (o + weight Tok.size ps) depth := by
  induction h generalizing o with
  | nil => simp
  | cons _ _ ih => simp [nextAt, ih, Nat.add_assoc]

/-- Where the walk comes to a node; its depth is counted from `base` on. -/
def posAt (base : Option Int) (v : Visit DtNode) : Pos := (v.offset, base.map (· + v.depth))

theorem trace_visits {strings : Bytes} {F : DeviceTree} {ts : List Tok} (h : TreeEnc strings F ts)
    {us : List Tok} {o d : Nat} (hat : At fdt o (ts ++ us)) (base : Option Int)
    (hbase : ∀ x ∈ base, 0 ≤ x + d) :
    Trace (step fdt) (nextAt (ts ++ us) o (base.map (· + d)))
      ((F.visits DtNode.openSize 4 o (d + 1)).map (posAt base))
      (nextAt us (o + weight Tok.size ts) (base.map (· + d))) := by
  induction h generalizing us o d with
  | nil => exact .nil _
  | @node i n sub next tn ss ns ha hs _ ihs ihn =>
    have hw := ha.weight
    obtain ⟨pad, ps, rfl, hps⟩ := ha
    rw [weight_cons] at hw
    have hnode : At fdt o (.beginNode n.name pad :: (ps ++ (ss ++ (.endNode :: (ns ++ us))))) := by
      simpa using hat
    have hsub : At fdt (o + n.openSize) (ss ++ (.endNode :: (ns ++ us))) := by
      rw [← hw, ← Nat.add_assoc]
      exact hnode.tail.append
    have hnext : At fdt (o + (n.openSize + (sub.size DtNode.openSize 4 + 4))) (ns ++ us) := by
      have := hsub.append.tail
      rw [TreeEnc.weight hs] at this
      convert this using 1
      simp only [Tok.size]
      omega
    have hstart : nextAt ((.beginNode n.name pad :: ps) ++ (ss ++ ([.endNode] ++ ns)) ++ us) o
        (base.map (· + (d : Int))) = posAt base ⟨i, n, o, d + 1⟩ := by
      cases base <;> simp [nextAt, posAt, Int.add_assoc]
    have hback : nextAt (.endNode :: (ns ++ us)) (o + n.openSize + weight Tok.size ss)
        (base.map (· + ((d + 1 : Nat) : Int))) =
        nextAt (ns ++ us) (o + (n.openSize + (sub.size DtNode.openSize 4 + 4)))
          (base.map (· + (d : Int))) := by
      have ho : o + n.openSize + weight Tok.size ss + 4 =
          o + (n.openSize + (sub.size DtNode.openSize 4 + 4)) := by
        rw [TreeEnc.weight hs]
        omega
      cases base with
      | none => simp only [nextAt, Option.map_none, ho]
      | some x =>
        have hx := hbase x rfl
        simp only [nextAt, Option.map_some, ho]
        rw [if_neg (by omega), show x + ((d + 1 : Nat) : Int) - 1 = x + d by omega]
    rw [hstart]
    refine .cons ?_
    rw [posAt, step_beginNode hnode, nextAt_props hps, Nat.add_assoc, hw]
    simp only [List.map_append]
    refine Trace.append (ihs hsub fun x hx => ?_) ?_
    · have := hbase x hx
      omega
    · rw [hback, weight_append, weight_cons, hw, weight_append, TreeEnc.weight hs]
      have := ihn hnext hbase
      rw [show o + (n.openSize + (sub.size DtNode.openSize 4 + 4)) + weight Tok.size ns =
        o + (n.openSize + (sub.size DtNode.openSize 4 + weight Tok.size ([.endNode] ++ ns))) by
          simp only [weight_append, weight_cons, weight_nil, Tok.size]; omega] at this
      exact this

theorem Repr.trace (h : Repr fdt T) :
    Trace (step fdt) (0, some 0) ((T.visits DtNode.openSize 4 0 0).map (posAt (some 0)))
      (((T.size DtNode.openSize 4 : Nat) : Int), some (-1)) := by
  obtain ⟨ts, hat, henc⟩ := h.enc
  obtain ⟨i, n, sub, rfl⟩ := h.rooted
  cases henc with
  | node ha hs hn =>
    cases hn
    have hw := ha.weight
    obtain ⟨pad, ps, rfl, hps⟩ := ha
    rw [weight_cons] at hw
    rename_i ss
    have hnode : At fdt 0 (.beginNode n.name pad :: (ps ++ (ss ++ (.endNode :: [.fend])))) := by
      simpa using hat
    have hsub : At fdt n.openSize (ss ++ (.endNode :: [.fend])) := by
      have := hnode.tail.append
      rwa [Nat.zero_add, hw] at this
    have hsubs := trace_visits hs hsub (d := 0) (some 0) (by simp)
    refine .cons ?_
    have hstep := step_beginNode hnode (some 0)
    rw [nextAt_props hps, Nat.zero_add, hw] at hstep
    simp only [Option.map_some, Int.zero_add, Nat.zero_add, visits, List.append_nil,
      show ((0 : Nat) : Int) = 0 from rfl] at hsubs hstep ⊢
    rw [hstep]
    simp only [nextAt, size, Int.zero_sub] at hsubs ⊢
    rw [if_pos (by omega), TreeEnc.weight hs] at hsubs
    convert hsubs using 3
    omega

theorem Repr.fend_at (h : Repr fdt T) : At fdt (T.size DtNode.openSize 4) [.fend] := by
  obtain ⟨ts, hat, henc⟩ := h.enc
  have := hat.append
  rwa [Nat.zero_add, TreeEnc.weight henc] at this

theorem DtNode.openSize_pos (n : DtNode) : 0 < n.openSize := by
  unfold openSize
  omega

theorem Repr.length_visits (h : Repr fdt T) :
    (T.visits DtNode.openSize 4 0 0).length + 2 ≤ fdtFuel fdt := by
  have h₁ := length_visits_le (c := 4) DtNode.openSize_pos T 0 0
  have h₂ := h.fend_at.length_eq
  simp only [weight_cons, weight_nil, Tok.size] at h₂
  unfold fdtFuel
  omega

end Babelfish.Libfdt
