import Babelfish.Lib.Memory
import Babelfish.Libfex.Decoding

/-! How often the loops of the decoder go round, with the counters that C gives them. -/

namespace Babelfish.Libfex

open Bytes

theorem toNat_pred_int32 {i : Int32} (h : i ≠ 0) :
    (i - 1).toUInt32.toNat + 1 = i.toUInt32.toNat := by
  have hone : (1 : UInt32).toNat = 1 := rfl
  have hne : i.toUInt32.toNat ≠ 0 := fun hz =>
    h (congrArg UInt32.toInt32 (UInt32.toNat_inj.mp hz : i.toUInt32 = 0))
  have hsub := UInt32.toNat_sub i.toUInt32 1
  have hlt := i.toUInt32.toNat_lt
  have hcast : (i - 1).toUInt32 = i.toUInt32 - 1 := rfl
  rw [hcast]
  omega

/-- `for (i = section->length; i--; entry++)`: the value of `i` that each round decrements, and what the
loop leaves; below the least `int` the counter is taken to wrap around. -/
def entryRounds (mem : Image) (bin : UInt32) : (fuel : Nat) → (i : Int32) → (entry : UInt32) →
    ScriptSection → (heapBase : UInt32) → List Int32 × Option (ScriptSection × UInt32)
  | 0, _, _, _, _ => ([], none)
  | fuel + 1, i, entry, s, heapBase =>
    if i = 0 then ([], some (s, heapBase))
    else
      match (decompileEntry mem bin entry s).run heapBase with
      | none => ([i], none)
      | some (s, heapBase) =>
        let (is, result) := entryRounds mem bin fuel (i - 1) (entry + 40) s heapBase
        (i :: is, result)

/-- More rounds than a counter has values. -/
def counterFuel : Nat := 4294967297

/-- `section->length`, and `head->sections` -/
def signedLength (mem : Image) (sec : UInt32) : Int32 := (sectionLength mem sec).toInt32

def signedSections (mem : Image) (bin : UInt32) : Int32 := (headSections mem bin).toInt32

def sectionRounds (mem : Image) (bin sec : UInt32) (script : Script) (heapBase : UInt32) :
    List Int32 × Option (Script × UInt32) :=
  match (alloc sizeofSection).run heapBase with
  | none => ([], none)
  | some (_, heapBase) =>
    let (is, result) := entryRounds mem bin counterFuel (signedLength mem sec)
      (ptr bin (sectionOffset mem sec)) ⟨fieldName (sectionName mem sec), []⟩ heapBase
    (is, result.map fun (s, heapBase) => (⟨script.sections ++ [s]⟩, heapBase))

/-- `for (i=0; i < head->sections; i++)` from `i` on: the rounds of each section that is come to. -/
def binLoopRounds (mem : Image) (bin : UInt32) : (fuel i : Nat) → Script → (heapBase : UInt32) →
    List (List Int32) × Option (Script × UInt32)
  | 0, _, _, _ => ([], none)
  | fuel + 1, i, script, heapBase =>
    if i < (signedSections mem bin).toInt then
      match sectionRounds mem bin (headSection bin i) script heapBase with
      | (is, none) => ([is], none)
      | (is, some (script, heapBase)) =>
        let (iss, result) := binLoopRounds mem bin fuel (i + 1) script heapBase
        (is :: iss, result)
    else ([], some (script, heapBase))

def binRounds (mem : Image) (bin : UInt32) (script : Script) (heapBase : UInt32) :
    List (List Int32) × Option (Script × UInt32) :=
  binLoopRounds mem bin counterFuel 0 script heapBase

section

variable (mem : Image) (bin : UInt32)

/-- The rounds of a loop over entries, and that it is the loop of the decoder. -/
structure EntryRounds (i : Int32) (entry : UInt32) (s : ScriptSection) (heapBase : UInt32)
    (r : List Int32 × Option (ScriptSection × UInt32)) : Prop where
  result : r.2 = (entryLoop mem bin i.toUInt32.toNat entry s).run heapBase
  le : r.1.length ≤ i.toUInt32.toNat
  eq : r.2.isSome → r.1.length = i.toUInt32.toNat
  pos : i ≠ 0 → 0 < r.1.length
  bound : ∀ x ∈ r.1, x.toUInt32.toNat ≤ i.toUInt32.toNat

theorem entryRounds_spec (fuel : Nat) (i : Int32) (hfuel : i.toUInt32.toNat < fuel) (entry : UInt32)
    (s : ScriptSection) (heapBase : UInt32) :
    EntryRounds mem bin i entry s heapBase (entryRounds mem bin fuel i entry s heapBase) := by
  induction fuel generalizing i entry s heapBase with
  | zero => omega
  | succ fuel ih =>
    rw [entryRounds]
    by_cases hi : i = 0
    · subst hi
      rw [if_pos rfl]
      exact ⟨rfl, Nat.le_refl 0, fun _ => rfl, fun h => absurd rfl h, by simp⟩
    have hpred := toNat_pred_int32 hi
    rw [if_neg hi]
    cases hentry : (decompileEntry mem bin entry s).run heapBase with
    | none =>
      refine ⟨?_, by simp; omega, by simp, by simp, by simp⟩
      rw [← hpred, entryLoop, StateT.run_bind, hentry]
      rfl
    | some r =>
      obtain ⟨s', heapBase'⟩ := r
      have hrest := ih (i - 1) (by omega) (entry + 40) s' heapBase'
      refine ⟨?_, ?_, fun h => ?_, fun _ => by simp, fun x hx => ?_⟩
      · rw [← hpred, entryLoop, StateT.run_bind, hentry]
        exact hrest.result
      · have hle := hrest.le
        simp only [List.length_cons]
        omega
      · have heq := hrest.eq h
        simp only [List.length_cons]
        omega
      · rcases List.mem_cons.mp hx with rfl | hx
        · exact Nat.le_refl _
        · have hle := hrest.bound x hx
          omega

theorem sectionRounds_spec (sec : UInt32) (script : Script) (heapBase : UInt32) :
    (sectionRounds mem bin sec script heapBase).2 =
        (decompileSection mem bin sec script).run heapBase ∧
      (¬Heap.Granted heapBase [UInt32.ofNat sizeofSection] →
        sectionRounds mem bin sec script heapBase = ([], none)) ∧
      (Heap.Granted heapBase [UInt32.ofNat sizeofSection] →
        ∃ heapBase' r, EntryRounds mem bin (signedLength mem sec) (ptr bin (sectionOffset mem sec))
            ⟨fieldName (sectionName mem sec), []⟩ heapBase' r ∧
          (sectionRounds mem bin sec script heapBase).1 = r.1 ∧
          ((sectionRounds mem bin sec script heapBase).2.isSome → r.2.isSome)) := by
  have hsize := Allocates.alloc sizeofSection
  by_cases hg : Heap.Granted heapBase [UInt32.ofNat sizeofSection]
  · have hrun := hsize.granted heapBase hg
    have hspec := entryRounds_spec mem bin counterFuel (signedLength mem sec)
      (by have := (signedLength mem sec).toUInt32.toNat_lt; unfold counterFuel; omega)
      (ptr bin (sectionOffset mem sec)) ⟨fieldName (sectionName mem sec), []⟩
      (Heap.baseAfter heapBase [UInt32.ofNat sizeofSection])
    unfold sectionRounds
    rw [hrun]
    refine ⟨?_, fun hno => absurd hg hno, fun _ => ⟨_, _, hspec, rfl, fun h => ?_⟩⟩
    · rw [decompileSection, StateT.run_bind, hrun, Option.bind_eq_bind, Option.bind_some,
        StateT.run_bind]
      simp only [hspec.result]
      exact (Option.map_eq_bind ..).trans rfl
    · simpa using h
  · have hrun := hsize.failed heapBase hg
    unfold sectionRounds
    rw [hrun]
    refine ⟨?_, fun _ => rfl, fun h => absurd h hg⟩
    rw [decompileSection, StateT.run_bind, hrun]
    rfl

theorem toInt_nonneg {i : Int32} (h : 0 ≤ i.toInt) :
    i.toUInt32.toNat = i.toInt.toNat ∧ i.toUInt32.toNat < 2 ^ 31 := by
  have hcond : i.toInt = if 2 * i.toUInt32.toNat < 2 ^ 32 then (i.toUInt32.toNat : Int)
      else (i.toUInt32.toNat : Int) - (2 ^ 32 : Nat) := BitVec.toInt_eq_toNat_cond _
  have hlt := i.toUInt32.toNat_lt
  split at hcond <;> omega

theorem lt_signedSections (i : Nat) : i < (signedSections mem bin).toInt ↔ i < sectionCount mem bin := by
  have hcond : (signedSections mem bin).toInt = if 2 * (headSections mem bin).toNat < 2 ^ 32
      then ((headSections mem bin).toNat : Int)
      else ((headSections mem bin).toNat : Int) - (2 ^ 32 : Nat) := BitVec.toInt_eq_toNat_cond _
  have hlt := (headSections mem bin).toNat_lt
  unfold sectionCount
  dsimp only
  split at hcond <;> split <;> omega

def decodedFrom (i k : Nat) : List ScriptSection :=
  (List.range' i k).map fun j => decodedSection mem bin (headSection bin j)

/-- The sections before the `k`-th from the `i`-th on get all their memory, and it gets its own object. -/
def ReachedFrom (i k : Nat) (heapBase : UInt32) : Prop :=
  Heap.Granted heapBase
    (sectionRequests (decodedFrom mem bin i k) ++ [UInt32.ofNat sizeofSection])

theorem reachedFrom_succ (i k : Nat) (heapBase : UInt32) : ReachedFrom mem bin i (k + 1) heapBase ↔
    Heap.Granted heapBase (sectionRequests [decodedSection mem bin (headSection bin i)]) ∧
      ReachedFrom mem bin (i + 1) k (Heap.baseAfter heapBase
        (sectionRequests [decodedSection mem bin (headSection bin i)])) := by
  have hsplit : sectionRequests (decodedFrom mem bin i (k + 1)) =
      sectionRequests [decodedSection mem bin (headSection bin i)] ++
        sectionRequests (decodedFrom mem bin (i + 1) k) := by
    rw [decodedFrom, List.range'_succ, List.map_cons, sectionRequests, sectionRequests, sectionRequests,
      List.flatMap_cons, List.flatMap_singleton]
    rfl
  unfold ReachedFrom
  rw [hsplit, List.append_assoc, Heap.granted_append]

/-- The rounds for a count are as many as it says, none where it is negative, and no counter falls below
the least `int`; `done` is that the loop has come to its end. -/
structure Kept (count : Int32) (is : List Int32) (done : Prop) : Prop where
  le : is.length ≤ count.toInt.toNat
  eq : done → is.length = count.toInt.toNat
  noOverflow : Int32.minValue ∉ is

theorem EntryRounds.kept {i : Int32} {entry heapBase : UInt32} {s : ScriptSection}
    {r : List Int32 × Option (ScriptSection × UInt32)} (h : EntryRounds mem bin i entry s heapBase r)
    (hi : 0 ≤ i.toInt) : Kept i r.1 r.2.isSome := by
  obtain ⟨heq, hlt⟩ := toInt_nonneg hi
  refine ⟨heq ▸ h.le, fun hdone => heq ▸ h.eq hdone, fun hmin => ?_⟩
  have hle := h.bound _ hmin
  have hnat : Int32.minValue.toUInt32.toNat = 2 ^ 31 := by decide
  omega

theorem Kept.mono {count : Int32} {is : List Int32} {p q : Prop} (h : Kept count is p) (hpq : q → p) :
    Kept count is q := ⟨h.le, fun hq => h.eq (hpq hq), h.noOverflow⟩

variable {mem bin} {n fuel i : Nat}

theorem binLoopRounds_step (mem : Image) (bin : UInt32) (fuel i : Nat) (hi : i < sectionCount mem bin)
    (script : Script) (heapBase : UInt32) :
    (∃ is, sectionRounds mem bin (headSection bin i) script heapBase = (is, none) ∧
      binLoopRounds mem bin (fuel + 1) i script heapBase = ([is], none)) ∨
    ∃ is script',
      let base := Heap.baseAfter heapBase
        (sectionRequests [decodedSection mem bin (headSection bin i)])
      Heap.Granted heapBase (sectionRequests [decodedSection mem bin (headSection bin i)]) ∧
      sectionRounds mem bin (headSection bin i) script heapBase = (is, some (script', base)) ∧
      binLoopRounds mem bin (fuel + 1) i script heapBase =
        (is :: (binLoopRounds mem bin fuel (i + 1) script' base).1,
          (binLoopRounds mem bin fuel (i + 1) script' base).2) := by
  have hres := (sectionRounds_spec mem bin (headSection bin i) script heapBase).1
  have hall := allocates_section mem bin (headSection bin i) script
  rw [binLoopRounds, if_pos ((lt_signedSections mem bin i).mpr hi)]
  by_cases hg : Heap.Granted heapBase (sectionRequests [decodedSection mem bin (headSection bin i)])
  · rw [hall.granted heapBase hg] at hres
    refine Or.inr ⟨(sectionRounds mem bin (headSection bin i) script heapBase).1, _, hg,
      Prod.ext rfl hres, ?_⟩
    rw [← Prod.eta (sectionRounds mem bin (headSection bin i) script heapBase), hres]
  · rw [hall.failed heapBase hg] at hres
    refine Or.inl ⟨_, Prod.ext rfl hres, ?_⟩
    rw [← Prod.eta (sectionRounds mem bin (headSection bin i) script heapBase), hres]

theorem binLoopRounds_end (fuel : Nat) (hi : sectionCount mem bin ≤ i) (script : Script)
    (heapBase : UInt32) :
    binLoopRounds mem bin (fuel + 1) i script heapBase = ([], some (script, heapBase)) := by
  have hend : ¬((i : Int) < (signedSections mem bin).toInt) := by
    rw [lt_signedSections]
    omega
  rw [binLoopRounds, if_neg hend]

theorem sectionRounds_kept (bin : UInt32) {sec : UInt32} (script : Script) {heapBase : UInt32}
    (h : 0 ≤ (signedLength mem sec).toInt ∨ ¬Heap.Granted heapBase [UInt32.ofNat sizeofSection]) :
    Kept (signedLength mem sec) (sectionRounds mem bin sec script heapBase).1
      (sectionRounds mem bin sec script heapBase).2.isSome := by
  obtain ⟨-, hfail, hgrant⟩ := sectionRounds_spec mem bin sec script heapBase
  by_cases hg : Heap.Granted heapBase [UInt32.ofNat sizeofSection]
  · obtain ⟨base, r, hr, he, hsome⟩ := hgrant hg
    rw [he]
    exact (hr.kept mem bin (h.resolve_right (not_not.mpr hg))).mono hsome
  · rw [hfail hg]
    exact ⟨Nat.zero_le _, fun hdone => (by cases hdone), List.not_mem_nil⟩

theorem binLoopRounds_kept (hn : i + n = sectionCount mem bin) (hfuel : n < fuel) (script : Script)
    {heapBase : UInt32} (h : ∀ k < n, 0 ≤ (signedLength mem (headSection bin (i + k))).toInt ∨
      ¬ReachedFrom mem bin i k heapBase) :
    let r := binLoopRounds mem bin fuel i script heapBase
    r.1.length ≤ n ∧ (r.2.isSome → r.1.length = n) ∧ ∀ k is, r.1[k]? = some is →
      Kept (signedLength mem (headSection bin (i + k))) is (k + 1 < r.1.length ∨ r.2.isSome) := by
  induction n generalizing fuel i script heapBase with
  | zero =>
    obtain ⟨fuel, rfl⟩ : ∃ f, fuel = f + 1 := ⟨fuel - 1, by omega⟩
    rw [binLoopRounds_end fuel (by omega : sectionCount mem bin ≤ i)]
    exact ⟨Nat.le_refl 0, fun _ => rfl, fun k is hk => by cases hk⟩
  | succ n ih =>
    obtain ⟨fuel, rfl⟩ : ∃ f, fuel = f + 1 := ⟨fuel - 1, by omega⟩
    have hfirst := sectionRounds_kept bin script (h 0 (Nat.succ_pos n))
    rw [Nat.add_zero] at hfirst
    obtain ⟨is, hsec, hrun⟩ | ⟨is, script', hg, hsec, hrun⟩ :=
      binLoopRounds_step mem bin fuel i (by omega) script heapBase
    · rw [hrun]
      rw [hsec] at hfirst
      refine ⟨by simp, by simp, fun k is' hk => ?_⟩
      obtain _ | k := k
      · obtain rfl := Option.some.inj hk
        exact hfirst.mono (by simp)
      · cases hk
    · rw [hrun]
      rw [hsec] at hfirst
      obtain ⟨hle, heq, hkept⟩ := @ih fuel (i + 1) (by omega) (by omega) script' (Heap.baseAfter heapBase
          (sectionRequests [decodedSection mem bin (headSection bin i)])) fun k hk => by
          have hnext := h (k + 1) (by omega)
          rw [reachedFrom_succ, not_and, Nat.add_comm k, ← Nat.add_assoc] at hnext
          exact hnext.imp_right fun hno => hno hg
      refine ⟨by simpa using hle, fun hdone => by simpa using heq hdone, fun k is' hk => ?_⟩
      obtain _ | k := k
      · obtain rfl := Option.some.inj hk
        exact hfirst.mono fun _ => rfl
      · rw [Nat.add_comm k, ← Nat.add_assoc]
        refine (hkept k is' hk).mono (Or.imp_left fun hlt => ?_)
        simp only [List.length_cons] at hlt
        omega

theorem binLoopRounds_result (hn : i + n = sectionCount mem bin) (hfuel : n < fuel) (script : Script)
    (heapBase : UInt32) : (binLoopRounds mem bin fuel i script heapBase).2 =
      (sectionLoop mem bin (List.range' i n) script).run heapBase := by
  induction n generalizing fuel i script heapBase with
  | zero =>
    obtain ⟨fuel, rfl⟩ : ∃ f, fuel = f + 1 := ⟨fuel - 1, by omega⟩
    rw [binLoopRounds_end fuel (by omega : sectionCount mem bin ≤ i)]
    rfl
  | succ n ih =>
    obtain ⟨fuel, rfl⟩ : ∃ f, fuel = f + 1 := ⟨fuel - 1, by omega⟩
    have hres := (sectionRounds_spec mem bin (headSection bin i) script heapBase).1
    rw [List.range'_succ, sectionLoop, StateT.run_bind, ← hres]
    obtain ⟨is, hsec, hrun⟩ | ⟨is, script', -, hsec, hrun⟩ :=
      binLoopRounds_step mem bin fuel i (by omega) script heapBase
    · rw [hrun, hsec]
      rfl
    · rw [hrun, hsec, ih (i := i + 1) (by omega) (by omega)]
      rfl

theorem binLoopRounds_reached {k : Nat} (hk : i + k < sectionCount mem bin) (hfuel : k < fuel)
    (script : Script) {heapBase : UInt32} (h : ReachedFrom mem bin i k heapBase)
    (hne : signedLength mem (headSection bin (i + k)) ≠ 0) :
    ∃ is, (binLoopRounds mem bin fuel i script heapBase).1[k]? = some is ∧ 0 < is.length := by
  induction k generalizing fuel i script heapBase with
  | zero =>
    obtain ⟨fuel, rfl⟩ : ∃ f, fuel = f + 1 := ⟨fuel - 1, by omega⟩
    obtain ⟨-, -, hgrant⟩ := sectionRounds_spec mem bin (headSection bin i) script heapBase
    obtain ⟨base, r, hr, he, -⟩ := hgrant h
    have hpos := hr.pos hne
    rw [← he] at hpos
    obtain ⟨is, hsec, hrun⟩ | ⟨is, script', -, hsec, hrun⟩ :=
      binLoopRounds_step mem bin fuel i hk script heapBase
    · rw [hsec] at hpos
      exact ⟨is, by rw [hrun]; rfl, hpos⟩
    · rw [hsec] at hpos
      exact ⟨is, by rw [hrun]; rfl, hpos⟩
  | succ k ih =>
    obtain ⟨fuel, rfl⟩ : ∃ f, fuel = f + 1 := ⟨fuel - 1, by omega⟩
    obtain ⟨hg, hnext⟩ := (reachedFrom_succ mem bin i k heapBase).mp h
    have hres := (sectionRounds_spec mem bin (headSection bin i) script heapBase).1
    rw [(allocates_section mem bin (headSection bin i) script).granted heapBase hg] at hres
    obtain ⟨is, hsec, -⟩ | ⟨is, script', -, hsec, hrun⟩ :=
      binLoopRounds_step mem bin fuel i (by omega) script heapBase
    · rw [hsec] at hres
      cases hres
    · have harg : i + (k + 1) = i + 1 + k := by omega
      rw [harg] at hk hne
      obtain ⟨is', hget, hpos⟩ := @ih fuel (i + 1) hk (by omega) script' _ hnext hne
      exact ⟨is', by rw [hrun]; exact hget, hpos⟩

end

/-- Both loops go round as often as the counts say, as long as nothing stops them, and neither for a
negative count. -/
def CountsKept (mem : Image) (bin : UInt32) (script : Script) (heapBase : UInt32) : Prop :=
  let r := binRounds mem bin script heapBase
  let sections := (signedSections mem bin).toInt.toNat
  r.1.length ≤ sections ∧ (r.2.isSome → r.1.length = sections) ∧ ∀ k is, r.1[k]? = some is →
    Kept (signedLength mem (headSection bin k)) is (k + 1 < r.1.length ∨ r.2.isSome)

theorem toNat_signedSections (mem : Image) (bin : UInt32) :
    (signedSections mem bin).toInt.toNat = sectionCount mem bin := by
  have h₁ := lt_signedSections mem bin (sectionCount mem bin)
  have h₂ := lt_signedSections mem bin (sectionCount mem bin - 1)
  omega

theorem sectionCount_lt (mem : Image) (bin : UInt32) : sectionCount mem bin < counterFuel := by
  have hlt := (headSections mem bin).toNat_lt
  unfold sectionCount counterFuel
  dsimp only
  split <;> omega

theorem binRounds_result (mem : Image) (bin : UInt32) (script : Script) (heapBase : UInt32) :
    (binRounds mem bin script heapBase).2 = (scriptDecompileBin mem bin script).run heapBase := by
  rw [scriptDecompileBin, List.range_eq_range']
  exact binLoopRounds_result (Nat.zero_add _) (sectionCount_lt mem bin) script heapBase

/-- The counts are kept just if no section with a negative one is reached. -/
theorem countsKept_iff (mem : Image) (bin : UInt32) (script : Script) (heapBase : UInt32) :
    CountsKept mem bin script heapBase ↔ ∀ k < sectionCount mem bin,
      0 ≤ (signedLength mem (headSection bin k)).toInt ∨ ¬ReachedFrom mem bin 0 k heapBase := by
  have hcount := sectionCount_lt mem bin
  unfold CountsKept binRounds
  dsimp only
  rw [toNat_signedSections]
  constructor
  · rintro ⟨-, -, hkept⟩ k hk
    by_contra hno
    obtain ⟨hneg, hreached⟩ := not_or.mp hno
    rw [not_not] at hreached
    have hne : signedLength mem (headSection bin (0 + k)) ≠ 0 := fun hz => by
      rw [Nat.zero_add] at hz
      rw [hz] at hneg
      exact hneg (by decide)
    obtain ⟨is, hget, hpos⟩ := binLoopRounds_reached (by omega) (Nat.lt_trans hk hcount) script
      hreached hne
    have hle := (hkept k is hget).le
    omega
  · intro h
    have hall := binLoopRounds_kept (Nat.zero_add (sectionCount mem bin)) hcount script fun k hk => by
      rw [Nat.zero_add]
      exact h k hk
    simpa only [Nat.zero_add] using hall

def negativeImage : Image :=
  Memory.ofBytes (le32 1 ++ le32 0 ++ le32 0 ++ le32 0 ++ List.replicate 32 97 ++ le32 0xffffffff ++
    le32 14)

/-- The loop over the entries goes round for the negative count, for which there are to be none. -/
theorem negativeImage_rounds : signedLength negativeImage (headSection 0 0) = -1 ∧
    (∃ is, (binRounds negativeImage 0 ⟨[]⟩ 4096).1[0]? = some is ∧ 0 < is.length) ∧
    ¬CountsKept negativeImage 0 ⟨[]⟩ 4096 := by
  have hlength : signedLength negativeImage (headSection 0 0) = -1 := by decide
  have hrounds : ∃ is, (binRounds negativeImage 0 ⟨[]⟩ 4096).1[0]? = some is ∧ 0 < is.length :=
    binLoopRounds_reached (i := 0) (k := 0) (by decide) (by decide) ⟨[]⟩
      (by unfold ReachedFrom; decide) (by rw [hlength]; decide)
  refine ⟨hlength, hrounds, fun h => ?_⟩
  obtain ⟨is, hget, hpos⟩ := hrounds
  have hle := (h.2.2 0 is hget).le
  rw [hlength] at hle
  exact absurd (Nat.lt_of_lt_of_le hpos hle) (by decide)

end Babelfish.Libfex
