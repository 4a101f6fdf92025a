import Babelfish.Bootargs
import Babelfish.Libfdt.Flatten

/-! `fdt_fixup_from_atags`: the tag list in memory, and what a list makes of a tree. -/

namespace Babelfish

open Libfdt Bytes Forest DeviceTree

inductive Atag
  | mem (size start : UInt32)
  | cmdline (s : Bytes)
  | initrd2 (start size : UInt32)
  | other (tag : UInt32)
  deriving DecidableEq

/-- The words behind the header of a tag. -/
inductive Payload : Atag → UInt32 → List UInt32 → Prop
  | mem {size start : UInt32} {rest : List UInt32} :
    Payload (.mem size start) atagMem (size :: start :: rest)
  | cmdline {s pad : Bytes} {ws : List UInt32} : 0 ∉ s → tagBytes ws = s ++ 0 :: pad →
    Payload (.cmdline s) atagCmdline ws
  | initrd2 {start size : UInt32} {rest : List UInt32} :
    Payload (.initrd2 start size) atagInitrd2 (start :: size :: rest)
  | other {tag : UInt32} {ws : List UInt32} : tag ∉ [atagMem, atagCmdline, atagInitrd2] →
    Payload (.other tag) tag ws

/-- A tag list in memory, up to a header with size zero and whatever follows it. -/
inductive TagList : List Atag → List UInt32 → Prop
  | nil {ws : List UInt32} : TagList [] (0 :: ws)
  | cons {t : Atag} {ts : List Atag} {size tag : UInt32} {ws rest : List UInt32} :
    Payload t tag ws → size.toNat = 2 + ws.length → TagList ts rest →
    TagList (t :: ts) (size :: tag :: (ws ++ rest))

namespace Atag

def cmdlines (ts : List Atag) : List Bytes :=
  ts.filterMap fun
    | .cmdline s => some s
    | _ => none

def banks (ts : List Atag) : List (UInt32 × UInt32) :=
  ts.filterMap fun
    | .mem size start => if size = 0 then none else some (start, size)
    | _ => none

def room : Atag → Nat
  | .mem _ _ => 24
  | .cmdline s => argsRoom s
  | .initrd2 _ _ => 68
  | .other _ => 0

end Atag

/-- What is followed from tag to tag. -/
structure Facts where
  bootargs : Option Bytes
  reg : Option Bytes
  chosen : Bool
  args : List Bytes

def factsOf (fdt : Fdt) (T : DeviceTree) : Facts :=
  ⟨propAt T strChosenPath strBootargs, propAt T strMemoryPath strReg, (T.lookup strChosenPath).isSome,
    readArgs fdt⟩

def Facts.step (memory : Bool) (f : Facts) : Atag → Facts
  | .mem size start => if size ≠ 0 ∧ memory then { f with reg := some (memReg start size) } else f
  | .cmdline s =>
    { f with
      bootargs := some (joinArgs (f.args ++ [s]) ++ [0])
      chosen := true
      args := [joinArgs (f.args ++ [s])] }
  | _ => f

def Initrd.step (d : Initrd) : Atag → Initrd
  | .cmdline _ => { d with chosen := true }
  | .initrd2 start size =>
    if d.chosen then { d with start := some (be32 start.toNat), stop := some (be32 (start + size).toNat) }
    else d
  | _ => d

section

variable {w : World} {T₀ T : DeviceTree}

theorem factsOf_setprop_chosen {fdt : Fdt} (h : Repr fdt T) {i o : Nat} {n : DtNode}
    (hc : T.lookup strChosenPath = some i) (hn : T.get? i = some n)
    (ho : DeviceTree.offset T i = some o) {name val : Bytes} (hne : name ≠ strBootargs)
    (hok : (fdtSetprop fdt o name val).1 = 0)
    (h' : Repr (fdtSetprop fdt o name val).2 (T.modify i (DtNode.setprop name val))) :
    factsOf (fdtSetprop fdt o name val).2 (T.modify i (DtNode.setprop name val)) = factsOf fdt T := by
  unfold factsOf
  rw [propAt_setprop_of_ne h.nodup (fun _ => hne.symm),
    propAt_setprop_of_ne h.nodup (fun hm => absurd hm (chosen_ne_memory h.nodup hc)),
    lookup_modify h.nodup (keepsName_setprop _ _), readArgs_setprop h hn ho hok h' fun _ => hne.symm]

theorem runs_memory (h : Repr w.fdt T) (hf : Frame T₀ T) (hroom : 24 ≤ w.fdt.free.length)
    {size start : UInt32} (hsize : size ≠ 0) :
    Runs (pathOffset strMemoryPath >>= fun o => call (.path strMemoryPath)
      (.setprop strReg (memReg start size)) o) w fun _ w' => ∃ T', Frame T₀ T' ∧
      factsOf w'.fdt T' =
        (factsOf w.fdt T).step (T.lookup strMemoryPath).isSome (.mem size start) ∧
      initrdOf T' = initrdOf T ∧ Leaves w 24 T' w' := by
  have hz : 0 ∉ strMemoryPath := by decide
  have hzr : 0 ∉ strReg := by decide
  have habs : strMemoryPath.head? = some slash := by decide
  have hneg : errNotFound < 0 := by simp [errNotFound]
  have hlen : (memReg start size).length = 8 := rfl
  have hreg : propRoom strReg 8 = 24 := by decide
  have hw : Repr (w.call .root (.pathOffset strMemoryPath) 0).fdt T := h
  cases hm : T.lookup strMemoryPath with
  | none =>
    refine Runs.bind (runs_pathOffset_none h hz habs hm (runs_setprop_of_neg hneg ?_))
    refine ⟨T, hf, ?_, rfl, ?_, ?_⟩
    · rw [call_setprop_of_neg hneg]
      simp [Facts.step, Op.run]
    · rw [call_setprop_of_neg hneg]
      exact h
    · rw [call_setprop_of_neg hneg]
      exact Nat.le_add_right _ _
  | some i =>
    obtain ⟨n, hn⟩ := get?_of_mem (walk_mem hf.rooted.root_mem hm)
    obtain ⟨o, ho⟩ := DeviceTree.offset_isSome (mem_of_get? hn)
    have hle := setRoom_le n strReg 8
    refine Runs.bind (runs_pathOffset h hz (by rw [resolve, if_pos habs, hm]) ho ?_)
    have hset : setRoom n strReg (memReg start size).length ≤ w.fdt.free.length := by
      rw [hlen]
      omega
    have hok := ((h.setprop hn ho hzr (memReg start size)).of_room hset).1
    refine runs_setprop hw hn ho hzr hset fun hl => ?_
    · refine ⟨_, hf.setprop (Or.inr ⟨hm, rfl⟩) _, ?_, initrdOf_setprop hf.nodup (fun hc => ?_) _, hl.1, ?_⟩
      · have hc : ∀ j, T.lookup strChosenPath = some j → j ≠ i := fun j hj e =>
          chosen_ne_memory hf.nodup hj (e ▸ hm)
        unfold factsOf
        rw [propAt_setprop_self hf.nodup hf.rooted hm,
          propAt_setprop_of_ne hf.nodup (fun hj => absurd rfl (hc i hj)),
          lookup_modify hf.nodup (keepsName_setprop _ _)]
        simp only [World.call_fdt, Op.run]
        rw [readArgs_setprop h hn ho hok hl.1 fun hj => absurd rfl (hc i hj)]
        simp [Facts.step, hsize]
      · exact absurd hm (chosen_ne_memory hf.nodup hc)
      · have := hl.2
        rw [hlen] at this
        simp only [World.call_fdt, Op.run] at this ⊢
        omega

theorem runs_initrd (h : Repr w.fdt T) (hf : Frame T₀ T) (hroom : 68 ≤ w.fdt.free.length)
    (start stop : UInt32) :
    Runs (pathOffset strChosenPath >>= fun o =>
      setpropU32 (.path strChosenPath) o strInitrdStart start >>= fun _ =>
      setpropU32 (.path strChosenPath) o strInitrdEnd stop >>= fun _ => pure PUnit.unit) w
      fun _ w' => ∃ T', Frame T₀ T' ∧ factsOf w'.fdt T' = factsOf w.fdt T ∧
        initrdOf T' = (if (initrdOf T).chosen then
          ⟨true, some (be32 start.toNat), some (be32 stop.toNat)⟩ else initrdOf T) ∧
        Leaves w 68 T' w' := by
  have hz : 0 ∉ strChosenPath := by decide
  have hzs : 0 ∉ strInitrdStart := by decide
  have hze : 0 ∉ strInitrdEnd := by decide
  have hne : strInitrdStart ≠ strBootargs ∧ strInitrdEnd ≠ strBootargs := by decide
  have hmem : strInitrdStart ∈ chosenProps ∧ strInitrdEnd ∈ chosenProps := by decide
  have habs : strChosenPath.head? = some slash := by decide
  have hneg : errNotFound < 0 := by simp [errNotFound]
  have hr₁ : propRoom strInitrdStart 4 = 35 := by decide
  have hr₂ : propRoom strInitrdEnd 4 = 33 := by decide
  have hw : Repr (w.call .root (.pathOffset strChosenPath) 0).fdt T := h
  unfold setpropU32
  cases hc : T.lookup strChosenPath with
  | none =>
    refine Runs.bind (runs_pathOffset_none h hz habs hc (Runs.bind (runs_setprop_of_neg hneg
      (Runs.bind (runs_setprop_of_neg hneg (Runs.pure ?_))))))
    refine ⟨T, hf, ?_, ?_, ?_, ?_⟩
    · rw [call_setprop_of_neg hneg, call_setprop_of_neg hneg]
      rfl
    · rw [if_neg (by simp [initrdOf, hc])]
    · rw [call_setprop_of_neg hneg, call_setprop_of_neg hneg]
      exact h
    · rw [call_setprop_of_neg hneg, call_setprop_of_neg hneg]
      exact Nat.le_add_right _ _
  | some i =>
    obtain ⟨n, hn⟩ := get?_of_mem (walk_mem hf.rooted.root_mem hc)
    obtain ⟨o, ho⟩ := DeviceTree.offset_isSome (mem_of_get? hn)
    have hle := setRoom_le n strInitrdStart 4
    have hset : setRoom n strInitrdStart (be32 start.toNat).length ≤ w.fdt.free.length := by
      rw [length_be32]
      omega
    have hok := ((h.setprop hn ho hzs (be32 start.toNat)).of_room hset).1
    refine Runs.bind (runs_pathOffset h hz (by rw [resolve, if_pos habs, hc]) ho ?_)
    refine Runs.bind (runs_setprop hw hn ho hzs hset fun hl => ?_)
    have hf₁ := hf.setprop (Or.inl ⟨hc, hmem.1⟩) (be32 start.toNat)
    have hc₁ := (lookup_modify hf.nodup (keepsName_setprop strInitrdStart (be32 start.toNat))
      (i := i) strChosenPath).trans hc
    obtain ⟨hn₁, ho₁⟩ := DeviceTree.stays_modify hf.nodup hn ho
      (DtNode.setprop strInitrdStart (be32 start.toNat))
    have hle₁ := setRoom_le (n.setprop strInitrdStart (be32 start.toNat)) strInitrdEnd 4
    have hfacts := factsOf_setprop_chosen h hc hn ho hne.1 hok hl.1
    have hl₁ := hl.2
    rw [length_be32] at hl₁
    simp only [World.call_fdt, Op.run] at hl₁
    have hset₁ : setRoom (n.setprop strInitrdStart (be32 start.toNat)) strInitrdEnd
        (be32 stop.toNat).length ≤ (fdtSetprop w.fdt o strInitrdStart (be32 start.toNat)).2.free.length := by
      rw [length_be32]
      omega
    have hok₁ := ((hl.1.setprop hn₁ ho₁ hze (be32 stop.toNat)).of_room hset₁).1
    refine Runs.bind (runs_setprop hl.1 hn₁ ho₁ hze hset₁ fun hl' => Runs.pure ?_)
    have hf₂ := hf₁.setprop (Or.inl ⟨hc₁, hmem.2⟩) (be32 stop.toNat)
    refine ⟨_, hf₂, ?_, ?_, hl'.1, ?_⟩
    · exact (factsOf_setprop_chosen hl.1 hc₁ hn₁ ho₁ hne.2 hok₁ hl'.1).trans hfacts
    · rw [if_pos (by simp [initrdOf, hc]), initrdOf,
        lookup_modify hf₁.nodup (keepsName_setprop _ _), hc₁,
        propAt_setprop_of_ne hf₁.nodup fun _ => (by decide : strInitrdStart ≠ strInitrdEnd),
        propAt_setprop_self hf.nodup hf.rooted hc, propAt_setprop_self hf₁.nodup hf₁.rooted hc₁]
      rfl
    · have := hl'.2
      rw [length_be32] at this
      simp only [World.call_fdt, Op.run] at this ⊢
      omega

theorem factsOf_cmdline {fdt fdt' : Fdt} {T' : DeviceTree} {s : Bytes} (memory : Bool) (h' : Repr fdt' T')
    (hs : 0 ∉ s) (hc : T'.lookup strChosenPath ≠ none)
    (hargs : propAt T' strChosenPath strBootargs = some (joinArgs (readArgs fdt ++ [s]) ++ [0]))
    (hreg : propAt T' strMemoryPath strReg = propAt T strMemoryPath strReg) :
    factsOf fdt' T' = (factsOf fdt T).step memory (.cmdline s) := by
  have hz : 0 ∉ joinArgs (readArgs fdt ++ [s]) := zero_not_mem_joinArgs fun a ha =>
    (List.mem_append.mp ha).elim (zero_not_mem_readArgs fdt a) fun h => List.mem_singleton.mp h ▸ hs
  have hread : readArgs fdt' = [joinArgs (readArgs fdt ++ [s])] := by
    rw [readArgs_eq h' (hargs ▸ hasNul_joined _), hargs, argsOf_joined hz]
  simp only [factsOf, Facts.step, hargs, hreg, hread, Option.isSome_iff_ne_none.mpr hc]

theorem runs_fixupTag (h : Repr w.fdt T) (hf : Frame T₀ T) {t : Atag} {size tag : UInt32}
    {ws rest : List UInt32} (hp : Payload t tag ws) (hroom : t.room ≤ w.fdt.free.length) :
    Runs (fixupTag (size :: tag :: (ws ++ rest))) w fun _ w' => ∃ T', Frame T₀ T' ∧
      factsOf w'.fdt T' = (factsOf w.fdt T).step (T.lookup strMemoryPath).isSome t ∧
      initrdOf T' = (initrdOf T).step t ∧ Leaves w t.room T' w' := by
  have htag : tagWord (size :: tag :: (ws ++ rest)) 1 = tag := rfl
  unfold fixupTag
  cases hp with
  | @mem size' start rest' =>
    have hcmd : ¬(atagMem = atagCmdline) := by decide
    rw [if_neg (htag ▸ hcmd), if_pos htag]
    by_cases hsize : size' = 0
    · rw [if_pos (show tagWord (size :: atagMem :: (size' :: start :: rest' ++ rest)) 2 = 0 from hsize)]
      exact Runs.pure ⟨T, hf, by simp [Facts.step, hsize], rfl, h, Nat.le_add_right _ _⟩
    · rw [if_neg (show ¬tagWord (size :: atagMem :: (size' :: start :: rest' ++ rest)) 2 = 0 from
        hsize)]
      refine Runs.bind_bind ((runs_memory h hf hroom hsize).mono ?_)
      rintro - w' ⟨T', hf', hfacts, hinitrd, hl⟩
      exact Runs.pure ⟨T', hf', hfacts, hinitrd, hl⟩
  | @cmdline s pad _ hs hbytes =>
    have hcmd : cstr (tagBytes ((size :: atagCmdline :: (ws ++ rest)).drop 2)) = s := by
      have happ : tagBytes (ws ++ rest) = tagBytes ws ++ tagBytes rest := List.flatMap_append
      rw [List.drop_succ_cons, List.drop_succ_cons, List.drop_zero, happ, hbytes, List.append_assoc,
        List.cons_append, cstr_append hs]
    rw [if_pos htag, hcmd]
    refine Runs.bind ((runs_appendBootargs h hf hs hroom).mono ?_)
    rintro r w' ⟨-, T', hf', hc, hargs, hreg, hinitrd, -, hl⟩
    exact Runs.pure ⟨T', hf', factsOf_cmdline _ hl.1 hs hc hargs hreg, hinitrd, hl⟩
  | @initrd2 start size' rest' =>
    have hcmd : ¬(atagInitrd2 = atagCmdline) ∧ ¬(atagInitrd2 = atagMem) := by decide
    rw [if_neg (htag ▸ hcmd.1), if_neg (htag ▸ hcmd.2), if_pos htag]
    refine (runs_initrd h hf hroom start (start + size')).mono ?_
    rintro - w' ⟨T', hf', hfacts, hinitrd, hl⟩
    refine ⟨T', hf', hfacts, hinitrd.trans ?_, hl⟩
    by_cases hd : (initrdOf T).chosen = true
    · rw [if_pos hd, Initrd.step, if_pos hd, hd]
    · rw [if_neg hd, Initrd.step, if_neg hd]
  | other hother =>
    simp only [List.mem_cons, List.not_mem_nil, or_false, not_or] at hother
    rw [if_neg (htag ▸ hother.2.1), if_neg (htag ▸ hother.1), if_neg (htag ▸ hother.2.2)]
    exact Runs.pure ⟨T, hf, rfl, rfl, h, Nat.le_refl _⟩

end

namespace Atag

@[simp] theorem cmdlines_append (ts us : List Atag) : cmdlines (ts ++ us) = cmdlines ts ++ cmdlines us :=
  List.filterMap_append

@[simp] theorem banks_append (ts us : List Atag) : banks (ts ++ us) = banks ts ++ banks us :=
  List.filterMap_append

theorem cmdlines_map (ss : List Bytes) : cmdlines (ss.map .cmdline) = ss := by
  simp [cmdlines, List.filterMap_map]

theorem mem_cmdlines {ts : List Atag} {s : Bytes} (h : .cmdline s ∈ ts) : s ∈ cmdlines ts :=
  List.mem_filterMap.mpr ⟨_, h, rfl⟩

end Atag

open Atag

theorem TagList.length_le {ts : List Atag} {ws : List UInt32} (h : TagList ts ws) :
    ts.length ≤ ws.length := by
  induction h with
  | nil => exact Nat.zero_le _
  | cons _ _ _ ih =>
    simp only [List.length_cons, List.length_append]
    omega

namespace Facts

variable {memory : Bool}

theorem foldl_reg (ts : List Atag) (f : Facts) : (ts.foldl (step true) f).reg =
    match (banks ts).getLast? with
    | some b => some (memReg b.1 b.2)
    | none => f.reg := by
  induction ts using List.reverseRecOn with
  | nil => rfl
  | append_singleton ts t ih =>
    rw [List.foldl_append, banks_append]
    cases t with
    | mem size start =>
      by_cases hsize : size = 0
      · simpa [step, banks, hsize] using ih
      · simp [step, banks, hsize]
    | cmdline s => simpa [step, banks] using ih
    | initrd2 start size => simpa [step, banks] using ih
    | other tag => simpa [step, banks] using ih

theorem foldl_chosen (ts : List Atag) (f : Facts) :
    (ts.foldl (step memory) f).chosen = true ↔ f.chosen = true ∨ cmdlines ts ≠ [] := by
  induction ts using List.reverseRecOn with
  | nil => simp [cmdlines]
  | append_singleton ts t ih =>
    rw [List.foldl_append, cmdlines_append]
    cases t with
    | mem size start =>
      simp only [List.foldl_cons, List.foldl_nil, step]
      split <;> simpa [cmdlines] using ih
    | cmdline s => simp [step, cmdlines]
    | initrd2 start size => simpa [step, cmdlines] using ih
    | other tag => simpa [step, cmdlines] using ih

/-- The command lines of a list accumulate. -/
theorem foldl_bootargs (ts : List Atag) (f : Facts) :
    (ts.foldl (step memory) f).args =
        (if cmdlines ts = [] then f.args else [joinArgs (f.args ++ cmdlines ts)]) ∧
      (ts.foldl (step memory) f).bootargs = if cmdlines ts = [] then f.bootargs else
        some (joinArgs (f.args ++ cmdlines ts) ++ [0]) := by
  induction ts using List.reverseRecOn with
  | nil => exact ⟨rfl, rfl⟩
  | append_singleton ts t ih =>
    rw [List.foldl_append, cmdlines_append]
    cases t with
    | mem size start =>
      simp only [List.foldl_cons, List.foldl_nil, step]
      split <;> simpa [cmdlines] using ih
    | initrd2 start size => simpa [step, cmdlines] using ih
    | other tag => simpa [step, cmdlines] using ih
    | cmdline s =>
      have hone : cmdlines [.cmdline s] = [s] := rfl
      have hjoin : joinArgs ((ts.foldl (step memory) f).args ++ [s]) =
          joinArgs (f.args ++ (cmdlines ts ++ [s])) := by
        rw [ih.1]
        by_cases hts : cmdlines ts = []
        · rw [if_pos hts, hts, List.nil_append]
        · rw [if_neg hts, joinArgs_joinArgs (by simp [hts]), List.append_assoc]
      simp only [List.foldl_cons, List.foldl_nil, step, hone, hjoin]
      exact ⟨(if_neg (by simp)).symm, (if_neg (by simp)).symm⟩

end Facts

def tagsRoom (ts : List Atag) : Nat := (ts.map room).sum

section

variable {w : World} {T₀ T : DeviceTree}

theorem runs_tagLoop {ts : List Atag} {ws : List UInt32} (ht : TagList ts ws) (h : Repr w.fdt T)
    (hf : Frame T₀ T) (hroom : tagsRoom ts ≤ w.fdt.free.length) {fuel : Nat}
    (hfuel : ts.length ≤ fuel) :
    Runs (tagLoop fuel ws) w fun _ w' => ∃ T', Frame T₀ T' ∧
      factsOf w'.fdt T' = ts.foldl (Facts.step (T₀.lookup strMemoryPath).isSome) (factsOf w.fdt T) ∧
      initrdOf T' = ts.foldl Initrd.step (initrdOf T) ∧ Leaves w (tagsRoom ts) T' w' := by
  induction ht generalizing w T fuel with
  | nil =>
    have hdone : ∃ T', Frame T₀ T' ∧ factsOf w.fdt T' = factsOf w.fdt T ∧
        initrdOf T' = initrdOf T ∧ Leaves w 0 T' w := ⟨T, hf, rfl, rfl, h, Nat.le_refl _⟩
    cases fuel with
    | zero => exact Runs.pure hdone
    | succ fuel => exact Runs.pure hdone
  | @cons t ts size tag ws rest hp hsize htail ih =>
    obtain ⟨fuel, rfl⟩ : ∃ f, fuel = f + 1 := ⟨fuel - 1, by rw [List.length_cons] at hfuel; omega⟩
    have hsum : tagsRoom (t :: ts) = t.room + tagsRoom ts := by simp [tagsRoom]
    rw [hsum] at hroom ⊢
    have hne : ¬tagWord (size :: tag :: (ws ++ rest)) 0 = 0 := fun e => by
      have hz : size = 0 := e
      rw [hz] at hsize
      simp at hsize
      omega
    have hdrop : (size :: tag :: (ws ++ rest)).drop
        (tagWord (size :: tag :: (ws ++ rest)) 0).toNat = rest := by
      have hw0 : tagWord (size :: tag :: (ws ++ rest)) 0 = size := rfl
      rw [hw0, hsize, Nat.add_comm, List.drop_succ_cons, List.drop_succ_cons, List.drop_left]
    unfold tagLoop
    rw [if_neg hne, hdrop]
    refine Runs.bind ((runs_fixupTag h hf hp (by omega)).mono ?_)
    rintro - w₁ ⟨T₁, hf₁, hfacts, hinitrd, hl₁⟩
    rw [hf.memory] at hfacts
    have hfree := hl₁.2
    refine (ih hl₁.1 hf₁ (by omega) (by rw [List.length_cons] at hfuel; omega)).mono ?_
    rintro - w₂ ⟨T₂, hf₂, hfacts₂, hinitrd₂, hl₂⟩
    have hstep := congrArg (ts.foldl (Facts.step (T₀.lookup strMemoryPath).isSome)) hfacts
    exact ⟨T₂, hf₂, hfacts₂.trans hstep,
      hinitrd₂.trans (congrArg (ts.foldl Initrd.step ·) hinitrd), hl₁.trans hl₂⟩

theorem runs_fixupFromAtags {fdt : Fdt} {ts : List Atag} {ws : List UInt32} (ht : TagList ts ws)
    (h : Repr fdt T) (hroom : tagsRoom ts ≤ fdt.free.length) :
    Runs (fdtFixupFromAtags ws) ⟨fdt, []⟩ fun r w' => r = 0 ∧ ∃ T', Frame T T' ∧
      factsOf w'.fdt T' = ts.foldl (Facts.step (T.lookup strMemoryPath).isSome) (factsOf fdt T) ∧
      initrdOf T' = ts.foldl Initrd.step (initrdOf T) ∧
      Leaves ⟨fdt, []⟩ (tagsRoom ts) T' w' := by
  unfold fdtFixupFromAtags
  refine Runs.bind ((runs_tagLoop (w := ⟨fdt, []⟩) ht h (Frame.refl h.nodup h.rooted) hroom
    ht.length_le).mono ?_)
  rintro - w' hpost
  exact Runs.pure ⟨rfl, hpost⟩

end

/-- What `reg` of `/memory` holds if every bank is kept. -/
def banksReg (banks : List (UInt32 × UInt32)) : Bytes := banks.flatMap fun b => memReg b.1 b.2

theorem length_banksReg (banks : List (UInt32 × UInt32)) :
    (banksReg banks).length = 8 * banks.length := by
  induction banks with
  | nil => rfl
  | cons b banks ih =>
    have hb : (memReg b.1 b.2).length = 8 := rfl
    rw [banksReg, List.flatMap_cons, List.length_append, hb, ← banksReg, ih, List.length_cons]
    omega

section

variable {fdt : Fdt} {T : DeviceTree} {ts : List Atag} {ws : List UInt32}

theorem runs_memoryReg (ht : TagList ts ws) (h : Repr fdt T) (hm : T.lookup strMemoryPath ≠ none)
    (hroom : tagsRoom ts ≤ fdt.free.length) :
    Runs (fdtFixupFromAtags ws) ⟨fdt, []⟩ fun _ w' => readProp w'.fdt strMemoryPath strReg =
      match (banks ts).getLast? with
      | some b => some (memReg b.1 b.2)
      | none => readProp fdt strMemoryPath strReg := by
  have hz : 0 ∉ strMemoryPath := by decide
  have habs : strMemoryPath.head? = some slash := by decide
  refine (runs_fixupFromAtags ht h hroom).mono ?_
  rintro r w' ⟨-, T', -, hfacts, -, hl⟩
  have hsome : (T.lookup strMemoryPath).isSome = true := Option.isSome_iff_ne_none.mpr hm
  have hreg : propAt T' strMemoryPath strReg = _ := congrArg Facts.reg hfacts
  rw [hsome, Facts.foldl_reg] at hreg
  rw [readProp_eq hl.1 hz habs, readProp_eq h hz habs]
  exact hreg

/-- Every bank is kept just if there is at most one. -/
theorem fdtFixupFromAtags_memory_iff (ht : TagList ts ws) (h : Repr fdt T)
    (hm : T.lookup strMemoryPath ≠ none) (hroom : tagsRoom ts ≤ fdt.free.length) :
    Runs (fdtFixupFromAtags ws) ⟨fdt, []⟩ fun _ w' =>
      (readProp w'.fdt strMemoryPath strReg =
        if banks ts = [] then readProp fdt strMemoryPath strReg else some (banksReg (banks ts))) ↔
      (banks ts).length ≤ 1 := by
  refine (runs_memoryReg ht h hm hroom).mono fun _ w' hreg => ?_
  rw [hreg]
  match hb : banks ts with
  | [] => simp
  | [b] => simp [banksReg]
  | b :: b' :: bs =>
    rw [if_neg (by simp), List.getLast?_cons_cons]
    constructor
    · intro he
      rw [List.getLast?_eq_some_getLast (by simp)] at he
      have hlen := congrArg List.length (Option.some.inj he)
      rw [length_banksReg] at hlen
      have hmem : ∀ b : UInt32 × UInt32, (memReg b.1 b.2).length = 8 := fun _ => rfl
      rw [hmem, List.length_cons, List.length_cons] at hlen
      omega
    · intro hle
      simp at hle

end

def memoryTree : DeviceTree :=
  .node 0 ⟨[], [(Bytes.ofString "#address-cells", be32 1), (Bytes.ofString "#size-cells", be32 1)]⟩
    (.node 1 ⟨Bytes.ofString "memory", []⟩ .nil .nil) .nil

theorem memoryTree_repr : Repr (memoryTree.blob 200) memoryTree :=
  DeviceTree.repr_blob (by decide) (by decide) ⟨0, _, _, rfl⟩ (by decide)

theorem memoryTree_room : (memoryTree.blob 200).free.length = 200 := List.length_replicate

def oneBank : List Atag := [.other atagCore, .mem 2 1]

def oneBankWords : List UInt32 := [2, atagCore, 4, atagMem, 2, 1, 0, 0]

theorem oneBank_list : TagList oneBank oneBankWords :=
  .cons (@Payload.other _ [] (by decide)) rfl (.cons (@Payload.mem _ _ []) rfl .nil)

def twoBanks : List Atag := [.other atagCore, .mem 2 1, .mem 2 5]

def twoBanksWords : List UInt32 := [2, atagCore, 4, atagMem, 2, 1, 4, atagMem, 2, 5, 0, 0]

theorem twoBanks_list : TagList twoBanks twoBanksWords :=
  .cons (@Payload.other _ [] (by decide)) rfl
    (.cons (@Payload.mem _ _ []) rfl (.cons (@Payload.mem _ _ []) rfl .nil))

theorem fdtFixupFromAtags_memory_iff_oneBank :
    Runs (fdtFixupFromAtags oneBankWords) ⟨memoryTree.blob 200, []⟩ fun _ w' =>
      (readProp w'.fdt strMemoryPath strReg =
        if banks oneBank = [] then readProp (memoryTree.blob 200) strMemoryPath strReg
        else some (banksReg (banks oneBank))) ↔
      (banks oneBank).length ≤ 1 :=
  fdtFixupFromAtags_memory_iff oneBank_list memoryTree_repr (by decide)
    (by rw [memoryTree_room]; decide)

/-- The second bank takes the place of the first. -/
theorem twoBanks_overwritten :
    Runs (fdtFixupFromAtags twoBanksWords) ⟨memoryTree.blob 200, []⟩ fun _ w' =>
      banks twoBanks ≠ [] ∧
        readProp w'.fdt strMemoryPath strReg ≠ some (banksReg (banks twoBanks)) := by
  refine (runs_memoryReg twoBanks_list memoryTree_repr (by decide)
    (by rw [memoryTree_room]; decide)).mono fun _ w' hreg => ⟨by decide, ?_⟩
  rw [hreg]
  decide

def appendAll : List Bytes → Fixup Int
  | [] => pure 0
  | s :: ss => do
    let _ ← fdtFixupAppendBootargs s
    appendAll ss

section

variable {w : World} {T₀ T : DeviceTree}

theorem runs_appendAll {ss : List Bytes} (h : Repr w.fdt T) (hf : Frame T₀ T)
    (hz : ∀ s ∈ ss, 0 ∉ s) (hroom : tagsRoom (ss.map .cmdline) ≤ w.fdt.free.length)
    (memory : Bool) :
    Runs (appendAll ss) w fun _ w' => ∃ T', Frame T₀ T' ∧
      factsOf w'.fdt T' = (ss.map .cmdline).foldl (Facts.step memory) (factsOf w.fdt T) ∧
      Leaves w (tagsRoom (ss.map .cmdline)) T' w' := by
  induction ss generalizing w T with
  | nil => exact Runs.pure ⟨T, hf, rfl, h, Nat.le_refl _⟩
  | cons s ss ih =>
    have hs := hz s List.mem_cons_self
    have hsum : tagsRoom ((s :: ss).map .cmdline) = argsRoom s + tagsRoom (ss.map .cmdline) := by
      simp [tagsRoom, Atag.room]
    rw [hsum] at hroom ⊢
    unfold appendAll
    refine Runs.bind ((runs_appendBootargs h hf hs (by omega)).mono ?_)
    rintro - w₁ ⟨-, T₁, hf₁, hc, hargs, hreg, -, -, hl₁⟩
    have hfacts := factsOf_cmdline memory hl₁.1 hs hc hargs hreg
    have hfree := hl₁.2
    refine (ih hl₁.1 hf₁ (fun t ht => hz t (List.mem_cons_of_mem _ ht)) (by omega)).mono ?_
    rintro - w₂ ⟨T₂, hf₂, hfacts₂, hl₂⟩
    exact ⟨T₂, hf₂, hfacts₂.trans (congrArg ((ss.map Atag.cmdline).foldl (Facts.step memory)) hfacts),
      hl₁.trans hl₂⟩

end

/-- Command lines accumulate in order, and nothing else moves. -/
theorem fdtFixupFromAtags_bootargs {fdt : Fdt} {T : DeviceTree} {ts : List Atag} {ws : List UInt32}
    {later : List Bytes} (ht : TagList ts ws) (h : Repr fdt T)
    (hok : Terminated (propAt T strChosenPath strBootargs)) (hlater : ∀ s ∈ later, 0 ∉ s)
    (hroom : tagsRoom ts + tagsRoom (later.map .cmdline) ≤ fdt.free.length) :
    Runs (fdtFixupFromAtags ws >>= fun _ => appendAll later) ⟨fdt, []⟩ fun _ w' =>
      ∃ T', Repr w'.fdt T' ∧ Frame T T' ∧
        propAt T' strChosenPath strBootargs =
          (if cmdlines ts ++ later = [] then propAt T strChosenPath strBootargs
          else some (joinArgs
            (argsOf (propAt T strChosenPath strBootargs) ++ (cmdlines ts ++ later)) ++ [0])) ∧
        (T.lookup strChosenPath = none ∧ T'.lookup strChosenPath ≠ none ↔
          T.lookup strChosenPath = none ∧ cmdlines ts ++ later ≠ []) := by
  refine Runs.bind ((runs_fixupFromAtags ht h (by omega)).mono ?_)
  rintro r w₁ ⟨-, T₁, hf₁, hfacts₁, -, hl₁⟩
  have hfree := hl₁.2
  refine (runs_appendAll hl₁.1 hf₁ hlater (by simp only at hfree; omega)
    (T.lookup strMemoryPath).isSome).mono ?_
  rintro r w₂ ⟨T₂, hf₂, hfacts₂, hl₂⟩
  rw [hfacts₁, ← List.foldl_append] at hfacts₂
  have hcmd : cmdlines (ts ++ later.map .cmdline) = cmdlines ts ++ later := by
    rw [cmdlines_append, cmdlines_map]
  refine ⟨T₂, hl₂.1, hf₂, ?_, and_congr_right fun hnone => ?_⟩
  · have hargs : propAt T₂ strChosenPath strBootargs = _ := congrArg Facts.bootargs hfacts₂
    rw [(Facts.foldl_bootargs _ _).2, hcmd] at hargs
    rw [hargs, ← readArgs_eq h hok.hasNul]
    rfl
  · have hchosen : ((T₂.lookup strChosenPath).isSome = true) = _ :=
      congrArg (Facts.chosen · = true) hfacts₂
    rw [eq_iff_iff, Facts.foldl_chosen, hcmd] at hchosen
    simpa [factsOf, hnone, Option.isSome_iff_ne_none] using hchosen

def argsTags : List Atag := [.other atagCore, .cmdline (Bytes.ofString "quiet")]

def argsWords : List UInt32 :=
  [2, atagCore, 4, atagCmdline, 0x65697571, 0x74, 0, 0]

theorem argsTags_list : TagList argsTags argsWords :=
  .cons (@Payload.other _ [] (by decide)) rfl
    (.cons (@Payload.cmdline _ [0, 0] [0x65697571, 0x74] (by decide) (by decide)) rfl .nil)

theorem fdtFixupFromAtags_bootargs_quiet :
    Runs (fdtFixupFromAtags argsWords >>= fun _ => appendAll [Bytes.ofString "debug"])
      ⟨memoryTree.blob 200, []⟩ fun _ w' =>
      ∃ T', Repr w'.fdt T' ∧ Frame memoryTree T' ∧
        propAt T' strChosenPath strBootargs =
          (if cmdlines argsTags ++ [Bytes.ofString "debug"] = []
          then propAt memoryTree strChosenPath strBootargs
          else some (joinArgs (argsOf (propAt memoryTree strChosenPath strBootargs) ++
            (cmdlines argsTags ++ [Bytes.ofString "debug"])) ++ [0])) ∧
        (memoryTree.lookup strChosenPath = none ∧ T'.lookup strChosenPath ≠ none ↔
          memoryTree.lookup strChosenPath = none ∧
            cmdlines argsTags ++ [Bytes.ofString "debug"] ≠ []) :=
  fdtFixupFromAtags_bootargs argsTags_list memoryTree_repr (fun b hb => by cases hb)
    (by decide) (by rw [memoryTree_room]; decide)

end Babelfish
