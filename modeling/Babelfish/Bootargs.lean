import Babelfish.Chosen
import Babelfish.Libfdt.Padding
import Babelfish.Steps

/-! `fdt_fixup_append_bootargs` joins command lines with single spaces. -/

namespace Babelfish

open Libfdt Bytes Forest DeviceTree

def argsOf : Option Bytes → List Bytes
  | some v => if v = [] then [] else [cstr v]
  | none => []

/-- The arguments that are there already, as `fdt_fixup_append_bootargs` reads them: what has no end is read
on in the padding. -/
def oldArgs (fdt : Fdt) (offset : Int) : List Bytes :=
  let (ptr, len) := fdtGetprop fdt offset strBootargs
  if 0 < len then [(ptr.map (cstrAt fdt)).getD []] else []

def readArgs (fdt : Fdt) : List Bytes :=
  let offset := fdtPathOffset fdt strChosenPath
  if offset < 0 then [] else oldArgs fdt offset

def joinArgs (args : List Bytes) : Bytes := strSpace.intercalate args

/-- What `bootargs` may be: absent, empty or one string. -/
def Terminated (v : Option Bytes) : Prop := ∀ b ∈ v, b = [] ∨ ∃ s, 0 ∉ s ∧ b = s ++ [0]

/-- What is read of `bootargs` ends in it. -/
def HasNul (v : Option Bytes) : Prop := ∀ b ∈ v, b = [] ∨ 0 ∈ b

theorem Terminated.hasNul {v : Option Bytes} (h : Terminated v) : HasNul v := fun b hb =>
  (h b hb).imp_right fun ⟨_, _, e⟩ => e ▸ List.mem_append_right _ (List.mem_singleton_self _)

theorem argsOf_joined {s : Bytes} (hs : 0 ∉ s) : argsOf (some (s ++ [0])) = [s] := by
  simp [argsOf, cstr_append hs]

theorem hasNul_joined (s : Bytes) : HasNul (some (s ++ [0])) := by
  rintro b hb
  obtain rfl := Option.some.inj hb
  exact Or.inr (List.mem_append_right _ (List.mem_singleton_self _))

theorem joinArgs_concat {args : List Bytes} (h : args ≠ []) (s : Bytes) :
    joinArgs (args ++ [s]) = joinArgs args ++ (strSpace ++ s) := by
  unfold joinArgs
  induction args with
  | nil => exact absurd rfl h
  | cons a args ih =>
    cases args with
    | nil => simp
    | cons b args =>
      rw [List.cons_append, List.cons_append, List.intercalate_cons_cons, ← List.cons_append,
        ih (by simp), List.intercalate_cons_cons]
      simp

theorem joinArgs_joinArgs {args : List Bytes} (h : args ≠ []) (s : Bytes) :
    joinArgs ([joinArgs args] ++ [s]) = joinArgs (args ++ [s]) := by
  rw [joinArgs_concat h, joinArgs_concat (by simp)]
  simp [joinArgs]

theorem zero_not_mem_joinArgs {args : List Bytes} (h : ∀ a ∈ args, 0 ∉ a) : 0 ∉ joinArgs args := by
  have hz : 0 ∉ strSpace := by decide
  induction args using List.reverseRecOn with
  | nil => simp [joinArgs]
  | append_singleton args s ih =>
    by_cases hargs : args = []
    · subst hargs
      simpa [joinArgs] using h s (by simp)
    · rw [joinArgs_concat hargs, List.mem_append, List.mem_append, not_or, not_or]
      exact ⟨ih fun a ha => h a (List.mem_append_left _ ha), hz, h s (by simp)⟩

theorem cstr_newBootargs (len : Int) (old bootargs : Bytes) :
    cstr (newBootargs len old bootargs) =
      if 0 < len then cstr old ++ (strSpace ++ cstr bootargs) else cstr bootargs := by
  have hs : cstr strSpace = strSpace := by decide
  unfold newBootargs
  split
  · rw [cstr_strcat, cstr_strcat, cstr_strcpy, hs, List.append_assoc]
  · exact cstr_strcpy _ _

theorem length_newBootargs {len : Nat} {old bootargs : Bytes} (h : 0 < len → strlen old < len) :
    (newBootargs len old bootargs).length =
      (if 0 < len then len + strlen bootargs + 2 else strlen bootargs + 2) := by
  have hspace : strlen strSpace = 1 := by decide
  have hmalloc : ∀ n, (malloc n).length = n := fun n => List.length_replicate
  unfold newBootargs
  by_cases hlen : 0 < len
  · have hold := h hlen
    have h₁ : (strcpy (malloc (len + strlen bootargs + 2)) old).length =
        len + strlen bootargs + 2 := by
      rw [length_strcpy (by rw [hmalloc]; omega), hmalloc]
    have hl₁ : strlen (strcpy (malloc (len + strlen bootargs + 2)) old) = strlen old := by
      rw [strlen, cstr_strcpy, strlen]
    have h₂ : (strcat (strcpy (malloc (len + strlen bootargs + 2)) old) strSpace).length =
        len + strlen bootargs + 2 := by
      rw [length_strcat (by rw [h₁, hl₁]; omega), h₁]
    have hl₂ : strlen (strcat (strcpy (malloc (len + strlen bootargs + 2)) old) strSpace) =
        strlen old + 1 := by
      rw [strlen, cstr_strcat, cstr_strcpy, List.length_append, ← strlen, ← strlen, hspace]
    have hpos : (0 : Int) < len := by omega
    rw [if_pos hpos, if_pos hlen, Int.toNat_natCast,
      length_strcat (by rw [h₂, hl₂]; omega), h₂]
  · have hpos : ¬((0 : Int) < len) := by omega
    rw [if_neg hpos, if_neg hlen, length_strcpy (by rw [hmalloc]; omega), hmalloc]

/-- What a tree becomes: `/chosen` is made if it is not there, and its `bootargs` is set. -/
inductive Appended (T : DeviceTree) : DeviceTree → Prop
  | there {id : Nat} (val : Bytes) : T.lookup strChosenPath = some id →
    Appended T (T.modify id (DtNode.setprop strBootargs val))
  | made {new : Nat} (val : Bytes) : T.lookup strChosenPath = none → new ∉ T.ids →
    Appended T ((T.addFirst T.root new ⟨strChosen, []⟩).modify new (DtNode.setprop strBootargs val))

def argsRoom (s : Bytes) : Nat := s.length + 41

section

variable {fdt : Fdt} {T : DeviceTree} {id o : Nat} {n : DtNode}

theorem oldArgs_of_empty (h : Repr fdt T) (hn : T.get? id = some n)
    (ho : DeviceTree.offset T id = some o) (hv : (n.getprop strBootargs).getD [] = []) :
    oldArgs fdt o = [] := by
  have hlen := h.getprop_len hn ho strBootargs
  unfold oldArgs
  cases hp : n.getprop strBootargs with
  | none =>
    rw [hp] at hlen
    simp [hlen, errNotFound]
  | some v =>
    rw [hp] at hlen hv
    obtain rfl : v = [] := hv
    simp [hlen]

theorem oldArgs_of_some (h : Repr fdt T) (hn : T.get? id = some n)
    (ho : DeviceTree.offset T id = some o) {v : Bytes} (hp : n.getprop strBootargs = some v)
    (hv : v ≠ []) : ∃ p : Nat, oldArgs fdt o = [cstrAt fdt p] ∧ (cstrAt fdt p).length ≤ v.length + 3 ∧
      (0 ∈ v → cstrAt fdt p = cstr v) := by
  obtain ⟨p, hget, hle, rest, hdrop⟩ := h.getprop_some hn ho hp
  have hpos : (0 : Int) < (v.length : Nat) := by
    have := List.length_pos_iff.mpr hv
    omega
  refine ⟨p, ?_, hle, fun hz => ?_⟩
  · simp only [oldArgs, hget, if_pos hpos, Option.map_some, Option.getD_some]
  · rw [cstrAt, Int.toNat_natCast, hdrop, cstr_append_of_mem hz]

theorem oldArgs_eq (h : Repr fdt T) (hn : T.get? id = some n) (ho : DeviceTree.offset T id = some o)
    (hok : HasNul (n.getprop strBootargs)) : oldArgs fdt o = argsOf (n.getprop strBootargs) := by
  cases hp : n.getprop strBootargs with
  | none => exact oldArgs_of_empty h hn ho (by rw [hp]; rfl)
  | some v =>
    by_cases hv : v = []
    · rw [oldArgs_of_empty h hn ho (by rw [hp]; exact hv), argsOf, if_pos hv]
    · obtain ⟨p, hold, -, hcstr⟩ := oldArgs_of_some h hn ho hp hv
      rw [hold, argsOf, if_neg hv, hcstr ((hok v hp).resolve_left hv)]

theorem cstr_newBootargs_oldArgs (fdt : Fdt) (offset : Int) {s : Bytes} (hs : 0 ∉ s) :
    cstr (newBootargs (fdtGetprop fdt offset strBootargs).2
      (((fdtGetprop fdt offset strBootargs).1.map (cstrAt fdt)).getD []) s) =
      joinArgs (oldArgs fdt offset ++ [s]) := by
  have hcstr : cstr (((fdtGetprop fdt offset strBootargs).1.map (cstrAt fdt)).getD []) =
      ((fdtGetprop fdt offset strBootargs).1.map (cstrAt fdt)).getD [] := by
    cases (fdtGetprop fdt offset strBootargs).1 with
    | none => rfl
    | some p => exact cstr_eq_self (zero_not_mem_cstr _)
  rw [cstr_newBootargs, oldArgs, hcstr, cstr_eq_self hs]
  by_cases hlen : 0 < (fdtGetprop fdt offset strBootargs).2
  · simp only [if_pos hlen]
    rw [joinArgs_concat (List.cons_ne_nil _ _), joinArgs, List.intercalate_singleton]
  · simp only [if_neg hlen]
    simp [joinArgs]

theorem zero_not_mem_oldArgs (fdt : Fdt) (offset : Int) : ∀ a ∈ oldArgs fdt offset, 0 ∉ a := by
  intro a ha
  unfold oldArgs at ha
  dsimp only at ha
  split at ha
  · rw [List.mem_singleton] at ha
    subst ha
    cases (fdtGetprop fdt offset strBootargs).1 with
    | none => exact List.not_mem_nil
    | some p => exact zero_not_mem_cstr _
  · exact absurd ha List.not_mem_nil

theorem zero_not_mem_readArgs (fdt : Fdt) : ∀ a ∈ readArgs fdt, 0 ∉ a := by
  unfold readArgs
  dsimp only
  split
  · simp
  · exact zero_not_mem_oldArgs fdt _

theorem readArgs_of_none (h : Repr fdt T) (hc : T.lookup strChosenPath = none) : readArgs fdt = [] := by
  have hoff := (h.pathOffset_abs (show 0 ∉ strChosenPath by decide) (by decide)).1 hc
  simp [readArgs, hoff, errNotFound]

theorem readArgs_of_lookup (h : Repr fdt T) (hc : T.lookup strChosenPath = some id)
    (ho : DeviceTree.offset T id = some o) : readArgs fdt = oldArgs fdt o := by
  have habs : strChosenPath.head? = some slash := by decide
  have hoff := h.pathOffset (show 0 ∉ strChosenPath by decide) (by rw [resolve, if_pos habs, hc]) ho
  have hpos : ¬((o : Int) < 0) := by omega
  rw [readArgs, hoff]
  exact if_neg hpos

theorem readArgs_eq (h : Repr fdt T) (hok : HasNul (propAt T strChosenPath strBootargs)) :
    readArgs fdt = argsOf (propAt T strChosenPath strBootargs) := by
  cases hc : T.lookup strChosenPath with
  | none =>
    rw [readArgs_of_none h hc, propAt, hc]
    rfl
  | some id =>
    obtain ⟨n, hn⟩ := get?_of_mem (walk_mem h.root_mem hc)
    obtain ⟨o, ho⟩ := DeviceTree.offset_isSome (mem_of_get? hn)
    have hprop : propAt T strChosenPath strBootargs = n.getprop strBootargs := by
      rw [propAt, hc, Option.bind_some, hn, Option.bind_some]
    rw [hprop] at hok ⊢
    rw [readArgs_of_lookup h hc ho, oldArgs_eq h hn ho hok]

/-- Another property does not change what is read of the arguments. -/
theorem readArgs_setprop (h : Repr fdt T) (hn : T.get? id = some n)
    (ho : DeviceTree.offset T id = some o) {name val : Bytes}
    (hok : (fdtSetprop fdt o name val).1 = 0)
    (h' : Repr (fdtSetprop fdt o name val).2 (T.modify id (DtNode.setprop name val)))
    (hne : T.lookup strChosenPath = some id → strBootargs ≠ name) :
    readArgs (fdtSetprop fdt o name val).2 = readArgs fdt := by
  have hlook := lookup_modify h.nodup (keepsName_setprop name val) (i := id) strChosenPath
  cases hc : T.lookup strChosenPath with
  | none => rw [readArgs_of_none h hc, readArgs_of_none h' (hlook.trans hc)]
  | some j =>
    obtain ⟨nj, hj⟩ := get?_of_mem (walk_mem h.root_mem hc)
    obtain ⟨oj, hoj⟩ := DeviceTree.offset_isSome (mem_of_get? hj)
    have hmem : j ∈ (T.modify id (DtNode.setprop name val)).ids := by
      rw [ids_modify]
      exact mem_of_get? hj
    obtain ⟨oj', hoj'⟩ := DeviceTree.offset_isSome hmem
    obtain ⟨nj', hj'⟩ := get?_of_mem hmem
    have hother : j = id → strBootargs ≠ name := fun he => hne (he ▸ hc)
    have hstr := h.setprop_string hn ho hok h' hj hoj hoj' hother
    have hlen : nj'.getprop strBootargs = nj.getprop strBootargs := by
      by_cases hji : j = id
      · subst hji
        rw [get?_modify_self, hj, Option.map_some] at hj'
        rw [← Option.some.inj hj', DtNode.getprop_setprop_of_ne (hother rfl)]
      · rw [get?_modify_of_ne hji h.nodup, hj] at hj'
        rw [Option.some.inj hj']
    rw [readArgs_of_lookup h hc hoj, readArgs_of_lookup h' (hlook.trans hc) hoj']
    simp only [oldArgs, h.getprop_len hj hoj, h'.getprop_len hj' hoj', hlen, hstr]

end

section

variable {w : World} {T₀ T : DeviceTree} {s : Bytes}

theorem runs_setBootargs (h : Repr w.fdt T) {id o : Nat} {n : DtNode}
    (hn : T.get? id = some n) (ho : DeviceTree.offset T id = some o) (hs : 0 ∉ s)
    (hroom : s.length + 25 ≤ w.fdt.free.length) {Q : Int → World → Prop}
    (hQ : ∀ w', Leaves w (s.length + 25) (T.modify id (DtNode.setprop strBootargs
        (joinArgs (oldArgs w.fdt o ++ [s]) ++ [0]))) w' → Q 0 w') :
    Runs (call (.path strChosenPath) (.getprop strBootargs) o >>= fun len =>
      (MonadState.get : Fixup World) >>= fun w =>
      setpropString (.path strChosenPath) o strBootargs (cstr (newBootargs len
        (((fdtGetprop w.fdt o strBootargs).1.map (cstrAt w.fdt)).getD []) s)) >>= fun ret =>
      if ret < 0 then pure ret else pure 0) w Q := by
  have hz : 0 ∉ strBootargs := by decide
  have hlen : strBootargs.length = 8 := by decide
  have hspace : strSpace.length = 1 := by decide
  have hzero : ¬((0 : Int) < 0) := by omega
  refine Runs.bind (runs_getprop h hn ho (Runs.bind (Runs.get ?_)))
  have hw : Repr (w.call (.path strChosenPath) (.getprop strBootargs) o).fdt T := h
  have hfree : (w.call (.path strChosenPath) (.getprop strBootargs) o).fdt.free.length =
    w.fdt.free.length := rfl
  have hval : cstr (newBootargs ((n.getprop strBootargs).elim errNotFound fun v => (v.length : Int))
      (((fdtGetprop w.fdt o strBootargs).1.map (cstrAt w.fdt)).getD []) s) =
      joinArgs (oldArgs w.fdt o ++ [s]) := by
    rw [← cstr_newBootargs_oldArgs w.fdt o hs, h.getprop_len hn ho]
    cases n.getprop strBootargs with
    | none => rfl
    | some v => rfl
  -- the room for it, by what was there
  have hset : setRoom n strBootargs (joinArgs (oldArgs w.fdt o ++ [s]) ++ [0]).length ≤ s.length + 25 := by
    have hone : (joinArgs ([] ++ [s]) ++ [0]).length = s.length + 1 := by simp [joinArgs]
    have halign : align4 (s.length + 1) ≤ s.length + 4 := by unfold align4; omega
    cases hp : n.getprop strBootargs with
    | none =>
      rw [oldArgs_of_empty h hn ho (by rw [hp]; rfl)]
      simp only [setRoom, hp, hone, propRoom]
      omega
    | some v =>
      by_cases hv : v = []
      · rw [oldArgs_of_empty h hn ho (by rw [hp]; exact hv)]
        simp only [setRoom, hp, hone]
        omega
      · obtain ⟨p, hold, hle, -⟩ := oldArgs_of_some h hn ho hp hv
        have hjoin : joinArgs ([cstrAt w.fdt p] ++ [s]) = cstrAt w.fdt p ++ (strSpace ++ s) := by
          rw [joinArgs_concat (List.cons_ne_nil _ _), joinArgs, List.intercalate_singleton]
        have hsum : (joinArgs ([cstrAt w.fdt p] ++ [s]) ++ [0]).length ≤ v.length + (s.length + 5) := by
          rw [hjoin]
          simp only [List.length_append, hspace, List.length_singleton]
          omega
        have hmono := align4_mono hsum
        have hadd := align4_add_le v.length (s.length + 5)
        have hfive : align4 (s.length + 5) ≤ s.length + 8 := by unfold align4; omega
        rw [hold]
        simp only [setRoom, hp]
        omega
  simp only [setpropString, World.call_fdt, Op.run, hval]
  refine Runs.bind (runs_setprop hw hn ho hz (by rw [hfree]; omega) fun hl => ?_)
  rw [if_neg hzero]
  refine Runs.pure (hQ _ ⟨hl.1, ?_⟩)
  have := hl.2
  rw [hfree] at this
  omega

theorem runs_appendBootargs (h : Repr w.fdt T) (hf : Frame T₀ T) (hs : 0 ∉ s)
    (hroom : argsRoom s ≤ w.fdt.free.length) :
    Runs (fdtFixupAppendBootargs s) w fun r w' => r = 0 ∧ ∃ T', Frame T₀ T' ∧
      T'.lookup strChosenPath ≠ none ∧
      propAt T' strChosenPath strBootargs = some (joinArgs (readArgs w.fdt ++ [s]) ++ [0]) ∧
      propAt T' strMemoryPath strReg = propAt T strMemoryPath strReg ∧
      initrdOf T' = { initrdOf T with chosen := true } ∧ Appended T T' ∧
      Leaves w (argsRoom s) T' w' := by
  have hz : 0 ∉ strChosenPath := by decide
  have hzc : 0 ∉ strChosen := by decide
  have habs : strChosenPath.head? = some slash := by decide
  have hneg : errNotFound < 0 := by simp [errNotFound]
  have hmem : strBootargs ∈ chosenProps := by decide
  have hne : strBootargs ≠ strInitrdStart ∧ strBootargs ≠ strInitrdEnd := by decide
  unfold argsRoom at hroom ⊢
  unfold fdtFixupAppendBootargs
  cases hc : T.lookup strChosenPath with
  | some id =>
    obtain ⟨n, hn⟩ := get?_of_mem (walk_mem hf.rooted.root_mem hc)
    obtain ⟨o, ho⟩ := DeviceTree.offset_isSome (mem_of_get? hn)
    have hpos : ¬((o : Int) < 0) := by omega
    rw [readArgs_of_lookup h hc ho]
    refine Runs.bind (runs_pathOffset h hz (by rw [resolve, if_pos habs, hc]) ho ?_)
    rw [if_neg hpos]
    refine Runs.bind (Runs.pure ?_)
    beta_reduce
    rw [if_neg hpos]
    have hw : Repr (w.call .root (.pathOffset strChosenPath) 0).fdt T := h
    have hfree : (w.call .root (.pathOffset strChosenPath) 0).fdt.free.length =
      w.fdt.free.length := rfl
    refine runs_setBootargs hw hn ho hs (by rw [hfree]; omega) fun w' hl => ?_
    refine ⟨rfl, _, hf.setprop (Or.inl ⟨hc, hmem⟩) _, ?_,
      propAt_setprop_self hf.nodup hf.rooted hc _ _,
      propAt_setprop_of_ne hf.nodup (fun hm => absurd hm (chosen_ne_memory hf.nodup hc)) _, ?_,
      .there _ hc, hl.1, ?_⟩
    · rw [lookup_modify hf.nodup (keepsName_setprop _ _), hc]
      simp
    · rw [initrdOf_setprop hf.nodup fun _ => hne, initrdOf, hc]
      rfl
    · have := hl.2
      rw [hfree] at this
      omega
  | none =>
    obtain ⟨new, hfresh⟩ := exists_fresh T
    obtain ⟨n₀, hn₀⟩ := get?_of_mem hf.rooted.root_mem
    have hcreate := hf.create hc hfresh
    have hnew := get?_addFirst_new (b := (⟨strChosen, []⟩ : DtNode)) hf.rooted.root_mem hfresh
    have hlook := lookup_chosen_addFirst hf.rooted new
    have hnode : nodeRoom strChosen = 16 := by decide
    have hchild : T.childOf T.root (DtNode.isNamed strChosen) = none :=
      (lookup_eq_childOf pathComponents_chosen).symm.trans hc
    rw [readArgs_of_none h hc]
    refine Runs.bind (runs_pathOffset_none h hz habs hc ?_)
    rw [if_pos hneg]
    have hw : Repr (w.call .root (.pathOffset strChosenPath) 0).fdt T := h
    have hfree : (w.call .root (.pathOffset strChosenPath) 0).fdt.free.length =
      w.fdt.free.length := rfl
    refine Runs.bind (runs_addSubnode hw hn₀ h.offset_root hzc hchild hfresh (by rw [hfree]; omega)
      fun ho hl => ?_)
    have hpos : ¬((0 + n₀.openSize : Nat) : Int) < 0 := by omega
    have hfree₁ := hl.2
    rw [hfree] at hfree₁
    beta_reduce
    rw [if_neg hpos]
    refine runs_setBootargs hl.1 hnew ho hs (by omega) fun w' hl' => ?_
    rw [oldArgs_of_empty hl.1 hnew ho rfl] at hl'
    refine ⟨rfl, _, hcreate.setprop (Or.inl ⟨hlook, hmem⟩) _, ?_,
      propAt_setprop_self hcreate.nodup hcreate.rooted hlook _ _, ?_, ?_, .made _ hc hfresh, hl'.1, ?_⟩
    · rw [lookup_modify hcreate.nodup (keepsName_setprop _ _), hlook]
      simp
    · rw [propAt_setprop_of_ne hcreate.nodup
          (fun hm => absurd hm (chosen_ne_memory hcreate.nodup hlook)) _,
        propAt_memory_addFirst hf.nodup hf.rooted hfresh]
    · rw [initrdOf_setprop hcreate.nodup fun _ => hne, initrdOf_addFirst hf.rooted hc hfresh]
    · have := hl'.2
      omega

end

end Babelfish
