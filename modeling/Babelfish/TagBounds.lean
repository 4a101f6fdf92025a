import Babelfish.Atags

/-! What the walk reads of a tag. The size of a tag only leads to the next one; the payload is read
whatever the size says, so that what a short tag lacks is taken from the tag behind it. -/

namespace Babelfish

open Libfdt Bytes Forest DeviceTree

def Sized (own : List UInt32) : Prop := 2 ≤ own.length ∧ (tagWord own 0).toNat = own.length

/-- Tags in memory, up to a header of size zero and whatever follows. -/
def inMemory (tags : List (List UInt32)) (rest : List UInt32) : List UInt32 :=
  tags.flatten ++ 0 :: rest

/-- What is read of a tag lies in it. -/
def Inside (own : List UInt32) : Prop :=
  if tagWord own 1 = atagCmdline then 0 ∈ tagBytes (own.drop 2)
  else if tagWord own 1 = atagMem then 4 ≤ own.length ∨ own.length = 3 ∧ tagWord own 2 = 0
  else if tagWord own 1 = atagInitrd2 then 4 ≤ own.length
  else True

/-- The round for a tag leaves the same blob and has made the same calls, whatever lies behind the
tag. -/
def Confined (tags : List (List UInt32)) : Prop :=
  ∀ before own after, tags = before ++ own :: after →
    ∀ rest others rest', (∀ t ∈ others, Sized t) → ∀ fdt T, Repr fdt T →
      (tagLoop (before.length + 1) (inMemory tags rest)).run ⟨fdt, []⟩ =
        (tagLoop (before.length + 1) (inMemory (before ++ own :: others) rest')).run ⟨fdt, []⟩

theorem tagWord_append {own : List UInt32} {i : Nat} (h : i < own.length) (ws : List UInt32) :
    tagWord (own ++ ws) i = tagWord own i := by
  rw [tagWord, List.getElem?_append_left h, ← tagWord]

theorem tagWord_length (own : List UInt32) (w : UInt32) (ws : List UInt32) :
    tagWord (own ++ w :: ws) own.length = w := by
  simp [tagWord]

theorem tagWord_length_succ (own : List UInt32) (w w' : UInt32) (ws : List UInt32) :
    tagWord (own ++ w :: w' :: ws) (own.length + 1) = w' := by
  simp [tagWord]

theorem tagBytes_append (ws us : List UInt32) : tagBytes (ws ++ us) = tagBytes ws ++ tagBytes us :=
  List.flatMap_append

theorem fixupTag_append {own : List UInt32} (hlen : 2 ≤ own.length) (h : Inside own)
    (ws : List UInt32) : fixupTag (own ++ ws) = fixupTag own := by
  unfold Inside at h
  unfold fixupTag
  rw [tagWord_append (by omega)]
  by_cases hcmd : tagWord own 1 = atagCmdline
  · rw [if_pos hcmd] at h
    rw [if_pos hcmd, if_pos hcmd, List.drop_append_of_le_length hlen, tagBytes_append,
      cstr_append_of_mem h]
  rw [if_neg hcmd] at h
  rw [if_neg hcmd, if_neg hcmd]
  by_cases hmem : tagWord own 1 = atagMem
  · rw [if_pos hmem] at h
    rw [if_pos hmem, if_pos hmem, tagWord_append (by omega)]
    obtain hfour | ⟨-, hzero⟩ := h
    · rw [tagWord_append (by omega)]
    · rw [if_pos hzero, if_pos hzero]
  rw [if_neg hmem] at h
  rw [if_neg hmem, if_neg hmem]
  by_cases hinitrd : tagWord own 1 = atagInitrd2
  · rw [if_pos hinitrd] at h
    rw [tagWord_append (by omega), tagWord_append (by omega)]
  · rw [if_neg hinitrd, if_neg hinitrd]

theorem tagLoop_succ {own : List UInt32} (h : Sized own) (fuel : Nat) (ws : List UInt32) :
    tagLoop (fuel + 1) (own ++ ws) = fixupTag (own ++ ws) >>= fun _ => tagLoop fuel ws := by
  obtain ⟨hlen, hsize⟩ := h
  have hword : tagWord (own ++ ws) 0 = tagWord own 0 := tagWord_append (by omega) ws
  have hne : ¬tagWord own 0 = 0 := fun e => by
    rw [e, UInt32.toNat_zero] at hsize
    omega
  rw [tagLoop, hword, if_neg hne, hsize, List.drop_left]

theorem tagLoop_flatten {tags : List (List UInt32)} (h : ∀ t ∈ tags, Sized t ∧ Inside t) (fuel : Nat)
    (ws : List UInt32) :
    tagLoop (tags.length + fuel) (tags.flatten ++ ws) =
      forM tags fixupTag >>= fun _ => tagLoop fuel ws := by
  induction tags with
  | nil => rw [List.length_nil, Nat.zero_add, List.flatten_nil, List.nil_append, List.forM_nil, pure_bind]
  | cons t ts ih =>
    obtain ⟨hsized, hinside⟩ := h t List.mem_cons_self
    have hfuel : (t :: ts).length + fuel = ts.length + fuel + 1 := by
      rw [List.length_cons]
      omega
    rw [hfuel, List.flatten_cons, List.append_assoc, tagLoop_succ hsized,
      fixupTag_append hsized.1 hinside, ih fun u hu => h u (List.mem_cons_of_mem _ hu),
      List.forM_cons, bind_assoc]

def Stands (o : Nat) (w : World) : Prop :=
  ∃ T id, Repr w.fdt T ∧ id ∈ T.ids ∧ DeviceTree.offset T id = some o ∧
    T.lookup strMemoryPath ≠ none ∧ T.lookup strChosenPath ≠ none

variable {w : World} {o : Nat}

theorem Stands.setprop (h : Stands o w) {name : Bytes} (hz : 0 ∉ name) (val : Bytes)
    (target : Target) : Stands o (w.call target (.setprop name val) o) := by
  obtain ⟨T, id, hrepr, hid, ho, hmemory, hchosen⟩ := h
  obtain ⟨n, hn⟩ := get?_of_mem hid
  obtain ⟨-, hrepr', -⟩ | ⟨-, hrepr', -⟩ := hrepr.setprop hn ho hz val
  · have hkeep := keepsName_setprop name val
    refine ⟨_, id, hrepr', ?_, ?_, ?_, ?_⟩
    · rw [ids_modify]
      exact hid
    · exact (DeviceTree.stays_modify hrepr.nodup hn ho _).2
    · rwa [lookup_modify hrepr.nodup hkeep]
    · rwa [lookup_modify hrepr.nodup hkeep]
  · exact ⟨T, id, hrepr', hid, ho, hmemory, hchosen⟩

theorem Stands.pathOffset (h : Stands o w) {path : Bytes}
    (hpath : path = strMemoryPath ∨ path = strChosenPath) :
    ∃ o' : Nat, fdtPathOffset w.fdt path = o' ∧ Stands o' w := by
  obtain ⟨T, -, hrepr, -, -, hmemory, hchosen⟩ := h
  have hz : 0 ∉ path := by
    obtain rfl | rfl := hpath
    · decide
    · decide
  have habs : path.head? = some slash := by
    obtain rfl | rfl := hpath
    · decide
    · decide
  have hne : T.lookup path ≠ none := by
    obtain rfl | rfl := hpath
    · exact hmemory
    · exact hchosen
  obtain ⟨id, hid⟩ := Option.ne_none_iff_exists'.mp hne
  have hmem := walk_mem hrepr.root_mem hid
  obtain ⟨o', ho'⟩ := DeviceTree.offset_isSome hmem
  exact ⟨o', (hrepr.pathOffset_abs hz habs).2 id hid o' ho', T, id, hrepr, hmem, ho', hmemory, hchosen⟩

def lastCall (w : World) : Option Op := w.calls.getLast?.map Call.op

theorem lastCall_call (w : World) (target : Target) (op : Op) (offset : Int) :
    lastCall (w.call target op offset) = some op := by
  simp [lastCall]

def lastUpdate (w : World) (ws : List UInt32) : Option Op :=
  if tagWord ws 1 = atagCmdline then
    let offset := fdtPathOffset w.fdt strChosenPath
    let (oldArgs, len) := fdtGetprop w.fdt offset strBootargs
    some (.setprop strBootargs (cstr (newBootargs len ((oldArgs.map (cstrAt w.fdt)).getD [])
      (cstr (tagBytes (ws.drop 2)))) ++ [0]))
  else if tagWord ws 1 = atagMem then
    if tagWord ws 2 = 0 then lastCall w
    else some (.setprop strReg (memReg (tagWord ws 3) (tagWord ws 2)))
  else if tagWord ws 1 = atagInitrd2 then
    some (.setprop strInitrdEnd (be32 (tagWord ws 2 + tagWord ws 3).toNat))
  else lastCall w

theorem runs_fixupTag_standing (h : Stands o w) (ws : List UInt32) :
    Runs (fixupTag ws) w fun _ w' => (∃ o', Stands o' w') ∧ lastCall w' = lastUpdate w ws := by
  unfold fixupTag lastUpdate
  by_cases hcmd : tagWord ws 1 = atagCmdline
  · rw [if_pos hcmd, if_pos hcmd]
    obtain ⟨o', ho', hs⟩ := h.pathOffset (Or.inr rfl)
    have hpos : ¬((o' : Int) < 0) := by omega
    unfold fdtFixupAppendBootargs setpropString
    rw [ho']
    refine Runs.bind (Runs.bind (runs_call ?_))
    simp only [Op.run, ho', if_neg hpos]
    refine Runs.bind (Runs.pure (Runs.bind (runs_call (Runs.bind (Runs.get (Runs.bind (runs_call ?_)))))))
    have hs' := Stands.setprop (w := (w.call .root (.pathOffset strChosenPath) 0).call
      (.path strChosenPath) (.getprop strBootargs) o') hs (by decide : 0 ∉ strBootargs)
    split
    · exact Runs.pure (Runs.pure ⟨⟨o', hs' _ _⟩, lastCall_call _ _ _ _⟩)
    · exact Runs.pure (Runs.pure ⟨⟨o', hs' _ _⟩, lastCall_call _ _ _ _⟩)
  rw [if_neg hcmd, if_neg hcmd]
  by_cases hmem : tagWord ws 1 = atagMem
  · rw [if_pos hmem, if_pos hmem]
    by_cases hsize : tagWord ws 2 = 0
    · rw [if_pos hsize, if_pos hsize]
      exact Runs.pure ⟨⟨o, h⟩, rfl⟩
    · rw [if_neg hsize, if_neg hsize]
      obtain ⟨o', ho', hs⟩ := h.pathOffset (Or.inl rfl)
      refine Runs.bind (runs_call ?_)
      simp only [Op.run, ho']
      refine Runs.bind (runs_call (Runs.pure ⟨⟨o', ?_⟩, lastCall_call _ _ _ _⟩))
      exact Stands.setprop (w := w.call .root (.pathOffset strMemoryPath) 0) hs (by decide) _ _
  rw [if_neg hmem, if_neg hmem]
  by_cases hinitrd : tagWord ws 1 = atagInitrd2
  · rw [if_pos hinitrd, if_pos hinitrd]
    obtain ⟨o', ho', hs⟩ := h.pathOffset (Or.inr rfl)
    unfold setpropU32
    refine Runs.bind (runs_call ?_)
    simp only [Op.run, ho']
    refine Runs.bind (runs_call (Runs.bind (runs_call (Runs.pure ⟨⟨o', ?_⟩, lastCall_call _ _ _ _⟩))))
    exact (Stands.setprop (w := w.call .root (.pathOffset strChosenPath) 0) hs (by decide) _ _).setprop
      (by decide) _ _
  · rw [if_neg hinitrd, if_neg hinitrd]
    exact Runs.pure ⟨⟨o, h⟩, rfl⟩

theorem runs_rounds_standing (tags : List (List UInt32)) (h : Stands o w) :
    Runs (forM tags fixupTag) w fun _ w' => ∃ o', Stands o' w' := by
  induction tags generalizing w o with
  | nil => exact Runs.pure ⟨o, h⟩
  | cons t ts ih =>
    rw [List.forM_cons]
    refine Runs.bind ((runs_fixupTag_standing h t).mono ?_)
    rintro - w' ⟨⟨o', h'⟩, -⟩
    exact ih h'

/-- A command line without an end is read on up to the high bytes of a small size. -/
theorem cstr_spilled {own : List UInt32} (hlen : 2 ≤ own.length) (h : 0 ∉ tagBytes (own.drop 2))
    {n : UInt32} {b : UInt8} (hn : le32 n.toNat = [b, 0, 0, 0]) (hb : b ≠ 0) (ws : List UInt32) :
    cstr (tagBytes ((own ++ n :: ws).drop 2)) = tagBytes (own.drop 2) ++ [b] := by
  have hz : 0 ∉ tagBytes (own.drop 2) ++ [b] := by simp [h, hb.symm]
  have hcons : tagBytes (n :: ws) = [b] ++ 0 :: (0 :: 0 :: tagBytes ws) := by
    rw [tagBytes, List.flatMap_cons, hn]
    rfl
  rw [List.drop_append_of_le_length hlen, tagBytes_append, hcons, ← List.append_assoc, cstr_append hz]

theorem lastUpdate_ne {own : List UInt32} (hlen : 2 ≤ own.length) (h : ¬Inside own) (w : World)
    (ws ws' : List UInt32) :
    lastUpdate w (own ++ 2 :: atagCore :: ws) ≠ lastUpdate w (own ++ 3 :: atagCore :: ws') := by
  have hkind : ∀ us, tagWord (own ++ us) 1 = tagWord own 1 := tagWord_append (by omega)
  have hnext : ∀ n us, tagWord (own ++ n :: us) own.length = n := tagWord_length own
  have hnext' : ∀ n n' us, tagWord (own ++ n :: n' :: us) (own.length + 1) = n' :=
    tagWord_length_succ own
  unfold Inside at h
  unfold lastUpdate
  rw [hkind, hkind]
  by_cases hcmd : tagWord own 1 = atagCmdline
  · rw [if_pos hcmd] at h
    rw [if_pos hcmd, if_pos hcmd, cstr_spilled hlen h (b := 2) rfl (by decide),
      cstr_spilled hlen h (b := 3) rfl (by decide)]
    have hz : ∀ b : UInt8, b ≠ 0 → cstr (tagBytes (own.drop 2) ++ [b]) = tagBytes (own.drop 2) ++ [b] :=
      fun b hb => cstr_eq_self (by simp [h, hb.symm])
    simp only [cstr_newBootargs, hz 2 (by decide), hz 3 (by decide)]
    split <;> simp
  rw [if_neg hcmd] at h
  rw [if_neg hcmd, if_neg hcmd]
  by_cases hmem : tagWord own 1 = atagMem
  · rw [if_pos hmem, not_or] at h
    rw [if_pos hmem, if_pos hmem]
    obtain hshort | hshort : own.length = 2 ∨ own.length = 3 := by omega
    · rw [hshort] at hnext hnext'
      rw [hnext, hnext, hnext', hnext', if_neg (by decide), if_neg (by decide)]
      decide
    · have hsize : ¬tagWord own 2 = 0 := fun e => h.2 ⟨hshort, e⟩
      have hword : ∀ us, tagWord (own ++ us) 2 = tagWord own 2 := tagWord_append (by omega)
      rw [hshort] at hnext
      rw [hword, hword, if_neg hsize, if_neg hsize, hnext, hnext]
      simp [memReg, be32]
  rw [if_neg hmem] at h
  rw [if_neg hmem, if_neg hmem]
  by_cases hinitrd : tagWord own 1 = atagInitrd2
  · rw [if_pos hinitrd] at h
    rw [if_pos hinitrd, if_pos hinitrd]
    obtain hshort | hshort : own.length = 2 ∨ own.length = 3 := by omega
    · rw [hshort] at hnext hnext'
      rw [hnext, hnext, hnext', hnext']
      decide
    · have hword : ∀ us, tagWord (own ++ us) 2 = tagWord own 2 := tagWord_append (by omega)
      rw [hshort] at hnext
      rw [hword, hword, hnext, hnext]
      intro he
      have hval := (Op.setprop.inj (Option.some.inj he)).2
      have hsum := be32_injective (UInt32.toNat_lt _) (UInt32.toNat_lt _) hval
      exact absurd ((UInt32.add_right_inj _).mp (UInt32.toNat_inj.mp hsum)) (by decide)
  · exact absurd trivial (by rwa [if_neg hinitrd] at h)

def bootTree : DeviceTree :=
  .node 0 ⟨[], []⟩ (.node 1 ⟨strMemory, []⟩ .nil (.node 2 ⟨strChosen, []⟩ .nil .nil)) .nil

theorem bootTree_repr : Repr (bootTree.blob 0) bootTree :=
  DeviceTree.repr_blob (by decide) (by decide) ⟨0, _, _, rfl⟩ (by decide)

theorem bootTree_stands : Stands 0 ⟨bootTree.blob 0, []⟩ :=
  ⟨bootTree, 0, bootTree_repr, by decide, by decide, by decide, by decide⟩

theorem inMemory_split (before after : List (List UInt32)) (own rest : List UInt32) :
    inMemory (before ++ own :: after) rest = before.flatten ++ (own ++ inMemory after rest) := by
  simp [inMemory]

theorem tagLoop_upTo {before : List (List UInt32)} (h : ∀ t ∈ before, Sized t ∧ Inside t)
    {own : List UInt32} (hown : Sized own) (after : List (List UInt32)) (rest : List UInt32) :
    tagLoop (before.length + 1) (inMemory (before ++ own :: after) rest) =
      forM before fixupTag >>= fun _ => fixupTag (own ++ inMemory after rest) := by
  have hone : ∀ ws, tagLoop 0 ws = pure () := fun ws => rfl
  rw [inMemory_split, tagLoop_flatten h, tagLoop_succ hown]
  simp only [hone, bind_pure_unit]

/-- A tag that does not hold all that is read of it shows what lies behind it. -/
theorem not_confined {before : List (List UInt32)} (h : ∀ t ∈ before, Sized t ∧ Inside t)
    {own : List UInt32} (hown : Sized own) (hout : ¬Inside own) (after : List (List UInt32)) :
    ¬Confined (before ++ own :: after) := by
  intro hconf
  have htwo := hconf before own after rfl [] [[2, atagCore]] [] (by simp [Sized, tagWord]) _ _
    bootTree_repr
  have hthree := hconf before own after rfl [] [[3, atagCore, 0]] [] (by simp [Sized, tagWord]) _ _
    bootTree_repr
  have heq := htwo.symm.trans hthree
  obtain ⟨_, w₁, hrounds, _, hstands⟩ := runs_rounds_standing before bootTree_stands
  rw [tagLoop_upTo h hown, tagLoop_upTo h hown, StateT.run_bind, StateT.run_bind, hrounds] at heq
  obtain ⟨_, w₂, hrun₂, -, hlast₂⟩ :=
    runs_fixupTag_standing hstands (own ++ inMemory [[2, atagCore]] [])
  obtain ⟨_, w₃, hrun₃, -, hlast₃⟩ :=
    runs_fixupTag_standing hstands (own ++ inMemory [[3, atagCore, 0]] [])
  obtain rfl : w₂ = w₃ := (Prod.mk.inj (Except.ok.inj (hrun₂.symm.trans (heq.trans hrun₃)))).2
  exact lastUpdate_ne hown.1 hout w₁ _ _ (hlast₂.symm.trans hlast₃)

variable {tags : List (List UInt32)}

theorem fdtFixupFromAtags_inMemory (hs : ∀ t ∈ tags, Sized t) (rest : List UInt32) :
    fdtFixupFromAtags (inMemory tags rest) =
      tagLoop tags.length (inMemory tags rest) >>= fun _ => pure 0 := by
  have hend : ∀ fuel, tagLoop fuel (0 :: rest) = pure () := fun fuel => by
    cases fuel <;> rfl
  have hfuel : ∀ (ts : List (List UInt32)) fuel, (∀ t ∈ ts, Sized t) → ts.length ≤ fuel →
      tagLoop fuel (inMemory ts rest) = tagLoop ts.length (inMemory ts rest) := by
    intro ts
    induction ts with
    | nil => exact fun fuel _ _ => (hend fuel).trans (hend 0).symm
    | cons t ts ih =>
      intro fuel hts hle
      obtain ⟨fuel, rfl⟩ : ∃ f, fuel = f + 1 := Nat.exists_eq_add_of_le' (Nat.le_trans (by simp) hle)
      have ht := hts t List.mem_cons_self
      have hcons : inMemory (t :: ts) rest = t ++ inMemory ts rest := inMemory_split [] ts t rest
      rw [hcons, List.length_cons, tagLoop_succ ht, tagLoop_succ ht,
        ih fuel (fun u hu => hts u (List.mem_cons_of_mem _ hu)) (by simpa using hle)]
  have hlen : ∀ ts : List (List UInt32), (∀ t ∈ ts, Sized t) → ts.length ≤ ts.flatten.length := by
    intro ts hts
    induction ts with
    | nil => exact Nat.le_refl _
    | cons t ts ih =>
      have ht := (hts t List.mem_cons_self).1
      have := ih fun u hu => hts u (List.mem_cons_of_mem _ hu)
      rw [List.length_cons, List.flatten_cons, List.length_append]
      omega
  have hle : tags.length ≤ (inMemory tags rest).length :=
    (hlen tags hs).trans (by simp [inMemory])
  rw [fdtFixupFromAtags, hfuel tags _ hs hle]

/-- Tags do not run into each other just if each holds all that is read of it. -/
theorem fdtFixupFromAtags_confined_iff (hs : ∀ t ∈ tags, Sized t) :
    Confined tags ↔ ∀ own ∈ tags, Inside own := by
  constructor
  · intro hconf
    -- by the number of tags in front, so that these hold what is read of them
    have hfirst : ∀ n before own after, before.length = n → tags = before ++ own :: after →
        Inside own := by
      intro n
      induction n using Nat.strong_induction_on with
      | _ n ih =>
      rintro before own after rfl he
      have hown : Sized own := hs own (by rw [he]; simp)
      have hbefore : ∀ t ∈ before, Sized t ∧ Inside t := by
        intro t ht
        obtain ⟨l, r, rfl⟩ := List.append_of_mem ht
        refine ⟨hs t (by rw [he]; simp), ih l.length ?_ l t (r ++ own :: after) rfl ?_⟩
        · simp only [List.length_append, List.length_cons]
          omega
        · rw [he, List.append_assoc, List.cons_append]
      by_contra hout
      exact not_confined hbefore hown hout after (he ▸ hconf)
    intro own hmem
    obtain ⟨before, after, he⟩ := List.append_of_mem hmem
    exact hfirst _ before own after rfl he
  · rintro hinside before own after rfl rest others rest' - fdt T -
    have hbefore : ∀ t ∈ before, Sized t ∧ Inside t := fun t ht =>
      ⟨hs t (by simp [ht]), hinside t (by simp [ht])⟩
    have hown : Sized own := hs own (by simp)
    rw [tagLoop_upTo hbefore hown, tagLoop_upTo hbefore hown,
      fixupTag_append hown.1 (hinside own (by simp)), fixupTag_append hown.1 (hinside own (by simp))]

def wholeTags : List (List UInt32) :=
  [[2, atagCore], [4, atagMem, 2, 1], [4, atagCmdline, 0x65697571, 0x74]]

theorem fdtFixupFromAtags_confined_iff_whole : Confined wholeTags ↔ ∀ own ∈ wholeTags, Inside own :=
  fdtFixupFromAtags_confined_iff (by simp [wholeTags, Sized, tagWord])

/-- A header of its own is all that the second tag has; what follows it is taken for a bank. -/
def shortTags : List (List UInt32) := [[2, atagCore], [2, atagMem]]

theorem shortTags_not_confined : (∀ t ∈ shortTags, Sized t) ∧ ¬Confined shortTags ∧
    Runs (fdtFixupFromAtags (inMemory (shortTags ++ [[2, atagCore]]) [])) ⟨bootTree.blob 64, []⟩ fun _ w =>
      Runs (fdtFixupFromAtags (inMemory (shortTags ++ [[3, atagCore, 0]]) [])) ⟨bootTree.blob 64, []⟩
        fun _ w' => w.fdt.dtStruct ≠ w'.fdt.dtStruct := by
  have hcore : Sized [2, atagCore] ∧ Inside [2, atagCore] := by
    unfold Sized Inside
    decide
  have hmem : Sized [2, atagMem] ∧ ¬Inside [2, atagMem] := by
    unfold Sized Inside
    decide
  have hbefore : ∀ t ∈ [[2, atagCore]], Sized t ∧ Inside t := by
    rintro t ht
    obtain rfl := List.mem_singleton.mp ht
    exact hcore
  refine ⟨?_, not_confined hbefore hmem.1 hmem.2 [], by decide +kernel⟩
  rintro t ht
  obtain rfl | rfl : t = [2, atagCore] ∨ t = [2, atagMem] := by simpa [shortTags] using ht
  · exact hcore.1
  · exact hmem.1

end Babelfish
