import Babelfish.Libfex.Rings

/-! The deletions take the deleted objects out of their rings, and their loops end. -/

namespace Babelfish.Libfex

open Bytes

variable {m m' m'' : Mem} {live live' : List Obj} {o p q : Obj} {h x s : Addr} {fuel : Nat}

/-- Of the memory only links in hooks of live objects differ. -/
structure Within (live : List Obj) (m m' : Mem) : Prop where
  name : m'.name = m.name
  value : m'.value = m.value
  prev : ∀ x, (∀ o ∈ live, x ∉ o.hooks) → m'.links.prev x = m.links.prev x
  next : ∀ x, (∀ o ∈ live, x ∉ o.hooks) → m'.links.next x = m.links.next x

theorem Within.refl (live : List Obj) (m : Mem) : Within live m m :=
  ⟨rfl, rfl, fun _ _ => rfl, fun _ _ => rfl⟩

theorem Within.trans (h₁ : Within live m m') (h₂ : Within live m' m'') : Within live m m'' where
  name := h₂.name.trans h₁.name
  value := h₂.value.trans h₁.value
  prev x hx := (h₂.prev x hx).trans (h₁.prev x hx)
  next x hx := (h₂.next x hx).trans (h₁.next x hx)

theorem Within.mono (hw : Within live' m m') (hsub : live' ⊆ live) : Within live m m' where
  name := hw.name
  value := hw.value
  prev x hx := hw.prev x fun o ho => hx o (hsub ho)
  next x hx := hw.next x fun o ho => hx o (hsub ho)

theorem Within.stored (hw : Within live m m') (ho : o.Stored m) : o.Stored m' := by
  obtain ⟨a, _ | _ | _⟩ := o
  · trivial
  · exact (congrFun hw.name a).trans ho
  · exact ⟨(congrFun hw.name a).trans ho.1, (congrFun hw.value a).trans ho.2⟩

theorem Within.ring {es : List Addr} (hw : Within live m m') (hr : m.links.Ring h es)
    (hx : ∀ x ∈ h :: es, ∀ o ∈ live, x ∉ o.hooks) : m'.links.Ring h es :=
  hr.frame (fun x hm => hw.next x (hx x hm)) fun x hm => hw.prev x (hx x hm)

theorem Separate.entry_of_within (hs : Separate live) (hsec : IsSection live s) (ho : o ∈ live)
    (how : o.within = some (s + offsetSectionEntries)) :
    ∃ name value, o.kind = .scriptEntry s name value := by
  obtain ⟨script, name, hsec⟩ := hsec
  have hown := hs.owned o ho
  obtain ⟨a, _ | ⟨script', name'⟩ | ⟨s', name', value⟩⟩ := o
  · cases how
  · have hhead : (⟨script', .script⟩ : Obj).head? = some (s + offsetSectionEntries) := how
    cases hs.head_inj hown hsec hhead rfl
  · rw [(UInt32.add_left_inj _).mp (Option.some.inj how)]
    exact ⟨name', value, rfl⟩

theorem Separate.section_of_within {script : Addr} (hs : Separate live) (hp : IsScript live script)
    (ho : o ∈ live) (how : o.within = some script) : ∃ name, o.kind = .scriptSection script name := by
  have hown := hs.owned o ho
  obtain ⟨a, _ | ⟨script', name'⟩ | ⟨s', name', value⟩⟩ := o
  · cases how
  · rw [Option.some.inj how]
    exact ⟨name', rfl⟩
  · obtain ⟨script', name, hsec⟩ := hown
    have hhead : (⟨s', .scriptSection script' name⟩ : Obj).head? = some script := how
    cases hs.head_inj hsec hp hhead rfl

theorem eq_entry {name : Bytes} {value : ScriptValue} (hk : o.kind = .scriptEntry s name value) :
    o = ⟨o.addr, .scriptEntry s name value⟩ := by rw [← hk]

theorem eq_section {script : Addr} {name : Bytes} (hk : o.kind = .scriptSection script name) :
    o = ⟨o.addr, .scriptSection script name⟩ := by rw [← hk]

theorem filter_addr {A B : List Obj} (hs : Separate (A ++ o :: B)) :
    (A ++ o :: B).filter (fun q => q.addr ≠ o.addr) = A ++ B := by
  have hne : ∀ q ∈ A ++ B, q.addr ≠ o.addr := fun q hq he => by
    have hq' : q ∈ A ++ o :: B := by
      rw [List.mem_append, List.mem_cons]
      exact (List.mem_append.mp hq).imp_right Or.inr
    cases hs.eq_of_addr hq' (by simp) he
    have hself := hs.apart
    rw [List.pairwise_append, List.pairwise_cons] at hself
    have hap : Apart o o := by
      obtain hq | hq := List.mem_append.mp hq
      · exact hself.2.2 o hq o List.mem_cons_self
      · exact hself.2.1.1 o hq
    have hpos := o.size_pos
    unfold Apart at hap
    omega
  rw [List.filter_append, List.filter_cons_of_neg (by simp), ← List.filter_append,
    List.filter_eq_self]
  exact fun q hq => decide_eq_true (hne q hq)

theorem Refines.ring_split {A B : List Obj} (hr : Refines m (A ++ o :: B)) (how : o.within = some h) :
    m.links.Ring h (elems A h ++ o.hook :: elems B h) := by
  have ho : o ∈ A ++ o :: B := by simp
  obtain ⟨p, hp, hph⟩ := (hr.separate.owned o ho).owner how
  have hring := hr.rings p hp h hph
  rw [elems_append, elems_cons, if_pos how] at hring
  exact hring

theorem Refines.unlink (hr : Refines m live) (ho : o ∈ live) (how : o.within = some h) (hq : q ∈ live)
    {k : Addr} (hqk : q.head? = some k) :
    (unlink o.hook m).links.Ring k (elems (live.filter fun q => q.addr ≠ o.addr) k) := by
  obtain ⟨A, B, rfl⟩ := List.append_of_mem ho
  have hsplit := hr.ring_split how
  rw [filter_addr hr.separate, Libfex.unlink, if_neg hsplit.prev_ne, elems_append]
  by_cases hk : h = k
  · subst hk
    exact hsplit.remove
  · obtain ⟨p, hp, hph⟩ := (hr.separate.owned o ho).owner how
    have hring := hr.rings p hp h hph
    have hring' := hr.rings q hq k hqk
    have hmem : o.hook ∈ h :: elems (A ++ o :: B) h :=
      List.mem_cons_of_mem h (mem_elems.mpr ⟨o, ho, how, rfl⟩)
    have hframe := hring'.link_frame
      (fun hm => hk (hr.separate.head_unique hp hq hph hqk (hring.prev_mem hmem) hm))
      (fun hm => hk (hr.separate.head_unique hp hq hph hqk (hring.next_mem hmem) hm))
    rw [elems_append, elems_cons, if_neg (fun hw => hk (Option.some.inj (how.symm.trans hw))),
      List.nil_append] at hframe
    exact hframe

theorem Refines.within_unlink (hr : Refines m live) (ho : o ∈ live) (how : o.within = some h) :
    Within live m (Libfex.unlink o.hook m) := by
  obtain ⟨p, hp, hph⟩ := (hr.separate.owned o ho).owner how
  have hring := hr.rings p hp h hph
  have hmem : o.hook ∈ h :: elems live h :=
    List.mem_cons_of_mem h (mem_elems.mpr ⟨o, ho, how, rfl⟩)
  unfold Libfex.unlink
  split
  · apply Within.refl
  · have hne : ∀ x y, (∀ q ∈ live, x ∉ q.hooks) → y ∈ h :: elems live h → x ≠ y := fun x y hx hy he => by
      obtain ⟨q, hq, hyq⟩ := hook_of_mem_ring hp hph hy
      exact hx q hq (he ▸ hyq)
    exact ⟨rfl, rfl, fun x hx => Function.update_of_ne (hne x _ hx (hring.next_mem hmem)) _ _,
      fun x hx => Function.update_of_ne (hne x _ hx (hring.prev_mem hmem)) _ _⟩

theorem Refines.entryDelete {e : Addr} (hr : Refines m live) (he : IsEntry live e) :
    Refines (scriptEntryDelete e m) (live.filter fun o => o.addr ≠ e) ∧
      Within live m (scriptEntryDelete e m) := by
  obtain ⟨s, name, value, he⟩ := he
  have hwithin := hr.within_unlink he rfl
  refine ⟨⟨hr.separate.filter _ fun o ho _ => ?_, fun q hq k hqk => ?_, fun q hq => ?_⟩, hwithin⟩
  · have hown := hr.separate.owned o ho
    have hkeep : ∀ q ∈ live, q.head? ≠ none → q ∈ live.filter fun o => o.addr ≠ e := fun q hq hne => by
      refine List.mem_filter.mpr ⟨hq, decide_eq_true fun hqe => hne ?_⟩
      rw [hr.separate.eq_of_addr hq he hqe]
      rfl
    obtain ⟨a, _ | _ | _⟩ := o
    · trivial
    · exact hkeep _ hown nofun
    · obtain ⟨script, name, hown⟩ := hown
      exact ⟨script, name, hkeep _ hown nofun⟩
  · exact hr.unlink he rfl (List.mem_of_mem_filter hq) hqk
  · exact hwithin.stored (hr.stored q (List.mem_of_mem_filter hq))

theorem getLast?_elems (hr : Refines m live) (hp : p ∈ live) (hph : p.head? = some h) :
    (m.links.last h = none ∧ elems live h = []) ∨
      ∃ o ∈ live, o.within = some h ∧ m.links.last h = some o.hook := by
  rw [(hr.rings p hp h hph).last_eq]
  cases hl : (elems live h).getLast? with
  | none => exact Or.inl ⟨rfl, List.getLast?_eq_none_iff.mp hl⟩
  | some x =>
    obtain ⟨o, ho, how, rfl⟩ := mem_elems.mp (List.mem_of_getLast? hl)
    exact Or.inr ⟨o, ho, how, rfl⟩

theorem filter_within_of_elems_nil (hnil : elems live h = []) :
    live.filter (fun o => o.within ≠ some h) = live := by
  rw [List.filter_eq_self]
  intro o ho
  refine decide_eq_true fun how => ?_
  have hmem := mem_elems.mpr ⟨o, ho, how, rfl⟩
  rw [hnil] at hmem
  cases hmem

theorem length_elems_filter (ho : o ∈ live) (how : o.within = some h) :
    (elems (live.filter fun q => q.addr ≠ o.addr) h).length < (elems live h).length := by
  unfold elems
  rw [List.length_map, List.length_map, List.filter_comm]
  refine List.length_filter_lt_length_iff_exists.mpr ⟨o, ?_, by simp⟩
  exact List.mem_filter.mpr ⟨ho, decide_eq_true how⟩

theorem Refines.deleteEntries (hr : Refines m live) (hsec : IsSection live s)
    (hf : (elems live (s + offsetSectionEntries)).length ≤ fuel) :
    ∃ m', deleteEntries s fuel m = some m' ∧
      Refines m' (live.filter fun o => o.within ≠ some (s + offsetSectionEntries)) ∧
      Within live m m' := by
  induction fuel generalizing m live with
  | zero =>
    obtain ⟨script, name, hp⟩ := hsec
    have hnil := List.length_eq_zero_iff.mp (Nat.le_zero.mp hf)
    obtain ⟨hl, -⟩ | ⟨o, ho, how, -⟩ := getLast?_elems hr hp rfl
    · refine ⟨m, by rw [Libfex.deleteEntries.eq_def, hl], ?_, Within.refl _ _⟩
      rwa [filter_within_of_elems_nil hnil]
    · have hmem := mem_elems.mpr ⟨o, ho, how, rfl⟩
      rw [hnil] at hmem
      cases hmem
  | succ fuel ih =>
    obtain ⟨script, name, hp⟩ := hsec
    obtain ⟨hl, hnil⟩ | ⟨e, he, hew, hl⟩ := getLast?_elems hr hp rfl
    · refine ⟨m, by rw [Libfex.deleteEntries.eq_def, hl], ?_, Within.refl _ _⟩
      rwa [filter_within_of_elems_nil hnil]
    · obtain ⟨ename, value, hk⟩ := hr.separate.entry_of_within ⟨script, name, hp⟩ he hew
      have hobj := eq_entry hk
      have haddr : e.hook - offsetEntries = e.addr := by
        rw [hobj]
        exact UInt32.add_sub_cancel _ _
      obtain ⟨hr', hw'⟩ := hr.entryDelete ⟨s, ename, value, hobj ▸ he⟩
      have hsec' : IsSection (live.filter fun o => o.addr ≠ e.addr) s := by
        refine ⟨script, name, List.mem_filter.mpr ⟨hp, decide_eq_true fun hse => ?_⟩⟩
        rw [← hr.separate.eq_of_addr hp he hse] at hk
        cases hk
      have hlen := Nat.le_of_lt_succ (Nat.lt_of_lt_of_le (length_elems_filter he hew) hf)
      obtain ⟨m', hrun, hr'', hw''⟩ := ih hr' hsec' hlen
      refine ⟨m', ?_, ?_, hw'.trans (hw''.mono (List.filter_subset_self _))⟩
      · rw [Libfex.deleteEntries.eq_def, hl]
        simp only [haddr]
        exact hrun
      · rw [List.filter_filter] at hr''
        have hsame : (live.filter fun o => o.within ≠ some (s + offsetSectionEntries)) =
            live.filter fun o => decide (o.within ≠ some (s + offsetSectionEntries)) &&
              decide (o.addr ≠ e.addr) := by
          refine List.filter_congr fun o ho => ?_
          by_cases hoe : o.addr = e.addr
          · rw [hr.separate.eq_of_addr ho he hoe]
            simp [hew]
          · simp [hoe]
        rwa [hsame]

theorem length_elems_le (live : List Obj) (h : Addr) : (elems live h).length ≤ live.length := by
  rw [elems, List.length_map]
  apply List.length_filter_le

theorem Separate.script_ne {script : Addr} (hs : Separate live) (hp : IsScript live script)
    (hsec : IsSection live s) : script ≠ s + offsetSectionEntries := by
  obtain ⟨script', name, hsec⟩ := hsec
  intro he
  have hhead : (⟨script, .script⟩ : Obj).head? = some (s + offsetSectionEntries) := congrArg some he
  cases hs.head_inj hp hsec hhead rfl

theorem Separate.deleteSection (hs : Separate live) (hsec : IsSection live s) :
    Separate (live.filter fun o => o.addr ≠ s ∧ o.within ≠ some (s + offsetSectionEntries)) := by
  refine hs.filter _ fun o ho hkeep => ?_
  have hown := hs.owned o ho
  obtain ⟨script, name, hp⟩ := hsec
  obtain ⟨a, _ | _ | ⟨s', sname, value⟩⟩ := o
  · trivial
  · refine List.mem_filter.mpr ⟨hown, decide_eq_true ⟨fun he => ?_, nofun⟩⟩
    cases hs.eq_of_addr hown hp he
  · obtain ⟨script', name', hown⟩ := hown
    refine ⟨script', name', List.mem_filter.mpr ⟨hown, decide_eq_true ⟨fun he => ?_, fun hw => ?_⟩⟩⟩
    · refine (of_decide_eq_true hkeep).2 ?_
      rw [← show s' = s from he]
      rfl
    · exact hs.script_ne (hs.owned _ hown) ⟨script, name, hp⟩ (Option.some.inj hw)

theorem Refines.sectionDelete (hr : Refines m live) (hsec : IsSection live s)
    (hf : live.length ≤ fuel) :
    ∃ m', scriptSectionDelete s fuel m = some m' ∧
      Refines m' (live.filter fun o =>
        o.addr ≠ s ∧ o.within ≠ some (s + offsetSectionEntries)) ∧
      Within live m m' ∧ m'.links.Ring (s + offsetSectionEntries) [] := by
  have hsep := hr.separate.deleteSection hsec
  obtain ⟨m₁, hrun, hr₁, hw₁⟩ := hr.deleteEntries hsec (Nat.le_trans (length_elems_le _ _) hf)
  obtain ⟨script, name, hp⟩ := hsec
  have hp₁ : (⟨s, .scriptSection script name⟩ : Obj) ∈
      live.filter fun o => o.within ≠ some (s + offsetSectionEntries) := by
    refine List.mem_filter.mpr ⟨hp, decide_eq_true fun hw => ?_⟩
    exact hr.separate.script_ne (hr.separate.owned _ hp) ⟨script, name, hp⟩ (Option.some.inj hw)
  have hw₂ : Within _ m₁ (Libfex.unlink (s + offsetSections) m₁) := hr₁.within_unlink hp₁ rfl
  have hlive : (live.filter fun o => o.within ≠ some (s + offsetSectionEntries)).filter
      (fun o => o.addr ≠ s) =
      live.filter fun o => o.addr ≠ s ∧ o.within ≠ some (s + offsetSectionEntries) := by
    simp only [List.filter_filter, Bool.decide_and]
  have hrings : ∀ q ∈ live.filter (fun o => o.within ≠ some (s + offsetSectionEntries)), ∀ k,
      q.head? = some k → (Libfex.unlink (s + offsetSections) m₁).links.Ring k
        (elems (live.filter fun o => o.addr ≠ s ∧ o.within ≠ some (s + offsetSectionEntries)) k) :=
    fun q hq k hqk => by
      have hring := hr₁.unlink hp₁ rfl hq hqk
      rw [hlive] at hring
      exact hring
  refine ⟨_, by rw [scriptSectionDelete, hrun]; rfl, ⟨hsep, fun q hq k hqk => ?_, fun q hq => ?_⟩,
    hw₁.trans (hw₂.mono (List.filter_subset_self _)), ?_⟩
  · rw [← hlive] at hq
    exact hrings q (List.mem_of_mem_filter hq) k hqk
  · rw [← hlive] at hq
    exact hw₂.stored (hr₁.stored q (List.mem_of_mem_filter hq))
  · have hnil : elems (live.filter fun o => o.addr ≠ s ∧ o.within ≠ some (s + offsetSectionEntries))
        (s + offsetSectionEntries) = [] := by
      rw [List.eq_nil_iff_forall_not_mem]
      intro x hx
      obtain ⟨o, ho, how, -⟩ := mem_elems.mp hx
      exact (of_decide_eq_true (List.mem_filter.mp ho).2).2 how
    have hring := hrings _ hp₁ _ rfl
    rw [show (⟨s, .scriptSection script name⟩ : Obj).addr = s from rfl, hnil] at hring
    exact hring

theorem mem_under {script : Addr} : under live script o = true ↔ o.within = some script ∨
    ∃ s ∈ live, s.within = some script ∧ o.within = s.head? := by
  simp [under]

theorem under_filter {script : Addr} (hs : Separate live) (hp : IsScript live script)
    {name : Bytes} (hsec : ⟨s, .scriptSection script name⟩ ∈ live) (ho : o ∈ live) :
    under live script o = true ↔ o.addr = s ∨ o.within = some (s + offsetSectionEntries) ∨
      under (live.filter fun o => o.addr ≠ s ∧ o.within ≠ some (s + offsetSectionEntries)) script o =
        true := by
  have hsec' : IsSection live s := ⟨script, _, hsec⟩
  simp only [mem_under, List.mem_filter, decide_eq_true_eq]
  constructor
  · rintro (how | ⟨t, ht, htw, hto⟩)
    · exact Or.inr (Or.inr (Or.inl how))
    · by_cases hts : t.addr = s
      · rw [hs.eq_of_addr ht hsec hts] at hto
        exact Or.inr (Or.inl hto)
      · refine Or.inr (Or.inr (Or.inr ⟨t, ⟨ht, hts, fun hw => ?_⟩, htw, hto⟩))
        rw [htw] at hw
        exact hs.script_ne hp hsec' (Option.some.inj hw)
  · rintro (ha | how | how | ⟨t, ht, htw, hto⟩)
    · rw [hs.eq_of_addr ho hsec ha]
      exact Or.inl rfl
    · exact Or.inr ⟨_, hsec, rfl, how⟩
    · exact Or.inl how
    · exact Or.inr ⟨t, ht.1, htw, hto⟩

theorem filter_under_of_elems_nil {script : Addr} (hnil : elems live script = []) :
    live.filter (fun o => ¬under live script o) = live := by
  have hno : ∀ o ∈ live, o.within ≠ some script := fun o ho how => by
    have hmem := mem_elems.mpr ⟨o, ho, how, rfl⟩
    rw [hnil] at hmem
    cases hmem
  rw [List.filter_eq_self]
  intro o ho
  refine decide_eq_true fun hu => ?_
  obtain how | ⟨s, hs, hsw, -⟩ := mem_under.mp hu
  · exact hno o ho how
  · exact hno s hs hsw

theorem Refines.deleteSections {script : Addr} {rounds : Nat} (hr : Refines m live)
    (hp : IsScript live script) (hrounds : live.length ≤ rounds)
    (hf : (elems live script).length ≤ fuel) :
    ∃ m', deleteSections script rounds fuel m = some m' ∧
      Refines m' (live.filter fun o => ¬under live script o) ∧ Within live m m' ∧
      ∀ s ∈ live, s.within = some script → ∀ h, s.head? = some h → m'.links.Ring h [] := by
  have hscript : (⟨script, .script⟩ : Obj).head? = some script := rfl
  induction fuel generalizing m live with
  | zero =>
    have hnil := List.length_eq_zero_iff.mp (Nat.le_zero.mp hf)
    have hno : ∀ o ∈ live, o.within ≠ some script := fun o ho how => by
      have hmem := mem_elems.mpr ⟨o, ho, how, rfl⟩
      rw [hnil] at hmem
      cases hmem
    obtain ⟨hl, -⟩ | ⟨o, ho, how, -⟩ := getLast?_elems hr hp hscript
    · refine ⟨m, by rw [Libfex.deleteSections.eq_def, hl], ?_, Within.refl _ _,
        fun s hs hsw => absurd hsw (hno s hs)⟩
      rwa [filter_under_of_elems_nil hnil]
    · exact absurd how (hno o ho)
  | succ fuel ih =>
    obtain ⟨hl, hnil⟩ | ⟨q, hq, hqw, hl⟩ := getLast?_elems hr hp hscript
    · refine ⟨m, by rw [Libfex.deleteSections.eq_def, hl], ?_, Within.refl _ _, fun s hs hsw => ?_⟩
      · rwa [filter_under_of_elems_nil hnil]
      · have hmem := mem_elems.mpr ⟨s, hs, hsw, rfl⟩
        rw [hnil] at hmem
        cases hmem
    · obtain ⟨name, hk⟩ := hr.separate.section_of_within hp hq hqw
      have hobj := eq_section hk
      generalize hqa : q.addr = a at hobj
      subst hobj
      have haddr : (⟨a, .scriptSection script name⟩ : Obj).hook - offsetSections = a :=
        UInt32.add_sub_cancel _ _
      have hsec : IsSection live a := ⟨script, name, hq⟩
      obtain ⟨m₁, hrun₁, hr₁, hw₁, hring₁⟩ := hr.sectionDelete hsec hrounds
      have hp₁ : IsScript (live.filter fun o =>
          o.addr ≠ a ∧ o.within ≠ some (a + offsetSectionEntries)) script := by
        refine List.mem_filter.mpr ⟨hp, decide_eq_true ⟨fun he => ?_, nofun⟩⟩
        cases hr.separate.eq_of_addr hp hq he
      have hlen₁ : (elems (live.filter fun o =>
          o.addr ≠ a ∧ o.within ≠ some (a + offsetSectionEntries)) script).length ≤ fuel := by
        have hlt := length_elems_filter hq hqw
        have hle := List.length_filter_le (fun o : Obj =>
          decide (o.within ≠ some (a + offsetSectionEntries)))
          ((live.filter fun q => q.addr ≠ a).filter fun o => o.within = some script)
        simp only [elems, List.length_map, List.filter_filter] at hlt hle hf ⊢
        have hcongr : (live.filter fun o => decide (o.within = some script) &&
            decide (o.addr ≠ a ∧ o.within ≠ some (a + offsetSectionEntries))) =
            live.filter fun o => decide (o.within ≠ some (a + offsetSectionEntries)) &&
              (decide (o.within = some script) && decide (o.addr ≠ a)) := by
          refine List.filter_congr fun o _ => ?_
          simp only [Bool.decide_and]
          rw [Bool.and_comm, Bool.and_right_comm, Bool.and_comm, ← Bool.and_assoc]
          ac_rfl
        rw [hcongr]
        omega
      obtain ⟨m', hrun, hr', hw', hdead⟩ := ih hr₁ hp₁
        (Nat.le_trans (List.length_filter_le _ _) hrounds) hlen₁
      refine ⟨m', ?_, ?_, hw₁.trans (hw'.mono (List.filter_subset_self _)), fun s hs hsw h hsh => ?_⟩
      · rw [Libfex.deleteSections.eq_def, hl]
        simp only [haddr, hrun₁, Option.bind_eq_bind, Option.bind_some]
        exact hrun
      · rw [List.filter_filter] at hr'
        have hsame : (live.filter fun o => ¬under live script o) = live.filter fun o =>
            decide (¬under (live.filter fun o =>
              o.addr ≠ a ∧ o.within ≠ some (a + offsetSectionEntries)) script o) &&
            decide (o.addr ≠ a ∧ o.within ≠ some (a + offsetSectionEntries)) := by
          refine List.filter_congr fun o ho => ?_
          rw [← Bool.decide_and, decide_eq_decide, under_filter hr.separate hp hq ho]
          tauto
        rwa [hsame]
      · by_cases hsa : s.addr = a
        · rw [hr.separate.eq_of_addr hs hq hsa] at hsh
          cases hsh
          refine hw'.ring hring₁ fun x hx o ho hxo => ?_
          rw [List.mem_singleton] at hx
          have ho' := List.mem_filter.mp ho
          have hoq := hr.separate.eq_of_hook ho'.1 hq hxo (hx ▸ Obj.head_mem rfl)
          exact (of_decide_eq_true ho'.2).1 (by rw [hoq])
        · refine hdead s (List.mem_filter.mpr ⟨hs, decide_eq_true ⟨hsa, fun hw => ?_⟩⟩) hsw h hsh
          rw [hsw] at hw
          exact hr.separate.script_ne hp hsec (Option.some.inj hw)

theorem Refines.scriptDelete {script : Addr} (hr : Refines m live) (hp : IsScript live script)
    (hf : live.length ≤ fuel) :
    ∃ m', scriptDelete script fuel m = some m' ∧
      Refines m' (live.filter fun o => o.addr ≠ script ∧ ¬under live script o) ∧
      Within live m m' ∧ m'.links.Ring script [] ∧
      ∀ s ∈ live, s.within = some script → ∀ h, s.head? = some h → m'.links.Ring h [] := by
  obtain ⟨m', hrun, hr', hw', hdead⟩ :=
    hr.deleteSections hp hf (Nat.le_trans (length_elems_le _ _) hf)
  have hp' : IsScript (live.filter fun o => ¬under live script o) script := by
    refine List.mem_filter.mpr ⟨hp, decide_eq_true fun hu => ?_⟩
    obtain how | ⟨s, hs, hsw, hso⟩ := mem_under.mp hu
    · cases how
    · obtain ⟨name, hk⟩ := hr.separate.section_of_within hp hs hsw
      rw [eq_section hk] at hso
      cases hso
  have hlive : (live.filter fun o => ¬under live script o).filter (fun o => o.addr ≠ script) =
      live.filter fun o => o.addr ≠ script ∧ ¬under live script o := by
    simp only [List.filter_filter, Bool.decide_and]
  have hno : ∀ o ∈ live.filter (fun o => ¬under live script o), o.within ≠ some script :=
    fun o ho how => of_decide_eq_true (List.mem_filter.mp ho).2 (mem_under.mpr (Or.inl how))
  have helems : ∀ k, elems (live.filter fun o => o.addr ≠ script ∧ ¬under live script o) k =
      elems (live.filter fun o => ¬under live script o) k := fun k => by
    rw [← hlive, elems, elems, List.filter_filter]
    refine congrArg _ (List.filter_congr fun o ho => ?_)
    by_cases ha : o.addr = script
    · rw [hr'.separate.eq_of_addr ho hp' ha]
      simp [Obj.within]
    · simp [ha]
  refine ⟨m', hrun, ⟨?_, fun q hq k hqk => ?_, fun q hq => ?_⟩, hw', ?_, hdead⟩
  · rw [← hlive]
    refine hr'.separate.filter _ fun o ho hoa => ?_
    have hown := hr'.separate.owned o ho
    obtain ⟨a, _ | ⟨script', name⟩ | ⟨s', name, value⟩⟩ := o
    · trivial
    · refine List.mem_filter.mpr ⟨hown, decide_eq_true fun he => hno _ ho ?_⟩
      rw [← show script' = script from he]
      rfl
    · obtain ⟨script', name', hown⟩ := hown
      refine ⟨script', name', List.mem_filter.mpr ⟨hown, decide_eq_true fun he => ?_⟩⟩
      cases hr'.separate.eq_of_addr hown hp' he
  · rw [helems]
    rw [← hlive] at hq
    exact hr'.rings q (List.mem_of_mem_filter hq) k hqk
  · rw [← hlive] at hq
    exact hr'.stored q (List.mem_of_mem_filter hq)
  · have hring := hr'.rings _ hp' script rfl
    have hnil : elems (live.filter fun o => ¬under live script o) script = [] := by
      rw [List.eq_nil_iff_forall_not_mem]
      intro x hx
      obtain ⟨o, ho, how, -⟩ := mem_elems.mp hx
      exact hno o ho how
    rwa [hnil] at hring

end Babelfish.Libfex
