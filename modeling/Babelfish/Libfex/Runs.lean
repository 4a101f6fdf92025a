import Babelfish.Libfex.Deletion

/-! Sequences of operations on scripts: every ring that they reach is the list of its live elements, and
each operation changes that list as it should. -/

namespace Babelfish.Libfex

open Bytes

variable {m m' : Mem} {live : List Obj} {o p q : Obj} {h k : Addr} {fuel : Nat}

/-- The ring at a head runs through the elements forwards by `next`, and backwards by `prev`. -/
structure IsRing (m : Mem) (h : Addr) (es : List Addr) : Prop where
  nodup : (h :: es).Nodup
  inverse : ∀ x ∈ h :: es, m.links.prev (m.links.next x) = x ∧ m.links.next (m.links.prev x) = x
  forwards : ∀ fuel, es.length ≤ fuel → m.links.walk h fuel (m.links.first h) = some es
  backwards : ∀ fuel, es.length ≤ fuel →
    m.links.flip.walk h fuel (m.links.flip.first h) = some es.reverse

theorem IsRing.of_ring {es : List Addr} (hr : m.links.Ring h es) : IsRing m h es where
  nodup := hr.nodup
  inverse x hx := ⟨hr.prev_next hx, hr.next_prev hx⟩
  forwards fuel hf := hr.walk_first hf
  backwards fuel hf := hr.flip.walk_first (by rwa [List.length_reverse])

/-- A constructor appends its object to the ring that the object is in. -/
structure Appends (live : List Obj) (ptr : Addr) (kind : Kind) (m m' : Mem) : Prop where
  failed : ptr = 0 → m' = m
  ring : ptr ≠ 0 → ∀ p ∈ live, ∀ h, p.head? = some h → IsRing m' h
    (elems live h ++ if Obj.within ⟨ptr, kind⟩ = some h then [Obj.hook ⟨ptr, kind⟩] else [])
  own : ptr ≠ 0 → ∀ h, Obj.head? ⟨ptr, kind⟩ = some h → IsRing m' h []

def ScriptOp.Effect (live : List Obj) (m m' : Mem) : ScriptOp → Prop
  | .scriptNew ptr => Appends live ptr .script m m'
  | .sectionNew ptr script name => Appends live ptr (.scriptSection script name) m m'
  | .nullEntryNew ptr s name => Appends live ptr (.scriptEntry s name .null) m m'
  | .singleEntryNew ptr s name value => Appends live ptr (.scriptEntry s name (.single value)) m m'
  | .stringEntryNew ptr s name l bytes =>
    Appends live ptr (.scriptEntry s name (.string (bytes.take l ++ [0]))) m m'
  | .gpioEntryNew ptr s name port num data =>
    Appends live ptr (.scriptEntry s name (.gpio port num data)) m m'
  | .entryDelete e => ∀ p ∈ live, ∀ h, p.head? = some h →
      IsRing m' h ((elems live h).erase (e + offsetEntries))
  | .sectionDelete s =>
    (∀ p ∈ live, ∀ h, p.head? = some h → p.addr ≠ s →
      IsRing m' h ((elems live h).erase (s + offsetSections))) ∧
    IsRing m' (s + offsetSectionEntries) []
  | .scriptDelete script =>
    (∀ p ∈ live, ∀ h, p.head? = some h → p.addr ≠ script → ¬under live script p →
      IsRing m' h (elems live h)) ∧
    IsRing m' script [] ∧
    ∀ s ∈ live, s.within = some script → ∀ h, s.head? = some h → IsRing m' h []

theorem Refines.isRing (hr : Refines m live) (hp : p ∈ live) (hph : p.head? = some h) :
    IsRing m h (elems live h) := IsRing.of_ring (hr.rings p hp h hph)

theorem elems_delete (hr : Refines m live) (ho : o ∈ live) (hw : o.within ≠ none) (hq : q ∈ live)
    (hqk : q.head? = some k) :
    elems (live.filter fun q => q.addr ≠ o.addr) k = (elems live k).erase o.hook := by
  obtain ⟨A, B, rfl⟩ := List.append_of_mem ho
  have hring := (hr.rings q hq k hqk).nodup
  rw [filter_addr hr.separate]
  by_cases hk : o.within = some k
  · rw [elems_append, elems_append, elems_cons, if_pos hk, List.singleton_append]
    rw [elems_append, elems_cons, if_pos hk, List.singleton_append, ← List.cons_append,
      List.nodup_append] at hring
    have hnot : o.hook ∉ elems A k := fun hm =>
      hring.2.2 _ (List.mem_cons_of_mem k hm) _ List.mem_cons_self rfl
    rw [List.erase_append_right _ hnot, List.erase_cons_head]
  · obtain ⟨h, how⟩ := Option.ne_none_iff_exists'.mp hw
    obtain ⟨p, hp, hph⟩ := (hr.separate.owned o ho).owner how
    have hnot : o.hook ∉ elems (A ++ o :: B) k := fun hm => hk (how.trans (congrArg some ?_))
    · rw [List.erase_of_not_mem hnot, elems_append, elems_append, elems_cons, if_neg hk,
        List.nil_append]
    · exact hr.separate.head_unique hp hq hph hqk
        (List.mem_cons_of_mem h (mem_elems.mpr ⟨o, ho, how, rfl⟩)) (List.mem_cons_of_mem k hm)

theorem elems_filter_of_within {P Q : Obj → Bool}
    (hPQ : ∀ o ∈ live, o.within = some k → P o = Q o) :
    elems (live.filter P) k = elems (live.filter Q) k := by
  rw [elems, elems, List.filter_filter, List.filter_filter]
  refine congrArg _ (List.filter_congr fun o ho => ?_)
  by_cases how : o.within = some k
  · rw [hPQ o ho how]
  · simp [how]

theorem Refines.create {ptr : Addr} {kind : Kind} (hr : Refines m live)
    (hr' : Refines m' (create live ptr kind)) (hfail : ptr = 0 → m' = m)
    (ha : Allocated live ptr kind) : Appends live ptr kind m m' where
  failed := hfail
  ring hz p hp h hph := by
    rw [Libfex.create, if_neg hz] at hr'
    have hring := hr'.isRing (List.mem_append_left _ hp) hph
    rwa [elems_append, elems_singleton] at hring
  own hz h hh := by
    rw [Libfex.create, if_neg hz] at hr'
    obtain ⟨hplaced, hap⟩ := ha.resolve_left hz
    have hmem : (⟨ptr, kind⟩ : Obj) ∈ live ++ [⟨ptr, kind⟩] := by simp
    have hnew := not_hook hr.separate.placed hplaced hap (Obj.head_mem hh)
    have hne : (⟨ptr, kind⟩ : Obj).within ≠ some h := fun hw => by
      obtain ⟨p, hp, hph⟩ := (hr'.separate.owned _ hmem).owner hw
      obtain hp | hp := List.mem_append.mp hp
      · exact hnew p hp (Obj.head_mem hph)
      · rw [List.mem_singleton.mp hp] at hph
        obtain _ | _ | _ := kind
        · cases hw
        · have hscript : IsScript _ _ := hr'.separate.owned _ hmem
          obtain hscript | hscript := List.mem_append.mp hscript
          · exact hnew _ hscript (by rw [Option.some.inj hw]; exact List.mem_singleton_self h)
          · cases List.mem_singleton.mp hscript
        · cases hph
    rw [← elems_new hr.separate hne hnew]
    exact hr'.isRing hmem hh

theorem Refines.step {op : ScriptOp} (hr : Refines m live) (ha : op.Allowed live)
    (hf : live.length ≤ fuel) :
    ∃ m', op.run fuel m = some m' ∧ Refines m' (op.apply live) ∧ op.Effect live m m' := by
  have hentry : ∀ {ptr s : Addr} {name : Bytes} {value : ScriptValue},
      IsSection live s ∧ Allocated live ptr (.scriptEntry s name value) →
      ∃ m', some (scriptEntryNew ptr s name value m) = some m' ∧
        Refines m' (Libfex.create live ptr (.scriptEntry s name value)) ∧
        Appends live ptr (.scriptEntry s name value) m m' := fun {ptr s name value} ha => by
    have hr' := hr.entryNew ha.1 ha.2
    exact ⟨_, rfl, hr', hr.create hr' (fun hz => if_pos hz) ha.2⟩
  cases op with
  | scriptNew ptr =>
    have hr' := hr.scriptNew ha
    exact ⟨_, rfl, hr', hr.create hr' (fun hz => if_pos hz) ha⟩
  | sectionNew ptr script name =>
    have hr' := hr.sectionNew ha.1 ha.2
    exact ⟨_, rfl, hr', hr.create hr' (fun hz => if_pos hz) ha.2⟩
  | nullEntryNew ptr s name => exact hentry ha
  | singleEntryNew ptr s name value => exact hentry ha
  | stringEntryNew ptr s name l bytes => exact hentry ha
  | gpioEntryNew ptr s name port num data => exact hentry ha
  | entryDelete e =>
    obtain ⟨hr', -⟩ := hr.entryDelete ha
    refine ⟨_, rfl, hr', fun p hp h hph => ?_⟩
    obtain ⟨s, name, value, he⟩ := ha
    have hdel := elems_delete hr he nofun hp hph
    have hring := IsRing.of_ring (hr.unlink he rfl hp hph)
    rw [hdel] at hring
    exact hring
  | sectionDelete s =>
    obtain ⟨m', hrun, hr', -, hdead⟩ := hr.sectionDelete ha hf
    refine ⟨m', hrun, hr', fun p hp h hph hne => ?_, IsRing.of_ring hdead⟩
    obtain ⟨script, name, hs⟩ := ha
    have hhead : h ≠ s + offsetSectionEntries := fun he => hne (by
      rw [hr.separate.head_inj hp hs hph (he ▸ rfl)])
    have hkeep : p ∈ live.filter fun o => o.addr ≠ s ∧ o.within ≠ some (s + offsetSectionEntries) := by
      refine List.mem_filter.mpr ⟨hp, decide_eq_true ⟨hne, fun hw => ?_⟩⟩
      obtain ⟨ename, value, hk⟩ := hr.separate.entry_of_within ⟨script, name, hs⟩ hp hw
      rw [eq_entry hk] at hph
      cases hph
    have hring := hr'.isRing hkeep hph
    rw [elems_filter_of_within (Q := fun q => q.addr ≠ s) fun o _ how => ?_,
      elems_delete (o := ⟨s, .scriptSection script name⟩) hr hs nofun hp hph] at hring
    · exact hring
    · have hwne : o.within ≠ some (s + offsetSectionEntries) := fun hw =>
        hhead (Option.some.inj (how.symm.trans hw))
      simp [hwne]
  | scriptDelete script =>
    obtain ⟨m', hrun, hr', -, hown, hdead⟩ := hr.scriptDelete ha hf
    refine ⟨m', hrun, hr', fun p hp h hph hne hu => ?_, IsRing.of_ring hown,
      fun s hs hsw h hsh => IsRing.of_ring (hdead s hs hsw h hsh)⟩
    have hkeep : p ∈ live.filter fun o => o.addr ≠ script ∧ ¬under live script o :=
      List.mem_filter.mpr ⟨hp, decide_eq_true ⟨hne, hu⟩⟩
    have hring := hr'.isRing hkeep hph
    rw [elems_filter_of_within (Q := fun _ => true) fun o ho how => ?_, List.filter_true] at hring
    · exact hring
    · refine decide_eq_true ⟨fun hos => ?_, fun hou => ?_⟩
      · rw [hr.separate.eq_of_addr ho ha hos] at how
        cases how
      · obtain hw | ⟨s, hs, hsw, hso⟩ := mem_under.mp hou
        · refine hne ?_
          rw [hr.separate.head_inj hp ha hph (how.symm.trans hw ▸ rfl)]
        · refine hu (mem_under.mpr (Or.inl ?_))
          rw [hr.separate.head_inj hp hs hph (hso ▸ how)]
          exact hsw

theorem Refines.nil (m : Mem) : Refines m [] :=
  ⟨⟨nofun, List.Pairwise.nil, nofun⟩, nofun, nofun⟩

theorem length_apply_le (op : ScriptOp) (live : List Obj) :
    (op.apply live).length ≤ live.length + 1 := by
  have hcreate : ∀ ptr kind, (Libfex.create live ptr kind).length ≤ live.length + 1 := fun ptr kind => by
    unfold Libfex.create
    split <;> simp
  have hfilter : ∀ P : Obj → Bool, (live.filter P).length ≤ live.length + 1 := fun P =>
    Nat.le_succ_of_le (List.length_filter_le _ _)
  cases op <;> simp only [ScriptOp.apply, hcreate, hfilter]

theorem Refines.runOps {ops : List ScriptOp} (hr : Refines m live) (ha : AllowedOps live ops)
    (hf : live.length + ops.length ≤ fuel) :
    ∃ m', runOps fuel m ops = some m' ∧ Refines m' (liveAfter live ops) := by
  induction ops generalizing m live with
  | nil => exact ⟨m, rfl, hr⟩
  | cons op ops ih =>
    rw [List.length_cons] at hf
    have hlen := length_apply_le op live
    obtain ⟨m₁, hrun, hr₁, -⟩ := hr.step ha.1 (show live.length ≤ fuel by omega)
    obtain ⟨m', hruns, hr'⟩ := ih hr₁ ha.2 (by omega)
    refine ⟨m', ?_, hr'⟩
    rw [Libfex.runOps, List.foldlM_cons, hrun]
    exact hruns

theorem length_liveAfter_le (live : List Obj) (ops : List ScriptOp) :
    (liveAfter live ops).length ≤ live.length + ops.length := by
  induction ops generalizing live with
  | nil => exact Nat.le_refl _
  | cons op ops ih =>
    have hlen := length_apply_le op live
    have hrest := ih (op.apply live)
    rw [liveAfter, List.foldl_cons, List.length_cons]
    unfold liveAfter at hrest
    omega

instance (o : Obj) : Decidable (Placed o) := inferInstanceAs (Decidable (_ ∧ _))

instance (a b : Obj) : Decidable (Apart a b) := inferInstanceAs (Decidable (_ ∨ _))

instance (live : List Obj) (ptr : Addr) (kind : Kind) : Decidable (Allocated live ptr kind) :=
  inferInstanceAs (Decidable (_ ∨ _))

instance (live : List Obj) (a : Addr) : Decidable (IsScript live a) :=
  inferInstanceAs (Decidable (_ ∈ _))

theorem isSection_iff (live : List Obj) (a : Addr) : IsSection live a ↔
    ∃ o ∈ live, o.addr = a ∧ o.head?.isSome ∧ o.within.isSome := by
  constructor
  · rintro ⟨script, name, hs⟩
    exact ⟨_, hs, rfl, rfl, rfl⟩
  · rintro ⟨⟨a, _ | ⟨script, name⟩ | _⟩, ho, rfl, hh, hw⟩
    · cases hw
    · exact ⟨script, name, ho⟩
    · cases hh

theorem isEntry_iff (live : List Obj) (a : Addr) : IsEntry live a ↔
    ∃ o ∈ live, o.addr = a ∧ o.head? = none := by
  constructor
  · rintro ⟨s, name, value, he⟩
    exact ⟨_, he, rfl, rfl⟩
  · rintro ⟨⟨a, _ | _ | ⟨s, name, value⟩⟩, ho, rfl, hh⟩
    · cases hh
    · cases hh
    · exact ⟨s, name, value, ho⟩

instance (live : List Obj) (a : Addr) : Decidable (IsSection live a) :=
  decidable_of_iff _ (isSection_iff live a).symm

instance (live : List Obj) (a : Addr) : Decidable (IsEntry live a) :=
  decidable_of_iff _ (isEntry_iff live a).symm

instance (live : List Obj) : (op : ScriptOp) → Decidable (op.Allowed live)
  | .scriptNew _ => inferInstanceAs (Decidable (Allocated ..))
  | .sectionNew .. | .nullEntryNew .. | .singleEntryNew .. | .stringEntryNew .. | .gpioEntryNew .. =>
    inferInstanceAs (Decidable (_ ∧ _))
  | .entryDelete _ => inferInstanceAs (Decidable (IsEntry ..))
  | .sectionDelete _ => inferInstanceAs (Decidable (IsSection ..))
  | .scriptDelete _ => inferInstanceAs (Decidable (IsScript ..))

instance decidableAllowedOps : (live : List Obj) → (ops : List ScriptOp) → Decidable (AllowedOps live ops)
  | _, [] => isTrue trivial
  | live, op :: ops =>
    have := decidableAllowedOps (op.apply live) ops
    inferInstanceAs (Decidable (_ ∧ _))

/-- Every sequence of allowed operations ends; then each ring of a live script or section runs through
its live elements in the order of their creation, and a further operation changes just what it is for. -/
theorem scriptOps_rings {ops : List ScriptOp} (ha : AllowedOps [] ops) (m : Mem)
    (hf : ops.length ≤ fuel) :
    ∃ m', runOps fuel m ops = some m' ∧
      (∀ p ∈ liveAfter [] ops, ∀ h, p.head? = some h → IsRing m' h (elems (liveAfter [] ops) h)) ∧
      ∀ op : ScriptOp, op.Allowed (liveAfter [] ops) → ∃ m'', op.run fuel m' = some m'' ∧
        op.Effect (liveAfter [] ops) m' m'' := by
  obtain ⟨m', hrun, hr'⟩ := (Refines.nil m).runOps ha (by simpa using hf)
  refine ⟨m', hrun, fun p hp h hph => hr'.isRing hp hph, fun op hop => ?_⟩
  have hlen := length_liveAfter_le [] ops
  rw [List.length_nil, Nat.zero_add] at hlen
  obtain ⟨m'', hrun', -, heff⟩ := hr'.step hop (Nat.le_trans hlen hf)
  exact ⟨m'', hrun', heff⟩

def zeroMem : Mem := ⟨⟨fun _ => 0, fun _ => 0⟩, fun _ => [], fun _ => .null⟩

def reusedOps : List ScriptOp :=
  [.scriptNew 4096, .sectionNew 4104 4096 (ofString "a"), .nullEntryNew 4152 4104 (ofString "b"),
    .sectionDelete 4104, .sectionNew 4104 4096 (ofString "c")]

theorem scriptOps_rings_reused :
    ∃ m', runOps 5 zeroMem reusedOps = some m' ∧
      (∀ p ∈ liveAfter [] reusedOps, ∀ h, p.head? = some h →
        IsRing m' h (elems (liveAfter [] reusedOps) h)) ∧
      ∀ op : ScriptOp, op.Allowed (liveAfter [] reusedOps) → ∃ m'', op.run 5 m' = some m'' ∧
        op.Effect (liveAfter [] reusedOps) m' m'' :=
  scriptOps_rings (by decide) zeroMem (by decide)

end Babelfish.Libfex
