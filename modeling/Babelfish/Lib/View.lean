import Babelfish.Lib.Flat
import Mathlib.Data.List.Find

/-! A forest seen node by node: the content of every node and the labels of its children, and what the
two edits change in this view. -/

universe u

namespace Babelfish.Forest

variable {α : Type u} {F : Forest α}

def get? (F : Forest α) (id : Nat) : Option α := (F.find? id).map Prod.fst

def kids (F : Forest α) (id : Nat) : List Nat :=
  match F.find? id with
  | some (_, sub) => sub.roots.map Prod.fst
  | none => []

def childOf (F : Forest α) (id : Nat) (p : α → Bool) : Option Nat :=
  match F.find? id with
  | some (_, sub) => sub.child? p
  | none => none

theorem get?_of_find? {id : Nat} {a : α} {sub : Forest α} (h : F.find? id = some (a, sub)) :
    F.get? id = some a := by simp [get?, h]

theorem find?_of_get? {id : Nat} {a : α} (h : F.get? id = some a) :
    ∃ sub, F.find? id = some (a, sub) := by
  obtain ⟨⟨b, sub⟩, hf, rfl⟩ := Option.map_eq_some_iff.mp h
  exact ⟨sub, hf⟩

theorem mem_of_get? {id : Nat} {a : α} (h : F.get? id = some a) : id ∈ F.ids := by
  obtain ⟨sub, hf⟩ := find?_of_get? h
  exact mem_ids_of_find? hf

theorem get?_of_mem {id : Nat} (h : id ∈ F.ids) : ∃ a, F.get? id = some a := by
  obtain ⟨⟨a, sub⟩, hf⟩ := find?_isSome h
  exact ⟨a, get?_of_find? hf⟩

theorem roots_modify_fst (i : Nat) (g : α → α) (F : Forest α) :
    (F.modify i g).roots.map Prod.fst = F.roots.map Prod.fst := by
  induction F with
  | nil => rfl
  | node k a sub next _ ihn =>
    by_cases hk : k = i
    · subst hk; simp [roots]
    · simp [modify_node_of_ne hk, roots, ihn]

theorem roots_addFirst_fst (i n : Nat) (b : α) (F : Forest α) :
    (F.addFirst i n b).roots.map Prod.fst = F.roots.map Prod.fst := by
  induction F with
  | nil => rfl
  | node k a sub next _ ihn =>
    by_cases hk : k = i
    · subst hk; simp [addFirst, update, roots]
    · simp [addFirst_node_of_ne hk, roots, ihn]

theorem get?_modify_self {i : Nat} (g : α → α) (F : Forest α) :
    (F.modify i g).get? i = (F.get? i).map g := by
  unfold get?
  rw [find?_modify_at]
  cases F.find? i <;> rfl

theorem get?_modify_of_ne {i j : Nat} (h : j ≠ i) (hn : F.ids.Nodup) (g : α → α) :
    (F.modify i g).get? j = F.get? j := by
  unfold get?
  rw [find?_modify_of_ne (Ne.symm h) hn]
  cases F.find? j <;> rfl

theorem kids_modify (hn : F.ids.Nodup) (i j : Nat) (g : α → α) :
    (F.modify i g).kids j = F.kids j := by
  unfold kids
  by_cases h : i = j
  · subst h
    rw [find?_modify_at]
    cases F.find? i <;> rfl
  · rw [find?_modify_of_ne h hn]
    cases F.find? j with
    | none => rfl
    | some r => exact roots_modify_fst i g r.2

theorem childOf_modify (hn : F.ids.Nodup) {p : α → Bool} {g : α → α} (hp : ∀ a, p (g a) = p a)
    (i j : Nat) : (F.modify i g).childOf j p = F.childOf j p := by
  unfold childOf
  by_cases h : i = j
  · subst h
    rw [find?_modify_at]
    cases F.find? i <;> rfl
  · rw [find?_modify_of_ne h hn]
    cases F.find? j with
    | none => rfl
    | some r => exact child?_modify hp i r.2

section AddFirst

variable {i n : Nat} {b : α}

theorem get?_addFirst_new (hi : i ∈ F.ids) (hfresh : n ∉ F.ids) :
    (F.addFirst i n b).get? n = some b := get?_of_find? (find?_addFirst_new hfresh hi b)

theorem get?_addFirst_of_ne {j : Nat} (hj : j ≠ n) (hn : F.ids.Nodup) :
    (F.addFirst i n b).get? j = F.get? j := by
  by_cases hi : i = j
  · subst hi
    cases hf : F.find? i with
    | none =>
      have hmem : i ∉ F.ids := not_mem_ids_of_find? hf
      rw [addFirst_of_not_mem hmem]
    | some r =>
      obtain ⟨a, s⟩ := r
      rw [get?_of_find? hf, get?_of_find? (find?_addFirst_self hf n b)]
  · unfold get?
    rw [find?_addFirst_of_ne hi (Ne.symm hj) hn]
    cases F.find? j <;> rfl

theorem kids_addFirst_self (hi : i ∈ F.ids) : (F.addFirst i n b).kids i = n :: F.kids i := by
  obtain ⟨⟨a, s⟩, hf⟩ := find?_isSome hi
  simp [kids, hf, find?_addFirst_self hf, roots]

theorem kids_addFirst_new (hi : i ∈ F.ids) (hfresh : n ∉ F.ids) :
    (F.addFirst i n b).kids n = [] := by
  simp [kids, find?_addFirst_new hfresh hi, roots]

theorem kids_addFirst_of_ne {j : Nat} (hij : j ≠ i) (hjn : j ≠ n) (hn : F.ids.Nodup) :
    (F.addFirst i n b).kids j = F.kids j := by
  unfold kids
  rw [find?_addFirst_of_ne (Ne.symm hij) (Ne.symm hjn) hn]
  cases F.find? j with
  | none => rfl
  | some r => exact roots_addFirst_fst i n b r.2

theorem childOf_addFirst_self (hi : i ∈ F.ids) (p : α → Bool) :
    (F.addFirst i n b).childOf i p = if p b then some n else F.childOf i p := by
  obtain ⟨⟨a, s⟩, hf⟩ := find?_isSome hi
  simp [childOf, hf, find?_addFirst_self hf, child?]

theorem mem_ids_addFirst (hn : F.ids.Nodup) (hi : i ∈ F.ids) {j : Nat} :
    j ∈ (F.addFirst i n b).ids ↔ j = n ∨ j ∈ F.ids := by
  obtain ⟨l₁, l₂, h₁, h₂⟩ := ids_addFirst hn hi n b
  rw [h₁, h₂]
  simp only [List.mem_append, List.mem_cons]
  tauto

end AddFirst

theorem find?_of_find? (hn : F.ids.Nodup) {id j : Nat} {a : α} {sub : Forest α} {r : α × Forest α}
    (h : F.find? id = some (a, sub)) (hj : sub.find? j = some r) : F.find? j = some r := by
  induction F with
  | nil => simp [find?] at h
  | node k b s next ihs ihn =>
    obtain ⟨hks, hkn, hns, hnn, hd⟩ := nodup_ids_node.mp hn
    by_cases hk : k = id
    · simp only [find?, hk, if_true, Option.some.injEq, Prod.mk.injEq] at h
      obtain ⟨rfl, rfl⟩ := h
      have hkj : k ≠ j := fun e => hks (e ▸ mem_ids_of_find? hj)
      simp [find?, hkj, hj]
    · simp only [find?, hk, if_false] at h
      cases hs : s.find? id with
      | some r' =>
        simp only [hs, Option.some.injEq] at h
        subst h
        have hkj : k ≠ j := fun e => hks (e ▸ ids_subset_of_find? hs (mem_ids_of_find? hj))
        simp [find?, hkj, ihs hns hs]
      | none =>
        simp only [hs] at h
        have hjn := ids_subset_of_find? h (mem_ids_of_find? hj)
        have hkj : k ≠ j := fun e => hkn (e ▸ hjn)
        simp [find?, hkj, find?_eq_none fun hm => hd j hm hjn, ihn hnn h]

theorem get?_of_mem_roots (hn : F.ids.Nodup) {j : Nat} {b : α} (h : (j, b) ∈ F.roots) :
    F.get? j = some b := by
  induction F with
  | nil => simp [roots] at h
  | node k a sub next _ ihn =>
    obtain ⟨-, hkn, -, hnn, hd⟩ := nodup_ids_node.mp hn
    rcases List.mem_cons.mp h with e | h
    · obtain ⟨rfl, rfl⟩ := Prod.mk.inj e
      simp [get?, find?]
    · have hjn : j ∈ next.ids := mem_of_get? (ihn hnn h)
      have hkj : k ≠ j := fun e => hkn (e ▸ hjn)
      have hs := find?_eq_none fun hm => hd j hm hjn
      have := ihn hnn h
      unfold get? at this ⊢
      simpa [find?, hkj, hs] using this

theorem child?_eq (p : α → Bool) (F : Forest α) :
    F.child? p = (F.roots.find? fun r => p r.2).map Prod.fst := by
  induction F with
  | nil => rfl
  | node k a sub next _ ihn =>
    by_cases hp : p a = true
    · simp [child?, roots, hp]
    · simp [child?, roots, hp, ihn]

theorem get?_of_mem_kids (hn : F.ids.Nodup) {id j : Nat} (h : j ∈ F.kids id) :
    ∃ b, F.get? j = some b := by
  unfold kids at h
  cases hf : F.find? id with
  | none => simp [hf] at h
  | some r =>
    obtain ⟨a, sub⟩ := r
    simp only [hf] at h
    obtain ⟨⟨k, b⟩, hm, rfl⟩ := List.mem_map.mp h
    obtain ⟨s, hs⟩ := find?_of_get? (get?_of_mem_roots (nodup_of_find? hn hf) hm)
    exact ⟨b, get?_of_find? (find?_of_find? hn hf hs)⟩

theorem childOf_eq_find? (hn : F.ids.Nodup) (id : Nat) (p : α → Bool) :
    F.childOf id p = (F.kids id).find? fun j => (F.get? j).any p := by
  unfold childOf kids
  cases hf : F.find? id with
  | none => rfl
  | some r =>
    obtain ⟨a, sub⟩ := r
    have hsub := nodup_of_find? hn hf
    simp only [child?_eq, List.find?_map]
    have hroots : ∀ r ∈ sub.roots, p r.2 = ((fun j => (F.get? j).any p) ∘ Prod.fst) r := fun r hr => by
      obtain ⟨s, hs⟩ := find?_of_get? (get?_of_mem_roots hsub hr)
      simp [get?_of_find? (find?_of_find? hn hf hs)]
    rw [List.find?_congr hroots]

theorem childOf_eq_none (hn : F.ids.Nodup) {id : Nat} {p : α → Bool}
    (h : ∀ j ∈ F.kids id, ∀ a, F.get? j = some a → p a = false) : F.childOf id p = none := by
  unfold childOf
  cases hf : F.find? id with
  | none => rfl
  | some r =>
    obtain ⟨a, sub⟩ := r
    have hsub := nodup_of_find? hn hf
    simp only [kids, hf] at h
    simp only [child?_eq, Option.map_eq_none_iff, List.find?_eq_none]
    rintro ⟨j, b⟩ hm
    obtain ⟨s, hs⟩ := find?_of_get? (get?_of_mem_roots hsub hm)
    have := h j (List.mem_map.mpr ⟨_, hm, rfl⟩) b (get?_of_find? (find?_of_find? hn hf hs))
    simp [this]

def newId (F : Forest α) : Nat := F.ids.foldr max 0 + 1

theorem newId_not_mem (F : Forest α) : F.newId ∉ F.ids := by
  have hle : ∀ l : List Nat, ∀ j ∈ l, j ≤ l.foldr max 0 := fun l => by
    induction l with
    | nil => simp
    | cons k l ih =>
      intro j hj
      rw [List.foldr_cons]
      rcases List.mem_cons.mp hj with rfl | hj
      · exact Nat.le_max_left _ _
      · exact (ih j hj).trans (Nat.le_max_right _ _)
  intro h
  have := hle F.ids F.newId h
  unfold newId at this
  omega

theorem exists_fresh (F : Forest α) : ∃ n, n ∉ F.ids := ⟨F.newId, F.newId_not_mem⟩

theorem precedes_total {i j : Nat} (hi : i ∈ F.ids) (hj : j ∈ F.ids) (h : i ≠ j) :
    F.Precedes i j ∨ F.Precedes j i := by
  obtain ⟨l₁, l₂, he⟩ := List.append_of_mem hi
  unfold Precedes
  rw [he] at hj ⊢
  simp only [List.mem_append, List.mem_cons] at hj
  rcases hj with hj | rfl | hj
  · exact Or.inr ((List.singleton_sublist.mpr hj).append
      (List.singleton_sublist.mpr List.mem_cons_self))
  · exact absurd rfl h
  · exact Or.inl (((List.singleton_sublist.mpr hj).cons_cons i).trans
      (List.sublist_append_right l₁ _))

theorem Precedes.trans (hn : F.ids.Nodup) {i j k : Nat} (h : F.Precedes i j) (h' : F.Precedes j k) :
    F.Precedes i k := by
  obtain ⟨oi, hi⟩ := offset_isSome (fun _ : α => 1) 0 h.mem_left
  obtain ⟨oj, hj⟩ := offset_isSome (fun _ : α => 1) 0 h.mem_right
  obtain ⟨ok, hk⟩ := offset_isSome (fun _ : α => 1) 0 h'.mem_right
  have hij := offset_lt_of_precedes (fun _ => Nat.one_pos) hn h hi hj
  have hjk := offset_lt_of_precedes (fun _ => Nat.one_pos) hn h' hj hk
  have hne : i ≠ k := fun e => by
    subst e
    rw [hi, Option.some.injEq] at hk
    omega
  rcases precedes_total h.mem_left h'.mem_right hne with hik | hki
  · exact hik
  · have := offset_lt_of_precedes (fun _ => Nat.one_pos) hn hki hk hi
    omega

theorem precedes_of_find? (hn : F.ids.Nodup) {id j : Nat} {a : α} {sub : Forest α}
    (h : F.find? id = some (a, sub)) (hj : j ∈ sub.ids) : F.Precedes id j := by
  have hjF := ids_subset_of_find? h hj
  induction F with
  | nil => simp [find?] at h
  | node k b s next ihs ihn =>
    obtain ⟨-, -, hns, hnn, -⟩ := nodup_ids_node.mp hn
    by_cases hk : k = id
    · simp only [find?, hk, if_true, Option.some.injEq, Prod.mk.injEq] at h
      obtain ⟨rfl, rfl⟩ := h
      have : [j].Sublist (s.ids ++ next.ids) :=
        List.singleton_sublist.mpr (List.mem_append_left _ hj)
      simpa [Precedes, ids, hk] using this.cons_cons id
    · simp only [find?, hk, if_false] at h
      cases hs : s.find? id with
      | some r =>
        simp only [hs, Option.some.injEq] at h
        subst h
        have hsub : [id, j].Sublist s.ids := ihs hns hs (ids_subset_of_find? hs hj)
        exact (hsub.trans (List.sublist_append_left _ _)).trans (List.sublist_cons_self k _)
      | none =>
        simp only [hs] at h
        have hsub : [id, j].Sublist next.ids := ihn hnn h (ids_subset_of_find? h hj)
        exact (hsub.trans (List.sublist_append_right _ _)).trans (List.sublist_cons_self k _)

theorem childOf_spec (hn : F.ids.Nodup) {id j : Nat} {p : α → Bool} (h : F.childOf id p = some j) :
    F.Precedes id j ∧ ∃ a, F.get? j = some a ∧ p a = true := by
  unfold childOf at h
  cases hf : F.find? id with
  | none => simp [hf] at h
  | some r =>
    obtain ⟨a, sub⟩ := r
    simp only [hf] at h
    refine ⟨precedes_of_find? hn hf (child?_mem h), ?_⟩
    rw [child?_eq, Option.map_eq_some_iff] at h
    obtain ⟨⟨k, b⟩, hk, rfl⟩ := h
    have hm := List.mem_of_find?_eq_some hk
    obtain ⟨s, hs⟩ := find?_of_get? (get?_of_mem_roots (nodup_of_find? hn hf) hm)
    have hp := List.find?_some hk
    exact ⟨b, get?_of_find? (find?_of_find? hn hf hs), hp⟩

end Babelfish.Forest
