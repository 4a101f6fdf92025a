import Mathlib.Algebra.BigOperators.Group.List.Basic
import Mathlib.Algebra.Order.Ring.Nat
import Babelfish.Lib.Forest

/-! Flat representations of a forest: which token sequences stand for it, where each node starts,
and what an edit at one node does to the tokens and to the starts of the others. -/

universe u v

namespace Babelfish.Forest

variable {α : Type u} {τ : Type v}

/-- `Flat R close F ts`: the tokens `ts` spell `F`, where `R a` spells the opening of a node. -/
inductive Flat (R : α → List τ → Prop) (close : List τ) : Forest α → List τ → Prop
  | nil : Flat R close nil []
  | node {i : Nat} {a : α} {sub next : Forest α} {ts ss ns : List τ} :
      R a ts → Flat R close sub ss → Flat R close next ns →
      Flat R close (node i a sub next) (ts ++ (ss ++ (close ++ ns)))

theorem Flat.mono {R R' : α → List τ → Prop} {close : List τ}
    (hR : ∀ a ts, R a ts → R' a ts) {F : Forest α} {ts : List τ} (h : Flat R close F ts) :
    Flat R' close F ts := by
  induction h with
  | nil => exact .nil
  | node h _ _ ihs ihn => exact .node (hR _ _ h) ihs ihn

def weight (w : τ → Nat) (ts : List τ) : Nat := (ts.map w).sum

@[simp] theorem weight_nil (w : τ → Nat) : weight w [] = 0 := rfl

@[simp] theorem weight_cons (w : τ → Nat) (t : τ) (ts : List τ) :
    weight w (t :: ts) = w t + weight w ts := by simp [weight]

@[simp] theorem weight_append (w : τ → Nat) (ts us : List τ) :
    weight w (ts ++ us) = weight w ts + weight w us := by simp [weight]

def size (sz : α → Nat) (c : Nat) : Forest α → Nat
  | nil => 0
  | node _ a sub next => sz a + (sub.size sz c + (c + next.size sz c))

def offset (sz : α → Nat) (c : Nat) (id : Nat) : Forest α → Option Nat
  | nil => none
  | node i a sub next =>
    if i = id then some 0 else
      match offset sz c id sub with
      | some o => some (sz a + o)
      | none => (offset sz c id next).map (sz a + (sub.size sz c + c) + ·)

variable {sz : α → Nat} {c : Nat}

theorem offset_eq_none {id : Nat} {F : Forest α} (h : id ∉ F.ids) : F.offset sz c id = none := by
  induction F with
  | nil => rfl
  | node i a sub next ihs ihn =>
    simp only [ids, List.mem_cons, List.mem_append, not_or] at h
    simp [offset, Ne.symm h.1, ihs h.2.1, ihn h.2.2]

theorem mem_of_offset {id o : Nat} {F : Forest α} (h : F.offset sz c id = some o) : id ∈ F.ids := by
  by_contra hm
  simp [offset_eq_none hm] at h

theorem offset_isSome (sz : α → Nat) (c : Nat) {id : Nat} {F : Forest α} (h : id ∈ F.ids) :
    ∃ o, F.offset sz c id = some o := by
  induction F with
  | nil => simp [ids] at h
  | node i a sub next ihs ihn =>
    by_cases hi : i = id
    · exact ⟨0, by simp [offset, hi]⟩
    · simp only [ids, List.mem_cons, List.mem_append, Ne.symm hi, false_or] at h
      simp only [offset, hi, if_false]
      cases hs : sub.offset sz c id with
      | some o => exact ⟨_, rfl⟩
      | none =>
        rcases h with h | h
        · obtain ⟨o, ho⟩ := ihs h
          simp [hs] at ho
        · obtain ⟨o, ho⟩ := ihn h
          exact ⟨_, by rw [ho]; rfl⟩

theorem offset_add_le_size {id o : Nat} {F : Forest α} {a : α} {s : Forest α}
    (hf : F.find? id = some (a, s)) (h : F.offset sz c id = some o) : o + sz a ≤ F.size sz c := by
  induction F generalizing o with
  | nil => simp [offset] at h
  | node i b sub next ihs ihn =>
    by_cases hi : i = id
    · simp only [offset, hi, if_true, Option.some.injEq] at h
      simp only [find?, hi, if_true, Option.some.injEq, Prod.mk.injEq] at hf
      obtain ⟨rfl, rfl⟩ := hf
      simp only [size]
      omega
    · simp only [offset, hi, if_false] at h
      simp only [find?, hi, if_false] at hf
      simp only [size]
      cases hs : sub.offset sz c id with
      | some o' =>
        obtain ⟨r, hr⟩ := find?_isSome (mem_of_offset hs)
        simp only [hr, Option.some.injEq] at hf
        simp only [hs, Option.some.injEq] at h
        have := ihs (hf ▸ hr) hs
        omega
      | none =>
        have hsub : id ∉ sub.ids := fun hm => by
          obtain ⟨o', ho'⟩ := offset_isSome sz c hm
          simp [hs] at ho'
        simp only [find?_eq_none hsub] at hf
        simp only [hs, Option.map_eq_some_iff] at h
        obtain ⟨o', ho', rfl⟩ := h
        have := ihn hf ho'
        omega

theorem size_modify {F : Forest α} (hn : F.ids.Nodup) {i k : Nat} {a : α} {s : Forest α} {g : α → α}
    (hf : F.find? i = some (a, s)) (hk : sz (g a) = sz a + k) :
    (F.modify i g).size sz c = F.size sz c + k := by
  induction F with
  | nil => simp [find?] at hf
  | node m b sub next ihs ihn =>
    obtain ⟨hms, hmn, hns, hnn, hd⟩ := nodup_ids_node.mp hn
    by_cases hm : m = i
    · subst hm
      simp only [find?, if_true, Option.some.injEq, Prod.mk.injEq] at hf
      obtain ⟨rfl, rfl⟩ := hf
      simp only [modify_node_self, size]
      omega
    · rw [modify_node_of_ne hm]
      simp only [find?, hm, if_false] at hf
      simp only [size]
      cases hs : sub.find? i with
      | some r =>
        simp only [hs, Option.some.injEq] at hf
        subst hf
        rw [ihs hns hs, modify_of_not_mem (hd i (mem_ids_of_find? hs))]
        omega
      | none =>
        simp only [hs] at hf
        rw [ihn hnn hf, modify_of_not_mem fun hx => hd i hx (mem_ids_of_find? hf)]
        omega

def Precedes (F : Forest α) (i j : Nat) : Prop := [i, j].Sublist F.ids

instance (F : Forest α) (i j : Nat) : Decidable (F.Precedes i j) :=
  inferInstanceAs (Decidable ([i, j].Sublist F.ids))

theorem Precedes.mem_left {F : Forest α} {i j : Nat} (h : F.Precedes i j) : i ∈ F.ids :=
  h.subset (by simp)

theorem Precedes.mem_right {F : Forest α} {i j : Nat} (h : F.Precedes i j) : j ∈ F.ids :=
  h.subset (by simp)

theorem Precedes.ne {F : Forest α} {i j : Nat} (hn : F.ids.Nodup) (h : F.Precedes i j) : i ≠ j := by
  rintro rfl
  have := hn.sublist h
  simp at this

theorem precedes_modify {F : Forest α} {i j : Nat} (h : F.Precedes i j) (k : Nat) (g : α → α) :
    (F.modify k g).Precedes i j := by
  simpa [Precedes] using h

theorem precedes_addFirst {F : Forest α} (hn : F.ids.Nodup) {i j : Nat} (h : F.Precedes i j)
    (k n : Nat) (b : α) : (F.addFirst k n b).Precedes i j := by
  by_cases hk : k ∈ F.ids
  · obtain ⟨l₁, l₂, h₁, h₂⟩ := ids_addFirst hn hk n b
    unfold Precedes at h ⊢
    rw [h₁] at h
    rw [h₂]
    exact h.trans ((List.Sublist.refl l₁).append (((List.sublist_cons_self n l₂)).cons_cons k))
  · rwa [addFirst_of_not_mem hk]

theorem precedes_addFirst_new {F : Forest α} (hn : F.ids.Nodup) {k n : Nat} (b : α)
    (hk : k ∈ F.ids) : (F.addFirst k n b).Precedes k n ∧
      ∀ j, F.Precedes k j → (F.addFirst k n b).Precedes n j := by
  obtain ⟨l₁, l₂, h₁, h₂⟩ := ids_addFirst hn hk n b
  constructor
  · unfold Precedes
    rw [h₂]
    refine List.Sublist.trans ?_ (List.sublist_append_right l₁ _)
    simp
  · intro j hj
    unfold Precedes at hj ⊢
    rw [h₁] at hj hn
    rw [h₂]
    have hl₁ : k ∉ l₁ := fun hm => by
      have := (List.nodup_append.mp hn).2.2 k hm k List.mem_cons_self
      exact this rfl
    have hj₂ : j ∈ l₂ := by
      obtain ⟨l, r, he, hl, hr⟩ := List.sublist_append_iff.mp hj
      cases l with
      | nil =>
        simp only [List.nil_append] at he
        subst he
        have := List.cons_sublist_cons.mp hr
        simpa using this
      | cons x l =>
        simp only [List.cons_append, List.cons.injEq] at he
        exact absurd (hl.subset (by simp [he.1])) hl₁
    refine List.Sublist.trans ?_ (List.sublist_append_right l₁ _)
    exact ((List.singleton_sublist.mpr hj₂).cons_cons n).cons k

/-- Of two nodes in document order the second is not the head, and a first one that is not the head
lies below it with the second, below it with the second after it, or after it with the second. -/
theorem Precedes.cases {k : Nat} {a : α} {sub next : Forest α} {i j : Nat}
    (hn : (node k a sub next).ids.Nodup) (hki : k ≠ i) (h : (node k a sub next).Precedes i j) :
    k ≠ j ∧ (sub.Precedes i j ∨ i ∈ sub.ids ∧ j ∈ next.ids ∨ next.Precedes i j) := by
  rw [nodup_ids_node] at hn
  obtain ⟨hks, hkn, -⟩ := hn
  have hsub : [i, j].Sublist (sub.ids ++ next.ids) := by
    unfold Precedes at h
    rw [ids] at h
    cases h with
    | cons _ h => exact h
    | cons_cons => exact absurd rfl hki
  have hj : j ∈ sub.ids ∨ j ∈ next.ids := List.mem_append.mp (hsub.subset (by simp))
  refine ⟨fun e => ?_, ?_⟩
  · subst e
    exact hj.elim hks hkn
  · obtain ⟨l, r, he, hl, hr⟩ := List.sublist_append_iff.mp hsub
    obtain _ | ⟨x, _ | ⟨y, l⟩⟩ := l
    · simp only [List.nil_append] at he
      subst he
      exact Or.inr (Or.inr hr)
    · simp only [List.cons_append, List.nil_append, List.cons.injEq] at he
      obtain ⟨rfl, rfl⟩ := he
      exact Or.inr (Or.inl ⟨hl.subset (by simp), hr.subset (by simp)⟩)
    · simp only [List.cons_append, List.cons.injEq] at he
      obtain ⟨rfl, rfl, he⟩ := he
      obtain ⟨rfl, -⟩ := List.append_eq_nil_iff.mp he.symm
      exact Or.inl hl

theorem offset_update_of_precedes {F : Forest α} (hn : F.ids.Nodup) {i j : Nat}
    (h : F.Precedes i j ∨ i = j) (f : α → Forest α → α × Forest α) :
    (F.update j f).offset sz c i = F.offset sz c i := by
  induction F with
  | nil => rfl
  | node k a sub next ihs ihn =>
    have hnd := nodup_ids_node.mp hn
    obtain ⟨hks, hkn, hns, hnn, hd⟩ := hnd
    by_cases hki : k = i
    · subst hki
      by_cases hkj : k = j
      · simp [update, offset, hkj]
      · simp [update, offset, hkj]
    · have hkj : k ≠ j := by
        rcases h with h | rfl
        · exact (h.cases hn hki).1
        · exact hki
      have hcase : (sub.Precedes i j ∨ i = j) ∧ i ∈ sub.ids ∨ i ∈ sub.ids ∧ j ∉ sub.ids ∨
          i ∉ sub.ids ∧ j ∉ sub.ids ∧ (next.Precedes i j ∨ i = j) := by
        rcases h with h | rfl
        · rcases (h.cases hn hki).2 with h | ⟨hi, hj⟩ | h
          · exact Or.inl ⟨Or.inl h, h.mem_left⟩
          · exact Or.inr (Or.inl ⟨hi, fun hm => hd j hm hj⟩)
          · exact Or.inr (Or.inr ⟨fun hm => hd i hm h.mem_left, fun hm => hd j hm h.mem_right,
              Or.inl h⟩)
        · by_cases hi : i ∈ sub.ids
          · exact Or.inl ⟨Or.inr rfl, hi⟩
          · exact Or.inr (Or.inr ⟨hi, hi, Or.inr rfl⟩)
      simp only [update, hkj, if_false, offset, hki]
      rcases hcase with ⟨h, hi⟩ | ⟨hi, hj⟩ | ⟨hi, hj, h⟩
      · obtain ⟨o, ho⟩ := offset_isSome sz c hi
        rw [ihs hns h, ho]
      · obtain ⟨o, ho⟩ := offset_isSome sz c hi
        rw [update_of_not_mem f hj, ho]
      · rw [update_of_not_mem f hj, offset_eq_none hi, ihn hnn h]

theorem offset_add_le_of_precedes {F : Forest α} (hn : F.ids.Nodup) {i j oi oj : Nat} {a : α}
    {s : Forest α} (h : F.Precedes i j) (hf : F.find? i = some (a, s))
    (hi : F.offset sz c i = some oi) (hj : F.offset sz c j = some oj) : oi + sz a ≤ oj := by
  induction F generalizing oi oj with
  | nil => simp [offset] at hi
  | node k b sub next ihs ihn =>
    have hnd := nodup_ids_node.mp hn
    obtain ⟨hks, hkn, hns, hnn, hd⟩ := hnd
    by_cases hki : k = i
    · have hkj : k ≠ j := fun e => h.ne hn (hki.symm.trans e)
      simp only [offset, hki, if_true, Option.some.injEq] at hi
      simp only [find?, hki, if_true, Option.some.injEq, Prod.mk.injEq] at hf
      obtain ⟨rfl, rfl⟩ := hf
      simp only [offset, hkj, if_false] at hj
      cases hs : sub.offset sz c j with
      | some o => simp only [hs, Option.some.injEq] at hj; omega
      | none =>
        simp only [hs, Option.map_eq_some_iff] at hj
        obtain ⟨o, -, rfl⟩ := hj
        omega
    · obtain ⟨hkj, hcase⟩ := h.cases hn hki
      simp only [offset, hki, hkj, if_false] at hi hj
      simp only [find?, hki, if_false] at hf
      rcases hcase with h | ⟨his, hjn⟩ | h
      · obtain ⟨r, hr⟩ := find?_isSome h.mem_left
        simp only [hr, Option.some.injEq] at hf
        obtain ⟨o, ho⟩ := offset_isSome sz c h.mem_left
        obtain ⟨o', ho'⟩ := offset_isSome sz c h.mem_right
        simp only [ho, ho', Option.some.injEq] at hi hj
        have := ihs hns h (hf ▸ hr) ho ho'
        omega
      · obtain ⟨r, hr⟩ := find?_isSome his
        simp only [hr, Option.some.injEq] at hf
        obtain ⟨o, ho⟩ := offset_isSome sz c his
        have hle := offset_add_le_size (c := c) (hf ▸ hr) ho
        simp only [ho, Option.some.injEq] at hi
        simp only [offset_eq_none (fun hm => hd j hm hjn), Option.map_eq_some_iff] at hj
        obtain ⟨o', -, rfl⟩ := hj
        omega
      · have his : i ∉ sub.ids := fun hm => hd i hm h.mem_left
        simp only [find?_eq_none his] at hf
        simp only [offset_eq_none his, offset_eq_none (fun hm => hd j hm h.mem_right),
          Option.map_eq_some_iff] at hi hj
        obtain ⟨o, ho, rfl⟩ := hi
        obtain ⟨o', ho', rfl⟩ := hj
        have := ihn hnn h hf ho ho'
        omega

theorem offset_lt_of_precedes (hsz : ∀ a, 0 < sz a) {F : Forest α} (hn : F.ids.Nodup) {i j oi oj : Nat}
    (h : F.Precedes i j) (hi : F.offset sz c i = some oi) (hj : F.offset sz c j = some oj) :
    oi < oj := by
  obtain ⟨⟨a, s⟩, hf⟩ := find?_isSome h.mem_left
  have hle := offset_add_le_of_precedes hn h hf hi hj
  have := hsz a
  omega

/-- Behind a node everything moves by what the node grows. -/
theorem offset_modify_of_precedes {F : Forest α} (hn : F.ids.Nodup) {i j k o : Nat} {a : α}
    {s : Forest α} {g : α → α} (h : F.Precedes i j) (hf : F.find? i = some (a, s))
    (hk : sz (g a) = sz a + k) (ho : F.offset sz c j = some o) :
    (F.modify i g).offset sz c j = some (o + k) := by
  induction F generalizing o with
  | nil => simp [find?] at hf
  | node m b sub next ihs ihn =>
    obtain ⟨hms, hmn, hns, hnn, hd⟩ := nodup_ids_node.mp hn
    by_cases hm : m = i
    · subst hm
      have hmj : m ≠ j := h.ne hn
      simp only [find?, if_true, Option.some.injEq, Prod.mk.injEq] at hf
      obtain ⟨rfl, rfl⟩ := hf
      simp only [offset, hmj, if_false, modify_node_self] at ho ⊢
      cases hs : sub.offset sz c j with
      | some o' =>
        simp only [hs, Option.some.injEq] at ho ⊢
        omega
      | none =>
        simp only [hs, Option.map_eq_some_iff] at ho ⊢
        obtain ⟨o', ho', rfl⟩ := ho
        exact ⟨o', ho', by omega⟩
    · obtain ⟨hmj, hcase⟩ := h.cases hn hm
      rw [modify_node_of_ne hm]
      simp only [find?, hm, if_false] at hf
      simp only [offset, hmj, if_false] at ho ⊢
      rcases hcase with h | ⟨hi, hj⟩ | h
      · obtain ⟨r, hr⟩ := find?_isSome h.mem_left
        simp only [hr, Option.some.injEq] at hf
        subst hf
        obtain ⟨o', ho'⟩ := offset_isSome sz c h.mem_right
        simp only [ho', Option.some.injEq] at ho
        simp only [ihs hns h hr ho', Option.some.injEq]
        omega
      · obtain ⟨r, hr⟩ := find?_isSome hi
        simp only [hr, Option.some.injEq] at hf
        subst hf
        have hjs : j ∉ sub.ids := fun hx => hd j hx hj
        have hjs' : j ∉ (sub.modify i g).ids := by simpa using hjs
        have hin : i ∉ next.ids := hd i hi
        simp only [offset_eq_none hjs, Option.map_eq_some_iff] at ho
        obtain ⟨o', ho', rfl⟩ := ho
        simp only [offset_eq_none hjs', modify_of_not_mem hin, ho', Option.map_some,
          size_modify hns hr hk, Option.some.injEq]
        omega
      · have his : i ∉ sub.ids := fun hx => hd i hx h.mem_left
        have hjs : j ∉ sub.ids := fun hx => hd j hx h.mem_right
        simp only [find?_eq_none his] at hf
        simp only [offset_eq_none hjs, Option.map_eq_some_iff] at ho
        obtain ⟨o', ho', rfl⟩ := ho
        simp only [modify_of_not_mem his, offset_eq_none hjs, ihn hnn h hf ho', Option.map_some,
          Option.some.injEq]
        omega

theorem offset_child {F : Forest α} (hn : F.ids.Nodup) {id j o o' : Nat} {a : α} {s : Forest α}
    (hf : F.find? id = some (a, s)) (ho : F.offset sz c id = some o)
    (hj : s.offset sz c j = some o') : F.offset sz c j = some (o + (sz a + o')) := by
  induction F generalizing o with
  | nil => simp [find?] at hf
  | node k b sub next ihs ihn =>
    obtain ⟨hks, hkn, hns, hnn, hd⟩ := nodup_ids_node.mp hn
    have hjs : j ∈ s.ids := by
      by_contra hm
      simp [offset_eq_none hm] at hj
    by_cases hk : k = id
    · simp only [find?, hk, if_true, Option.some.injEq, Prod.mk.injEq] at hf
      obtain ⟨rfl, rfl⟩ := hf
      have hkj : k ≠ j := fun e => hks (e ▸ hjs)
      simp only [offset, hk, if_true, Option.some.injEq] at ho
      simp [offset, hkj, hj, ← ho]
    · simp only [find?, offset, hk, if_false] at hf ho
      cases hs : sub.find? id with
      | some r =>
        simp only [hs, Option.some.injEq] at hf
        subst hf
        obtain ⟨o₁, ho₁⟩ := offset_isSome sz c (mem_ids_of_find? hs)
        simp only [ho₁, Option.some.injEq] at ho
        have hjsub := ids_subset_of_find? hs hjs
        have hkj : k ≠ j := fun e => hks (e ▸ hjsub)
        simp only [offset, hkj, if_false, ihs hns hs ho₁, Option.some.injEq]
        omega
      | none =>
        simp only [hs] at hf
        have hidn := mem_ids_of_find? hf
        have hjn := ids_subset_of_find? hf hjs
        have hkj : k ≠ j := fun e => hkn (e ▸ hjn)
        simp only [offset_eq_none (fun hm => hd id hm hidn), Option.map_eq_some_iff] at ho
        obtain ⟨o₁, ho₁, rfl⟩ := ho
        simp only [offset, hkj, if_false, offset_eq_none (fun hm => hd j hm hjn), ihn hnn hf ho₁,
          Option.map_some, Option.some.injEq]
        omega

def offsets (sz : α → Nat) (c : Nat) : Forest α → Nat → List (Nat × Nat)
  | nil, _ => []
  | node i a sub next, b =>
    (i, b) :: (offsets sz c sub (b + sz a) ++
      offsets sz c next (b + (sz a + (sub.size sz c + c))))

theorem mem_offsets {F : Forest α} (hn : F.ids.Nodup) {i o b : Nat} :
    (i, o) ∈ F.offsets sz c b ↔ ∃ o', F.offset sz c i = some o' ∧ o = b + o' := by
  induction F generalizing b with
  | nil => simp [offsets, offset]
  | node k a sub next ihs ihn =>
    obtain ⟨hks, hkn, hns, hnn, hd⟩ := nodup_ids_node.mp hn
    simp only [offsets, List.mem_cons, List.mem_append, Prod.mk.injEq, ihs hns, ihn hnn]
    by_cases hk : k = i
    · subst hk
      simp [offset, offset_eq_none hks, offset_eq_none hkn]
    · have hik : ¬i = k := fun e => hk e.symm
      simp only [offset, hk, hik, if_false, false_and, false_or]
      cases hs : sub.offset sz c i with
      | some o₁ =>
        have hin : i ∉ next.ids := hd i (mem_of_offset hs)
        simp only [offset_eq_none hin, Option.some.injEq, reduceCtorEq, false_and, exists_false,
          or_false, exists_eq_left']
        omega
      | none =>
        simp only [reduceCtorEq, false_and, exists_false, false_or, Option.map_eq_some_iff]
        constructor
        · rintro ⟨o', ho', rfl⟩
          exact ⟨_, ⟨o', ho', rfl⟩, by omega⟩
        · rintro ⟨_, ⟨o', ho', rfl⟩, rfl⟩
          exact ⟨o', ho', by omega⟩

section Weighted

variable {R : α → List τ → Prop} {close : List τ} {w : τ → Nat}

theorem Flat.weight_eq (hsz : ∀ a ts, R a ts → weight w ts = sz a) {F : Forest α} {ts : List τ}
    (h : Flat R close F ts) : weight w ts = F.size sz (weight w close) := by
  induction h with
  | nil => rfl
  | node ha _ _ ihs ihn => simp [size, hsz _ _ ha, ihs, ihn]

/-- The tokens split at a node, and an edit of the node replaces its tokens only. The rest may be read
in any coarser spelling `R'`. -/
theorem Flat.split (hsz : ∀ a ts, R a ts → weight w ts = sz a) {F : Forest α} {ts : List τ}
    (h : Flat R close F ts) (hn : F.ids.Nodup) {id : Nat} {a : α} {sub : Forest α}
    (hf : F.find? id = some (a, sub)) :
    ∃ pre as ss post, ts = pre ++ (as ++ (ss ++ (close ++ post))) ∧ R a as ∧
      Flat R close sub ss ∧ F.offset sz (weight w close) id = some (weight w pre) ∧
      ∀ (R' : α → List τ → Prop), (∀ a ts, R a ts → R' a ts) →
        ∀ (f : α → Forest α → α × Forest α) (as' ss' : List τ), R' (f a sub).1 as' →
        Flat R' close (f a sub).2 ss' →
        Flat R' close (F.update id f) (pre ++ (as' ++ (ss' ++ (close ++ post)))) := by
  induction h with
  | nil => simp [find?] at hf
  | @node i b s n tb ts tn hb hs hn' ihs ihn =>
    obtain ⟨his, hin, hns, hnn, hd⟩ := nodup_ids_node.mp hn
    by_cases hi : i = id
    · simp only [find?, hi, if_true, Option.some.injEq, Prod.mk.injEq] at hf
      obtain ⟨rfl, rfl⟩ := hf
      refine ⟨[], tb, ts, tn, rfl, hb, hs, by simp [offset, hi], fun R' hR f as' ss' ha hs' => ?_⟩
      simp only [update, hi, if_true, List.nil_append]
      exact .node ha hs' (hn'.mono hR)
    · simp only [find?, hi, if_false] at hf
      cases hsub : s.find? id with
      | some r =>
        simp only [hsub, Option.some.injEq] at hf
        subst hf
        obtain ⟨pre, as, ss, post, rfl, ha, hss, ho, hedit⟩ := ihs hns hsub
        have hid : id ∉ n.ids := hd id (mem_ids_of_find? hsub)
        refine ⟨tb ++ pre, as, ss, post ++ (close ++ tn), by simp, ha, hss, ?_, ?_⟩
        · simp [offset, hi, ho, hsz _ _ hb]
        · intro R' hR f as' ss' ha' hs'
          have := Flat.node (i := i) (hR _ _ hb) (hedit R' hR f as' ss' ha' hs') (hn'.mono hR)
          simpa [update, hi, update_of_not_mem f hid] using this
      | none =>
        simp only [hsub] at hf
        have hid : id ∉ s.ids := fun hm => hd id hm (mem_ids_of_find? hf)
        obtain ⟨pre, as, ss, post, rfl, ha, hss, ho, hedit⟩ := ihn hnn hf
        refine ⟨tb ++ (ts ++ (close ++ pre)), as, ss, post, by simp, ha, hss, ?_, ?_⟩
        · simp only [offset, hi, if_false, offset_eq_none hid, ho, Option.map_some, weight_append,
            hsz _ _ hb, hs.weight_eq hsz, Option.some.injEq]
          omega
        · intro R' hR f as' ss' ha' hs'
          have := Flat.node (i := i) (hR _ _ hb) (hs.mono hR) (hedit R' hR f as' ss' ha' hs')
          simpa [update, hi, update_of_not_mem f hid] using this

end Weighted

end Babelfish.Forest
