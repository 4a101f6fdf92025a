import Babelfish.Lib.View

/-! The nodes of a forest in document order, each with where it starts and how deep it lies, and the
nodes that one of them lies below. -/

universe u

namespace Babelfish.Forest

structure Visit (α : Type u) where
  id : Nat
  val : α
  offset : Nat
  depth : Nat

variable {α : Type u} {sz : α → Nat} {c : Nat}

def visits (sz : α → Nat) (c : Nat) : Forest α → Nat → Nat → List (Visit α)
  | nil, _, _ => []
  | node i a sub next, b, d =>
    ⟨i, a, b, d⟩ :: (visits sz c sub (b + sz a) (d + 1) ++
      visits sz c next (b + (sz a + (sub.size sz c + c))) d)

def lineage (sz : α → Nat) (c : Nat) (j : Nat) : Forest α → Nat → Nat → List (Visit α)
  | nil, _, _ => []
  | node i a sub next, b, d =>
    if i = j then [⟨i, a, b, d⟩]
    else
      match lineage sz c j sub (b + sz a) (d + 1) with
      | [] => lineage sz c j next (b + (sz a + (sub.size sz c + c))) d
      | v :: vs => ⟨i, a, b, d⟩ :: v :: vs

def upTo (sz : α → Nat) (c : Nat) (j : Nat) : Forest α → Nat → Nat → List (Visit α)
  | nil, _, _ => []
  | node i a sub next, b, d =>
    if i = j then [⟨i, a, b, d⟩]
    else if j ∈ sub.ids then ⟨i, a, b, d⟩ :: upTo sz c j sub (b + sz a) (d + 1)
    else ⟨i, a, b, d⟩ :: (visits sz c sub (b + sz a) (d + 1) ++
      upTo sz c j next (b + (sz a + (sub.size sz c + c))) d)

theorem map_id_visits (F : Forest α) (b d : Nat) : (F.visits sz c b d).map Visit.id = F.ids := by
  induction F generalizing b d with
  | nil => rfl
  | node i a sub next ihs ihn => simp [visits, ids, ihs, ihn]

theorem mem_visits_bounds (hsz : ∀ a, 0 < sz a) {F : Forest α} {b d : Nat} {v : Visit α}
    (h : v ∈ F.visits sz c b d) : b ≤ v.offset ∧ v.offset < b + F.size sz c ∧ d ≤ v.depth := by
  induction F generalizing b d with
  | nil => simp [visits] at h
  | node i a sub next ihs ihn =>
    have hpos := hsz a
    simp only [visits, List.mem_cons, List.mem_append] at h
    simp only [size]
    rcases h with rfl | h | h
    · simp only
      omega
    · have := ihs h
      omega
    · have := ihn h
      omega

theorem length_visits_le (hsz : ∀ a, 0 < sz a) (F : Forest α) (b d : Nat) :
    (F.visits sz c b d).length ≤ F.size sz c := by
  induction F generalizing b d with
  | nil => exact Nat.le_refl _
  | node i a sub next ihs ihn =>
    have hpos := hsz a
    have hs := ihs (b + sz a) (d + 1)
    have hx := ihn (b + (sz a + (sub.size sz c + c))) d
    simp only [visits, List.length_cons, List.length_append, size]
    omega

theorem pairwise_visits (hsz : ∀ a, 0 < sz a) (F : Forest α) (b d : Nat) :
    (F.visits sz c b d).Pairwise fun v w => v.offset < w.offset := by
  induction F generalizing b d with
  | nil => simp [visits]
  | node i a sub next ihs ihn =>
    have hpos := hsz a
    simp only [visits, List.pairwise_cons, List.pairwise_append, List.mem_append]
    refine ⟨fun v hv => ?_, ihs _ _, ihn _ _, fun v hv w hw => ?_⟩
    · rcases hv with hv | hv
      · have := mem_visits_bounds hsz hv
        omega
      · have := mem_visits_bounds hsz hv
        omega
    · have h₁ := mem_visits_bounds hsz hv
      have h₂ := mem_visits_bounds hsz hw
      omega

theorem mem_visits {F : Forest α} (hn : F.ids.Nodup) {b d : Nat} {v : Visit α}
    (h : v ∈ F.visits sz c b d) :
    F.get? v.id = some v.val ∧ ∃ o, F.offset sz c v.id = some o ∧ v.offset = b + o := by
  induction F generalizing b d with
  | nil => simp [visits] at h
  | node i a sub next ihs ihn =>
    obtain ⟨his, hin, hns, hnn, hd⟩ := nodup_ids_node.mp hn
    simp only [visits, List.mem_cons, List.mem_append] at h
    rcases h with rfl | h | h
    · simp [get?, find?, offset]
    · obtain ⟨hget, o, ho, hb⟩ := ihs hns h
      have hi : i ≠ v.id := fun e => his (e ▸ mem_of_get? hget)
      obtain ⟨s, hf⟩ := find?_of_get? hget
      refine ⟨by simp [get?, find?, hi, hf], sz a + o, by simp [offset, hi, ho], by omega⟩
    · obtain ⟨hget, o, ho, hb⟩ := ihn hnn h
      have hmem := mem_of_get? hget
      have hi : i ≠ v.id := fun e => hin (e ▸ hmem)
      have hs : v.id ∉ sub.ids := fun hx => hd _ hx hmem
      obtain ⟨s, hf⟩ := find?_of_get? hget
      refine ⟨by simp [get?, find?, hi, find?_eq_none hs, hf],
        sz a + (sub.size sz c + c) + o, by simp [offset, hi, offset_eq_none hs, ho], by omega⟩

theorem lineage_of_not_mem {F : Forest α} {j : Nat} (h : j ∉ F.ids) (b d : Nat) :
    F.lineage sz c j b d = [] := by
  induction F generalizing b d with
  | nil => rfl
  | node i a sub next ihs ihn =>
    simp only [ids, List.mem_cons, List.mem_append, not_or] at h
    simp [lineage, Ne.symm h.1, ihs h.2.1, ihn h.2.2]

theorem lineage_ne_nil {F : Forest α} {j : Nat} (h : j ∈ F.ids) (b d : Nat) :
    F.lineage sz c j b d ≠ [] := by
  induction F generalizing b d with
  | nil => simp [ids] at h
  | node i a sub next ihs ihn =>
    by_cases hi : i = j
    · simp [lineage, hi]
    · simp only [ids, List.mem_cons, List.mem_append, Ne.symm hi, false_or] at h
      simp only [lineage, hi, if_false]
      split
      · rename_i hs
        rcases h with h | h
        · exact absurd hs (ihs h _ _)
        · exact ihn h _ _
      · simp

theorem lineage_subset (F : Forest α) (j b d : Nat) : F.lineage sz c j b d ⊆ F.visits sz c b d := by
  induction F generalizing b d with
  | nil => simp [lineage]
  | node i a sub next ihs ihn =>
    have hs := ihs (b + sz a) (d + 1)
    have hx := ihn (b + (sz a + (sub.size sz c + c))) d
    intro v hv
    simp only [visits, List.mem_cons, List.mem_append]
    by_cases hi : i = j
    · simp only [lineage, hi, if_true, List.mem_singleton] at hv
      exact Or.inl (hi ▸ hv)
    · simp only [lineage, hi, if_false] at hv
      split at hv
      · exact Or.inr (Or.inr (hx hv))
      · rename_i w ws hw
        rw [← hw, List.mem_cons] at hv
        exact hv.imp_right fun hv => Or.inl (hs hv)

section Cases

variable {i j : Nat} {a : α} {sub next : Forest α}

theorem lineage_self (b d : Nat) : (node j a sub next).lineage sz c j b d = [⟨j, a, b, d⟩] := by
  simp [lineage]

theorem lineage_sub (hi : i ≠ j) (hj : j ∈ sub.ids) (b d : Nat) :
    (node i a sub next).lineage sz c j b d =
      ⟨i, a, b, d⟩ :: sub.lineage sz c j (b + sz a) (d + 1) := by
  have hne : sub.lineage sz c j (b + sz a) (d + 1) ≠ [] := lineage_ne_nil hj _ _
  obtain ⟨v, vs, hv⟩ := List.exists_cons_of_ne_nil hne
  simp [lineage, hi, hv]

theorem lineage_next (hi : i ≠ j) (hj : j ∉ sub.ids) (b d : Nat) :
    (node i a sub next).lineage sz c j b d =
      next.lineage sz c j (b + (sz a + (sub.size sz c + c))) d := by
  simp [lineage, hi, lineage_of_not_mem hj]

end Cases

theorem lineage_depth {F : Forest α} {j b d k : Nat} {v : Visit α}
    (h : (F.lineage sz c j b d)[k]? = some v) : v.depth = d + k := by
  induction F generalizing b d k with
  | nil => simp [lineage] at h
  | node i a sub next ihs ihn =>
    by_cases hi : i = j
    · subst hi
      rw [lineage_self] at h
      obtain ⟨rfl, rfl⟩ : k = 0 ∧ (⟨i, a, b, d⟩ : Visit α) = v := by
        cases k with
        | zero => exact ⟨rfl, by simpa using h⟩
        | succ k => simp at h
      simp
    · by_cases hj : j ∈ sub.ids
      · rw [lineage_sub hi hj] at h
        cases k with
        | zero =>
          obtain rfl : (⟨i, a, b, d⟩ : Visit α) = v := by simpa using h
          simp
        | succ k =>
          have := ihs (by simpa using h)
          omega
      · rw [lineage_next hi hj] at h
        exact ihn h

theorem upTo_spec {F : Forest α} (hn : F.ids.Nodup) {j : Nat} (hj : j ∈ F.ids) (b d : Nat) :
    ∃ v l₁ l₂ vs, v.id = j ∧ F.visits sz c b d = l₁ ++ v :: l₂ ∧ F.upTo sz c j b d = l₁ ++ [v] ∧
      F.lineage sz c j b d = vs ++ [v] := by
  induction F generalizing b d with
  | nil => simp [ids] at hj
  | node i a sub next ihs ihn =>
    obtain ⟨his, hin, hns, hnn, hd⟩ := nodup_ids_node.mp hn
    by_cases hi : i = j
    · subst hi
      exact ⟨⟨i, a, b, d⟩, [], _, [], rfl, rfl, by simp [upTo], by simp [lineage_self]⟩
    · simp only [ids, List.mem_cons, List.mem_append, Ne.symm hi, false_or] at hj
      by_cases hs : j ∈ sub.ids
      · obtain ⟨v, l₁, l₂, vs, hv, h₁, h₂, h₃⟩ := ihs hns hs (b + sz a) (d + 1)
        refine ⟨v, ⟨i, a, b, d⟩ :: l₁, l₂ ++ next.visits sz c (b + (sz a + (sub.size sz c + c))) d,
          ⟨i, a, b, d⟩ :: vs, hv, ?_, ?_, ?_⟩
        · rw [visits, h₁]
          simp only [List.append_assoc, List.cons_append]
        · simp [upTo, hi, hs, h₂]
        · simp [lineage_sub hi hs, h₃]
      · obtain ⟨v, l₁, l₂, vs, hv, h₁, h₂, h₃⟩ := ihn hnn (hj.resolve_left hs)
          (b + (sz a + (sub.size sz c + c))) d
        refine ⟨v, ⟨i, a, b, d⟩ :: (sub.visits sz c (b + sz a) (d + 1) ++ l₁), l₂, vs, hv, ?_, ?_, ?_⟩
        · simp [visits, h₁]
        · simp [upTo, hi, hs, h₂]
        · rw [lineage_next hi hs, h₃]

theorem lineage_kid {F : Forest α} (hn : F.ids.Nodup) {i j : Nat} (h : j ∈ F.kids i) (b d : Nat) :
    ∃ v, v.id = j ∧ F.lineage sz c j b d = F.lineage sz c i b d ++ [v] := by
  induction F generalizing b d with
  | nil => simp [kids, find?] at h
  | node k a sub next ihs ihn =>
    obtain ⟨hks, hkn, hns, hnn, hd⟩ := nodup_ids_node.mp hn
    by_cases hk : k = i
    · subst hk
      simp only [kids, find?, if_true] at h
      have hroot : ∀ (G : Forest α) (b d : Nat), G.ids.Nodup → j ∈ G.roots.map Prod.fst →
          ∃ v, v.id = j ∧ G.lineage sz c j b d = [v] := by
        intro G
        induction G with
        | nil => simp [roots]
        | node m b' s n _ ihn' =>
          intro b d hG hj
          obtain ⟨hms, hmn, -, hGn, hd'⟩ := nodup_ids_node.mp hG
          by_cases hm : m = j
          · subst hm
            exact ⟨_, rfl, lineage_self b d⟩
          · have hj' : j ∈ n.roots.map Prod.fst := by
              simpa [roots, Ne.symm hm] using hj
            obtain ⟨r, hr, rfl⟩ := List.mem_map.mp hj'
            have hjn : r.1 ∈ n.ids := mem_of_get? (get?_of_mem_roots hGn (b := r.2) hr)
            rw [lineage_next hm fun hx => hd' _ hx hjn]
            exact ihn' _ _ hGn hj'
      obtain ⟨r, hr, rfl⟩ := List.mem_map.mp h
      have hjs : r.1 ∈ sub.ids := mem_of_get? (get?_of_mem_roots hns (b := r.2) hr)
      obtain ⟨v, hv, hl⟩ := hroot sub (b + sz a) (d + 1) hns h
      refine ⟨v, hv, ?_⟩
      have hne : k ≠ r.1 := fun e => hks (e ▸ hjs)
      rw [lineage_sub hne hjs, hl, lineage_self]
      rfl
    · have hkids : (node k a sub next).kids i = if i ∈ sub.ids then sub.kids i else next.kids i := by
        simp only [kids, find?, hk, if_false]
        by_cases hi : i ∈ sub.ids
        · obtain ⟨r, hr⟩ := find?_isSome hi
          simp [hi, hr]
        · simp [hi, find?_eq_none hi]
      rw [hkids] at h
      by_cases hi : i ∈ sub.ids
      · rw [if_pos hi] at h
        obtain ⟨v, hv, hl⟩ := ihs hns h (b + sz a) (d + 1)
        obtain ⟨b', hb'⟩ := get?_of_mem_kids hns h
        have hjs := mem_of_get? hb'
        refine ⟨v, hv, ?_⟩
        have hne : k ≠ j := fun e => hks (e ▸ hjs)
        rw [lineage_sub hne hjs, lineage_sub hk hi, hl]
        rfl
      · rw [if_neg hi] at h
        obtain ⟨v, hv, hl⟩ := ihn hnn h (b + (sz a + (sub.size sz c + c))) d
        obtain ⟨b', hb'⟩ := get?_of_mem_kids hnn h
        have hjn := mem_of_get? hb'
        refine ⟨v, hv, ?_⟩
        have hne : k ≠ j := fun e => hkn (e ▸ hjn)
        rw [lineage_next hne (fun hx => hd _ hx hjn), lineage_next hk hi, hl]

theorem mem_ids_of_mem_kids {F : Forest α} {i j : Nat} (h : j ∈ F.kids i) : i ∈ F.ids := by
  unfold kids at h
  split at h
  · rename_i hf
    exact mem_ids_of_find? hf
  · simp at h

theorem root_or_kid {F : Forest α} (hn : F.ids.Nodup) {j : Nat} (hj : j ∈ F.ids) :
    j ∈ F.roots.map Prod.fst ∨ ∃ i, j ∈ F.kids i := by
  induction F with
  | nil => simp [ids] at hj
  | node k a sub next ihs ihn =>
    obtain ⟨hks, hkn, hns, hnn, hd⟩ := nodup_ids_node.mp hn
    simp only [ids, List.mem_cons, List.mem_append] at hj
    rcases hj with rfl | hj | hj
    · exact Or.inl (by simp [roots])
    · refine Or.inr ?_
      rcases ihs hns hj with h | ⟨i, hi⟩
      · exact ⟨k, by simpa [kids, find?] using h⟩
      · refine ⟨i, ?_⟩
        unfold kids at hi ⊢
        cases hf : sub.find? i with
        | none => simp [hf] at hi
        | some r =>
          have hne : k ≠ i := fun e => hks (e ▸ mem_ids_of_find? hf)
          simpa [find?, hne, hf] using hi
    · rcases ihn hnn hj with h | ⟨i, hi⟩
      · exact Or.inl (by simpa [roots] using Or.inr h)
      · refine Or.inr ⟨i, ?_⟩
        unfold kids at hi ⊢
        cases hf : next.find? i with
        | none => simp [hf] at hi
        | some r =>
          have hmem := mem_ids_of_find? hf
          have hne : k ≠ i := fun e => hkn (e ▸ hmem)
          have hsub : sub.find? i = none := find?_eq_none fun hx => hd i hx hmem
          simpa [find?, hne, hsub, hf] using hi

structure Layered {σ : Type u} (E : Nat → σ → σ → Prop) (upd : σ → Visit α → σ) : Prop where
  refl (d : Nat) (s : σ) : E d s s
  trans {d : Nat} {s t r : σ} : E d s t → E d t r → E d s r
  weaken {d : Nat} {s t : σ} : E (d + 1) s t → E d s t
  keep (v : Visit α) (s : σ) : E v.depth (upd s v) s
  step {v : Visit α} {s t : σ} : E v.depth s t → E (v.depth + 1) (upd s v) (upd t v)

namespace Layered

variable {σ : Type u} {E : Nat → σ → σ → Prop} {upd : σ → Visit α → σ}

theorem visits (h : Layered E upd) (F : Forest α) (b d : Nat) (s : σ) :
    E d ((F.visits sz c b d).foldl upd s) s := by
  induction F generalizing b d s with
  | nil => exact h.refl d s
  | node i a sub next ihs ihn =>
    simp only [Forest.visits, List.foldl_cons, List.foldl_append]
    refine h.trans (ihn _ d _) ?_
    exact h.trans (h.weaken (ihs _ (d + 1) _)) (h.keep ⟨i, a, b, d⟩ s)

theorem congr (h : Layered E upd) {F : Forest α} {j b d : Nat} {s t : σ} (hj : j ∈ F.ids)
    (hst : E d s t) (hn : F.ids.Nodup) {v : Visit α} (hv : v ∈ F.visits sz c b d) (hvj : v.id = j) :
    E (v.depth + 1) ((F.upTo sz c j b d).foldl upd s) ((F.lineage sz c j b d).foldl upd t) := by
  induction F generalizing b d s t with
  | nil => simp [ids] at hj
  | node i a sub next ihs ihn =>
    obtain ⟨his, hin, hns, hnn, hd⟩ := nodup_ids_node.mp hn
    simp only [Forest.visits, List.mem_cons, List.mem_append] at hv
    by_cases hi : i = j
    · subst hi
      have hvi : v = ⟨i, a, b, d⟩ := by
        rcases hv with rfl | hv | hv
        · rfl
        · exact absurd (mem_of_get? (mem_visits hns hv).1) (hvj ▸ his)
        · exact absurd (mem_of_get? (mem_visits hnn hv).1) (hvj ▸ hin)
      subst hvi
      simpa [upTo, lineage_self] using h.step (v := ⟨i, a, b, d⟩) hst
    · have hvne : v ≠ ⟨i, a, b, d⟩ := fun e => hi (by rw [← hvj, e])
      simp only [ids, List.mem_cons, List.mem_append, Ne.symm hi, false_or] at hj
      by_cases hs : j ∈ sub.ids
      · have hvs : v ∈ sub.visits sz c (b + sz a) (d + 1) := by
          rcases hv with rfl | hv | hv
          · exact absurd rfl hvne
          · exact hv
          · exact absurd (mem_of_get? (mem_visits hnn hv).1) (hd _ (hvj ▸ hs))
        simp only [upTo, hi, hs, if_false, if_true, List.foldl_cons, lineage_sub hi hs]
        exact ihs hs (h.step (v := ⟨i, a, b, d⟩) hst) hns hvs
      · have hjn := hj.resolve_left hs
        have hvn : v ∈ next.visits sz c (b + (sz a + (sub.size sz c + c))) d := by
          rcases hv with rfl | hv | hv
          · exact absurd rfl hvne
          · exact absurd (hvj ▸ mem_of_get? (mem_visits hns hv).1) hs
          · exact hv
        simp only [upTo, hi, hs, if_false, List.foldl_cons, List.foldl_append, lineage_next hi hs]
        refine ihn hjn ?_ hnn hvn
        refine h.trans (h.weaken (h.visits sub _ (d + 1) _)) ?_
        exact h.trans (h.keep ⟨i, a, b, d⟩ s) hst

end Layered

end Babelfish.Forest
