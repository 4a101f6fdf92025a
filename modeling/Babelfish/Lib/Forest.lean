import Mathlib.Data.List.Nodup
import Mathlib.Data.List.Sublists

/-! Ordered forests whose nodes carry a label, and the flat token sequences that represent them:
what a node opens, its children, and a closing token, sibling after sibling. -/

universe u v

namespace Babelfish

/-- The siblings of a tree level in order; every node has its own children and its successors. -/
inductive Forest (α : Type u) : Type u
  | nil : Forest α
  | node (id : Nat) (a : α) (sub next : Forest α) : Forest α
  deriving DecidableEq

namespace Forest

variable {α : Type u}

def ids : Forest α → List Nat
  | nil => []
  | node i _ sub next => i :: (sub.ids ++ next.ids)

def roots : Forest α → List (Nat × α)
  | nil => []
  | node i a _ next => (i, a) :: next.roots

def find? (id : Nat) : Forest α → Option (α × Forest α)
  | nil => none
  | node i a sub next =>
    if i = id then some (a, sub) else
      match find? id sub with
      | some r => some r
      | none => find? id next

def update (id : Nat) (f : α → Forest α → α × Forest α) : Forest α → Forest α
  | nil => nil
  | node i a sub next =>
    if i = id then node i (f a sub).1 (f a sub).2 next
    else node i a (update id f sub) (update id f next)

def modify (id : Nat) (g : α → α) : Forest α → Forest α := update id fun a sub => (g a, sub)

def addFirst (id new : Nat) (b : α) : Forest α → Forest α :=
  update id fun a sub => (a, node new b nil sub)

theorem find?_eq_none {id : Nat} {F : Forest α} (h : id ∉ F.ids) : F.find? id = none := by
  induction F with
  | nil => rfl
  | node i a sub next ihs ihn =>
    simp only [ids, List.mem_cons, List.mem_append, not_or] at h
    simp [find?, Ne.symm h.1, ihs h.2.1, ihn h.2.2]

theorem mem_ids_of_find? {id : Nat} {F : Forest α} {r} (h : F.find? id = some r) :
    id ∈ F.ids := by
  by_contra hn
  simp [find?_eq_none hn] at h

theorem find?_isSome {id : Nat} {F : Forest α} (h : id ∈ F.ids) : ∃ r, F.find? id = some r := by
  induction F with
  | nil => simp [ids] at h
  | node i a sub next ihs ihn =>
    by_cases hi : i = id
    · exact ⟨(a, sub), by simp [find?, hi]⟩
    · simp only [ids, List.mem_cons, List.mem_append, Ne.symm hi, false_or] at h
      simp only [find?, hi, if_false]
      cases hs : sub.find? id with
      | some r => exact ⟨r, rfl⟩
      | none =>
        rcases h with h | h
        · obtain ⟨r, hr⟩ := ihs h
          simp [hs] at hr
        · exact ihn h

theorem not_mem_ids_of_find? {id : Nat} {F : Forest α} (h : F.find? id = none) : id ∉ F.ids := fun hm => by
  obtain ⟨r, hr⟩ := find?_isSome hm
  simp [h] at hr

theorem update_of_not_mem {id : Nat} {F : Forest α} (f) (h : id ∉ F.ids) : F.update id f = F := by
  induction F with
  | nil => rfl
  | node i a sub next ihs ihn =>
    simp only [ids, List.mem_cons, List.mem_append, not_or] at h
    simp [update, Ne.symm h.1, ihs h.2.1, ihn h.2.2]

/-- The labels of a node with distinct labels below and after it, as one simp normal form. -/
theorem nodup_ids_node {i : Nat} {a : α} {sub next : Forest α} :
    (node i a sub next).ids.Nodup ↔
      i ∉ sub.ids ∧ i ∉ next.ids ∧ sub.ids.Nodup ∧ next.ids.Nodup ∧
        ∀ j ∈ sub.ids, j ∉ next.ids := by
  simp only [ids, List.nodup_cons, List.mem_append, not_or, List.nodup_append]
  constructor
  · rintro ⟨⟨h1, h2⟩, h3, h4, h5⟩
    exact ⟨h1, h2, h3, h4, fun j hj hj' => h5 j hj j hj' rfl⟩
  · rintro ⟨h1, h2, h3, h4, h5⟩
    exact ⟨⟨h1, h2⟩, h3, h4, fun j hj k hk e => h5 j hj (e ▸ hk)⟩

theorem update_const {id : Nat} {F : Forest α} {a : α} {sub : Forest α} (hn : F.ids.Nodup)
    (h : F.find? id = some (a, sub)) (f : α → Forest α → α × Forest α) :
    F.update id f = F.update id fun _ _ => f a sub := by
  induction F with
  | nil => rfl
  | node i b s n ihs ihn =>
    rw [nodup_ids_node] at hn
    obtain ⟨-, -, hns, hnn, hd⟩ := hn
    by_cases hi : i = id
    · simp only [find?, hi, if_true, Option.some.injEq, Prod.mk.injEq] at h
      obtain ⟨rfl, rfl⟩ := h
      simp [update, hi]
    · simp only [find?, hi, if_false] at h
      simp only [update, hi, if_false]
      cases hs : s.find? id with
      | some r =>
        simp only [hs, Option.some.injEq] at h
        subst h
        have hmem := hd id (mem_ids_of_find? hs)
        rw [ihs hns hs, update_of_not_mem f hmem, update_of_not_mem _ hmem]
      | none =>
        simp only [hs] at h
        have hmem : id ∉ s.ids := not_mem_ids_of_find? hs
        rw [ihn hnn h, update_of_not_mem f hmem, update_of_not_mem _ hmem]

theorem modify_congr {id : Nat} {F : Forest α} {a : α} {sub : Forest α} (hn : F.ids.Nodup)
    (h : F.find? id = some (a, sub)) {g : α → α} (g' : α → α) (hg : g a = g' a) :
    F.modify id g = F.modify id g' := by
  unfold modify
  rw [update_const hn h, update_const hn h (fun a sub => (g' a, sub)), hg]

@[simp] theorem ids_modify (id : Nat) (g : α → α) (F : Forest α) : (F.modify id g).ids = F.ids := by
  induction F with
  | nil => rfl
  | node i a sub next ihs ihn =>
    simp only [modify] at ihs ihn ⊢
    by_cases hi : i = id
    · simp [update, hi, ids]
    · simp [update, hi, ids, ihs, ihn]

@[simp] theorem modify_node_self (i : Nat) (a : α) (sub next : Forest α) (g : α → α) :
    (node i a sub next).modify i g = node i (g a) sub next := by simp [modify, update]

theorem modify_node_of_ne {i id : Nat} (h : i ≠ id) (a : α) (sub next : Forest α) (g : α → α) :
    (node i a sub next).modify id g = node i a (sub.modify id g) (next.modify id g) := by
  simp [modify, update, h]

theorem addFirst_node_of_ne {i id : Nat} (h : i ≠ id) (a : α) (sub next : Forest α) (n : Nat)
    (b : α) : (node i a sub next).addFirst id n b =
      node i a (sub.addFirst id n b) (next.addFirst id n b) := by
  simp [addFirst, update, h]

theorem modify_modify (i : Nat) (g h : α → α) (F : Forest α) :
    (F.modify i g).modify i h = F.modify i (h ∘ g) := by
  induction F with
  | nil => rfl
  | node k a sub next ihs ihn =>
    by_cases hk : k = i
    · subst hk; simp
    · simp [modify_node_of_ne hk, ihs, ihn]

theorem modify_id (i : Nat) (F : Forest α) : F.modify i (fun a => a) = F := by
  induction F with
  | nil => rfl
  | node k a sub next ihs ihn =>
    by_cases hk : k = i
    · subst hk; simp [modify, update]
    · rw [modify_node_of_ne hk, ihs, ihn]

theorem modify_comm {i j : Nat} (hij : i ≠ j) (g h : α → α) (F : Forest α) :
    (F.modify i g).modify j h = (F.modify j h).modify i g := by
  induction F with
  | nil => rfl
  | node k a sub next ihs ihn =>
    by_cases hi : k = i
    · subst hi; simp [modify_node_of_ne hij]
    · by_cases hj : k = j
      · subst hj; simp [modify_node_of_ne hi]
      · simp [modify_node_of_ne hi, modify_node_of_ne hj, ihs, ihn]

theorem addFirst_of_not_mem {id : Nat} {F : Forest α} (h : id ∉ F.ids) (n : Nat) (b : α) :
    F.addFirst id n b = F := update_of_not_mem _ h

theorem modify_of_not_mem {id : Nat} {F : Forest α} (h : id ∉ F.ids) (g : α → α) :
    F.modify id g = F := update_of_not_mem _ h

theorem ids_addFirst {id : Nat} {F : Forest α} (hn : F.ids.Nodup) (h : id ∈ F.ids) (n : Nat)
    (b : α) : ∃ l₁ l₂, F.ids = l₁ ++ id :: l₂ ∧ (F.addFirst id n b).ids = l₁ ++ id :: n :: l₂ := by
  induction F with
  | nil => simp [ids] at h
  | node i a sub next ihs ihn =>
    rw [nodup_ids_node] at hn
    obtain ⟨-, -, hns, hnn, hd⟩ := hn
    by_cases hi : i = id
    · exact ⟨[], sub.ids ++ next.ids, by simp [ids, hi], by simp [addFirst, update, hi, ids]⟩
    · simp only [ids, List.mem_cons, List.mem_append, Ne.symm hi, false_or] at h
      rw [addFirst_node_of_ne hi]
      rcases h with h | h
      · obtain ⟨l₁, l₂, h₁, h₂⟩ := ihs hns h
        refine ⟨i :: l₁, l₂ ++ next.ids, by simp [ids, h₁], ?_⟩
        simp [ids, h₂, addFirst_of_not_mem (hd id h)]
      · obtain ⟨l₁, l₂, h₁, h₂⟩ := ihn hnn h
        have hmem : id ∉ sub.ids := fun hm => hd id hm h
        refine ⟨i :: (sub.ids ++ l₁), l₂, by simp [ids, h₁], ?_⟩
        simp [ids, h₂, addFirst_of_not_mem hmem]

theorem nodup_addFirst {id n : Nat} {F : Forest α} (hn : F.ids.Nodup) (hfresh : n ∉ F.ids)
    (b : α) : (F.addFirst id n b).ids.Nodup := by
  by_cases h : id ∈ F.ids
  · obtain ⟨l₁, l₂, h₁, h₂⟩ := ids_addFirst hn h n b
    rw [h₁] at hn hfresh
    rw [h₂]
    have hperm : (l₁ ++ id :: n :: l₂).Perm (n :: (l₁ ++ id :: l₂)) := by
      rw [← List.singleton_append, ← List.append_assoc]
      simpa using @List.perm_middle _ n (l₁ ++ [id]) l₂
    exact hperm.nodup_iff.mpr (List.nodup_cons.mpr ⟨hfresh, hn⟩)
  · rwa [addFirst_of_not_mem h]

theorem ids_subset_of_find? {id : Nat} {F : Forest α} {a : α} {s : Forest α}
    (h : F.find? id = some (a, s)) : s.ids ⊆ F.ids := by
  induction F with
  | nil => simp [find?] at h
  | node i b sub next ihs ihn =>
    intro j hj
    by_cases hi : i = id
    · simp only [find?, hi, if_true, Option.some.injEq, Prod.mk.injEq] at h
      simp [ids, h.2, hj]
    · simp only [find?, hi, if_false] at h
      cases hs : sub.find? id with
      | some r =>
        simp only [hs, Option.some.injEq] at h
        subst h
        simp [ids, ihs hs hj]
      | none =>
        simp only [hs] at h
        simp [ids, ihn h hj]

theorem nodup_of_find? {id : Nat} {F : Forest α} {a : α} {s : Forest α} (hn : F.ids.Nodup)
    (h : F.find? id = some (a, s)) : s.ids.Nodup := by
  induction F with
  | nil => simp [find?] at h
  | node i b sub next ihs ihn =>
    obtain ⟨-, -, hns, hnn, -⟩ := nodup_ids_node.mp hn
    by_cases hi : i = id
    · simp only [find?, hi, if_true, Option.some.injEq, Prod.mk.injEq] at h
      exact h.2 ▸ hns
    · simp only [find?, hi, if_false] at h
      cases hs : sub.find? id with
      | some r =>
        simp only [hs, Option.some.injEq] at h
        exact ihs hns (h ▸ hs)
      | none =>
        simp only [hs] at h
        exact ihn hnn h

theorem find?_modify_self {id : Nat} {F : Forest α} {a : α} {s : Forest α}
    (h : F.find? id = some (a, s)) (g : α → α) : (F.modify id g).find? id = some (g a, s) := by
  induction F with
  | nil => simp [find?] at h
  | node i b sub next ihs ihn =>
    by_cases hi : i = id
    · subst hi
      simp only [find?, if_true, Option.some.injEq, Prod.mk.injEq] at h
      simp [find?, h]
    · rw [modify_node_of_ne hi]
      simp only [find?, hi, if_false] at h ⊢
      cases hs : sub.find? id with
      | some r =>
        simp only [hs, Option.some.injEq] at h
        subst h
        simp [ihs hs]
      | none =>
        simp only [hs] at h
        have hmem : id ∉ sub.ids := not_mem_ids_of_find? hs
        simp [modify_of_not_mem hmem, hs, ihn h]

theorem find?_modify_at (i : Nat) (g : α → α) (F : Forest α) :
    (F.modify i g).find? i = (F.find? i).map fun r => (g r.1, r.2) := by
  cases hf : F.find? i with
  | none => rw [modify_of_not_mem (not_mem_ids_of_find? hf), hf, Option.map_none]
  | some r => exact find?_modify_self hf g

theorem find?_modify_of_ne {i j : Nat} (hij : i ≠ j) {F : Forest α} (hn : F.ids.Nodup)
    (g : α → α) :
    (F.modify i g).find? j = (F.find? j).map fun r => (r.1, r.2.modify i g) := by
  induction F with
  | nil => rfl
  | node k b sub next ihs ihn =>
    rw [nodup_ids_node] at hn
    obtain ⟨hks, hkn, hns, hnn, -⟩ := hn
    by_cases hk : k = i
    · subst hk
      rw [modify_node_self]
      simp only [find?, hij, if_false]
      cases hs : sub.find? j with
      | some r =>
        have hr : k ∉ r.2.ids := fun hm => hks (ids_subset_of_find? (s := r.2) hs hm)
        simp [modify_of_not_mem hr]
      | none =>
        cases hx : next.find? j with
        | some r =>
          have hr : k ∉ r.2.ids := fun hm => hkn (ids_subset_of_find? (s := r.2) hx hm)
          simp [modify_of_not_mem hr]
        | none => rfl
    · rw [modify_node_of_ne hk]
      by_cases hj : k = j
      · simp [find?, hj]
      · simp only [find?, hj, if_false]
        rw [ihs hns, ihn hnn]
        cases sub.find? j <;> simp

theorem find?_addFirst_self {id : Nat} {F : Forest α} {a : α} {s : Forest α}
    (h : F.find? id = some (a, s)) (n : Nat) (b : α) :
    (F.addFirst id n b).find? id = some (a, node n b nil s) := by
  induction F with
  | nil => simp [find?] at h
  | node i c sub next ihs ihn =>
    by_cases hi : i = id
    · subst hi
      simp only [find?, if_true, Option.some.injEq, Prod.mk.injEq] at h
      simp [addFirst, update, find?, h]
    · rw [addFirst_node_of_ne hi]
      simp only [find?, hi, if_false] at h ⊢
      cases hs : sub.find? id with
      | some r =>
        simp only [hs, Option.some.injEq] at h
        subst h
        simp [ihs hs]
      | none =>
        simp only [hs] at h
        have hmem : id ∉ sub.ids := not_mem_ids_of_find? hs
        simp [addFirst_of_not_mem hmem, hs, ihn h]

theorem find?_addFirst_new {id n : Nat} {F : Forest α} (hfresh : n ∉ F.ids) (h : id ∈ F.ids)
    (b : α) : (F.addFirst id n b).find? n = some (b, nil) := by
  induction F with
  | nil => simp [ids] at h
  | node i c sub next ihs ihn =>
    simp only [ids, List.mem_cons, List.mem_append, not_or] at h hfresh
    by_cases hi : i = id
    · have : i ≠ n := fun e => hfresh.1 e.symm
      simp [addFirst, update, find?, hi, hi ▸ this]
    · rw [addFirst_node_of_ne hi]
      simp only [find?, Ne.symm hfresh.1, if_false]
      by_cases hs : id ∈ sub.ids
      · simp [ihs hfresh.2.1 hs]
      · have hnext : id ∈ next.ids := by
          rcases h with h | h | h
          · exact absurd h.symm hi
          · exact absurd h hs
          · exact h
        simp [addFirst_of_not_mem hs, find?_eq_none hfresh.2.1, ihn hfresh.2.2 hnext]

theorem find?_addFirst_of_ne {i j n : Nat} (hij : i ≠ j) (hjn : n ≠ j) {F : Forest α}
    (hn : F.ids.Nodup) (b : α) :
    (F.addFirst i n b).find? j = (F.find? j).map fun r => (r.1, r.2.addFirst i n b) := by
  induction F with
  | nil => rfl
  | node k c sub next ihs ihn =>
    rw [nodup_ids_node] at hn
    obtain ⟨hks, hkn, hns, hnn, -⟩ := hn
    by_cases hk : k = i
    · subst hk
      have hroot : (node k c sub next).addFirst k n b = node k c (node n b nil sub) next := by
        simp [addFirst, update]
      rw [hroot]
      simp only [find?, hij, hjn, if_false]
      cases hs : sub.find? j with
      | some r =>
        have hr : k ∉ r.2.ids := fun hm => hks (ids_subset_of_find? (s := r.2) hs hm)
        simp [addFirst_of_not_mem hr]
      | none =>
        cases hx : next.find? j with
        | some r =>
          have hr : k ∉ r.2.ids := fun hm => hkn (ids_subset_of_find? (s := r.2) hx hm)
          simp [addFirst_of_not_mem hr]
        | none => rfl
    · rw [addFirst_node_of_ne hk]
      by_cases hj : k = j
      · simp [find?, hj]
      · simp only [find?, hj, if_false]
        rw [ihs hns, ihn hnn]
        cases sub.find? j <;> simp

def child? (p : α → Bool) : Forest α → Option Nat
  | nil => none
  | node i a _ next => if p a then some i else next.child? p

def walk (F : Forest α) (id : Nat) : List (α → Bool) → Option Nat
  | [] => some id
  | p :: ps =>
    match F.find? id with
    | some (_, sub) =>
      match sub.child? p with
      | some j => walk F j ps
      | none => none
    | none => none

theorem child?_mem {p : α → Bool} {F : Forest α} {j : Nat} (h : F.child? p = some j) :
    j ∈ F.ids := by
  induction F with
  | nil => simp [child?] at h
  | node i a sub next _ ihn =>
    by_cases hp : p a = true
    · simp only [child?, hp, if_true, Option.some.injEq] at h
      simp [ids, h]
    · simp only [child?, hp] at h
      simp [ids, ihn (by simpa using h)]

theorem child?_modify {p : α → Bool} {g : α → α} (hp : ∀ a, p (g a) = p a) (i : Nat)
    (F : Forest α) : (F.modify i g).child? p = F.child? p := by
  induction F with
  | nil => rfl
  | node k a sub next _ ihn =>
    by_cases hk : k = i
    · subst hk; simp [child?, hp]
    · simp [modify_node_of_ne hk, child?, ihn]

theorem child?_addFirst (p : α → Bool) (i n : Nat) (b : α) (F : Forest α) :
    (F.addFirst i n b).child? p = F.child? p := by
  induction F with
  | nil => rfl
  | node k a sub next _ ihn =>
    by_cases hk : k = i
    · subst hk; simp [addFirst, update, child?]
    · simp [addFirst_node_of_ne hk, child?, ihn]

theorem walk_modify {F : Forest α} (hn : F.ids.Nodup) {ps : List (α → Bool)} {g : α → α}
    (hp : ∀ p ∈ ps, ∀ a, p (g a) = p a) (i id : Nat) :
    (F.modify i g).walk id ps = F.walk id ps := by
  induction ps generalizing id with
  | nil => rfl
  | cons p ps ih =>
    have hps : ∀ q ∈ ps, ∀ a, q (g a) = q a := fun q hq => hp q (List.mem_cons_of_mem _ hq)
    have hchild := fun s : Forest α => child?_modify (hp p List.mem_cons_self) i s
    simp only [walk]
    by_cases hi : i = id
    · subst hi
      rw [find?_modify_at]
      cases hf : F.find? i with
      | none => rfl
      | some r =>
        cases hc : r.2.child? p with
        | none => simp [hc]
        | some j => simp [hc, ih hps]
    · rw [find?_modify_of_ne hi hn]
      cases hf : F.find? id with
      | none => rfl
      | some r =>
        simp only [Option.map_some, hchild]
        cases hc : r.2.child? p with
        | none => rfl
        | some j => exact ih hps j

theorem walk_mem {F : Forest α} {id j : Nat} {ps : List (α → Bool)} (hid : id ∈ F.ids)
    (h : F.walk id ps = some j) : j ∈ F.ids := by
  induction ps generalizing id with
  | nil =>
    simp only [walk, Option.some.injEq] at h
    exact h ▸ hid
  | cons p ps ih =>
    simp only [walk] at h
    split at h
    · rename_i a sub hf
      split at h
      · rename_i k hk
        exact ih (ids_subset_of_find? hf (child?_mem hk)) h
      · cases h
    · cases h

/-- A path that resolves keeps resolving to the same node when a leaf is added that none of the
siblings it joins could be taken for. -/
theorem walk_addFirst {F : Forest α} (hn : F.ids.Nodup) {i n : Nat} {b : α} (hfresh : n ∉ F.ids)
    {a : α} {s : Forest α} (hi : F.find? i = some (a, s)) {ps : List (α → Bool)}
    (hp : ∀ p ∈ ps, p b = true → s.child? p = none) {id j : Nat} (hid : id ∈ F.ids)
    (h : F.walk id ps = some j) : (F.addFirst i n b).walk id ps = some j := by
  induction ps generalizing id with
  | nil => exact h
  | cons p ps ih =>
    have hps : ∀ q ∈ ps, q b = true → s.child? q = none :=
      fun q hq => hp q (List.mem_cons_of_mem _ hq)
    obtain ⟨r, hr⟩ := find?_isSome hid
    simp only [walk, hr] at h ⊢
    cases hc : r.2.child? p with
    | none => simp [hc] at h
    | some k =>
      simp only [hc] at h
      have hk : k ∈ F.ids := ids_subset_of_find? (s := r.2) hr (child?_mem hc)
      by_cases hii : i = id
      · subst hii
        obtain rfl : (a, s) = r := by simpa [hi] using hr
        have hpb : p b = false := by
          by_contra hb
          simp [hp p List.mem_cons_self (by simpa using hb)] at hc
        simp [find?_addFirst_self hi, child?, hpb, hc, ih hps hk h]
      · have hne : n ≠ id := fun e => hfresh (e ▸ hid)
        simp [find?_addFirst_of_ne hii hne hn, hr, child?_addFirst, hc, ih hps hk h]

theorem walk_addFirst_eq {F : Forest α} (hn : F.ids.Nodup) {i n : Nat} {b : α} (hfresh : n ∉ F.ids)
    {ps : List (α → Bool)} (hp : ∀ p ∈ ps, p b = false) {id : Nat} (hid : id ∈ F.ids) :
    (F.addFirst i n b).walk id ps = F.walk id ps := by
  induction ps generalizing id with
  | nil => rfl
  | cons p ps ih =>
    have hps : ∀ q ∈ ps, q b = false := fun q hq => hp q (List.mem_cons_of_mem _ hq)
    have hpb := hp p List.mem_cons_self
    obtain ⟨r, hr⟩ := find?_isSome hid
    simp only [walk, hr]
    by_cases hii : i = id
    · subst hii
      rw [find?_addFirst_self (a := r.1) (s := r.2) hr]
      simp only [child?, hpb, Bool.false_eq_true, if_false]
      cases hc : r.2.child? p with
      | none => rfl
      | some k => exact ih hps (ids_subset_of_find? (s := r.2) hr (child?_mem hc))
    · have hne : n ≠ id := fun e => hfresh (e ▸ hid)
      simp only [find?_addFirst_of_ne hii hne hn, hr, Option.map_some, child?_addFirst]
      cases hc : r.2.child? p with
      | none => rfl
      | some k => exact ih hps (ids_subset_of_find? (s := r.2) hr (child?_mem hc))

end Forest

end Babelfish
