import Mathlib.Data.List.Nodup
import Mathlib.Data.List.Induction

/-! The distinct elements of a list, by first occurrence, and the partition of a list by the values of a
function. -/

universe u v

namespace Babelfish.Distinct

variable {α : Type u} {β : Type v}

section

variable [BEq α] [LawfulBEq α]

theorem eraseDups_concat (l : List α) (a : α) :
    (l ++ [a]).eraseDups = if a ∈ l then l.eraseDups else l.eraseDups ++ [a] := by
  rw [List.eraseDups_append]
  by_cases h : a ∈ l
  · simp [List.removeAll, h]
  · simp [List.removeAll, h, List.eraseDups_cons]

theorem length_eraseDups_le (l : List α) :
    l.eraseDups.length ≤ l.length := by
  induction l using List.reverseRecOn with
  | nil => simp
  | append_singleton l a ih =>
    rw [eraseDups_concat]
    split
    · simp only [List.length_append, List.length_singleton]
      omega
    · simpa using ih

theorem nodup_eraseDups (l : List α) : l.eraseDups.Nodup := by
  induction l using List.reverseRecOn with
  | nil => simp
  | append_singleton l a ih =>
    rw [eraseDups_concat]
    split
    · exact ih
    · rename_i h
      rw [List.nodup_append]
      refine ⟨ih, List.nodup_singleton a, fun b hb c hc e => h ?_⟩
      rw [List.mem_singleton] at hc
      exact List.mem_eraseDups.mp (hc ▸ e ▸ hb)

end

theorem flatMap_filter_perm [BEq β] [LawfulBEq β] (f : α → β) {bs : List β} (hbs : bs.Nodup)
    {l : List α} (hl : ∀ a ∈ l, f a ∈ bs) :
    (bs.flatMap fun b => l.filter fun a => f a == b).Perm l := by
  induction bs generalizing l with
  | nil =>
    cases l with
    | nil => exact List.Perm.refl _
    | cons a l => exact absurd (hl a List.mem_cons_self) List.not_mem_nil
  | cons b bs ih =>
    obtain ⟨hb, hbs⟩ := List.nodup_cons.mp hbs
    have hrest : ∀ a ∈ l.filter (fun a => !(f a == b)), f a ∈ bs := fun a ha => by
      rw [List.mem_filter] at ha
      rcases List.mem_cons.mp (hl a ha.1) with e | h
      · simp [e] at ha
      · exact h
    have hclass : bs.flatMap (fun c => (l.filter fun a => !(f a == b)).filter fun a => f a == c) =
        bs.flatMap fun c => l.filter fun a => f a == c := by
      refine List.flatMap_congr fun c hc => ?_
      have hbc : b ≠ c := fun e => hb (e ▸ hc)
      rw [List.filter_filter]
      refine List.filter_congr fun a _ => ?_
      by_cases ha : f a = c
      · simp [ha, hbc.symm]
      · simp [ha]
    rw [List.flatMap_cons, ← hclass]
    exact ((ih hbs hrest).append_left _).trans (List.filter_append_perm _ l)

theorem eraseDups_flatMap_perm [BEq β] [LawfulBEq β] (f : α → β) (l : List α) :
    ((l.map f).eraseDups.flatMap fun b => l.filter fun a => f a == b).Perm l :=
  flatMap_filter_perm f (nodup_eraseDups _) fun _ ha =>
    List.mem_eraseDups.mpr (List.mem_map_of_mem ha)

theorem flatMap_of_unique {γ : Type*} {l : List α} {key : α → β} {f : α → List γ}
    (hn : (l.map key).Nodup) {a : α} (ha : a ∈ l) (h : ∀ b ∈ l, key b ≠ key a → f b = []) :
    l.flatMap f = f a := by
  obtain ⟨s, t, rfl⟩ := List.append_of_mem ha
  rw [List.map_append, List.map_cons, List.nodup_middle, List.nodup_cons, List.mem_append] at hn
  obtain ⟨hnot, -⟩ := hn
  have hs : s.flatMap f = [] := List.flatMap_eq_nil_iff.mpr fun b hb =>
    h b (List.mem_append_left _ hb) fun e => hnot (Or.inl (e ▸ List.mem_map_of_mem hb))
  have ht : t.flatMap f = [] := List.flatMap_eq_nil_iff.mpr fun b hb =>
    h b (List.mem_append_right _ (List.mem_cons_of_mem _ hb)) fun e =>
      hnot (Or.inr (e ▸ List.mem_map_of_mem hb))
  rw [List.flatMap_append, List.flatMap_cons, hs, ht, List.nil_append, List.append_nil]

end Babelfish.Distinct
