import Mathlib.Data.List.Basic

/-! Association lists in which the first entry of a key counts. -/

universe u v

namespace Babelfish.Assoc

variable {κ : Type u} {ν : Type v} [BEq κ]

/-- Replaces the value of a key that is there by `f` of it, or puts the key in front with `d`. -/
def upsert (k : κ) (f : ν → ν) (d : ν) (l : List (κ × ν)) : List (κ × ν) :=
  if (l.lookup k).isSome then adjust l else (k, d) :: l
where
  adjust : List (κ × ν) → List (κ × ν)
    | [] => []
    | p :: l => if p.1 == k then (p.1, f p.2) :: l else p :: adjust l

theorem upsert_of_none {k : κ} {f : ν → ν} {d : ν} {l : List (κ × ν)} (h : l.lookup k = none) :
    upsert k f d l = (k, d) :: l := by simp [upsert, h]

variable [LawfulBEq κ]

theorem exists_of_lookup {k : κ} {v : ν} {l : List (κ × ν)} (h : l.lookup k = some v) :
    ∃ l₁ l₂, l = l₁ ++ (k, v) :: l₂ ∧ l₁.lookup k = none := by
  induction l with
  | nil => simp at h
  | cons p l ih =>
    by_cases hp : k = p.1
    · subst hp
      rw [List.lookup_cons, beq_self_eq_true] at h
      have hv : p.2 = v := Option.some.inj h
      exact ⟨[], l, by simp [← hv], rfl⟩
    · have hb : (k == p.1) = false := by simpa using hp
      rw [List.lookup_cons, hb] at h
      obtain ⟨l₁, l₂, rfl, h₁⟩ := ih h
      exact ⟨p :: l₁, l₂, rfl, by rw [List.lookup_cons, hb]; exact h₁⟩

theorem lookup_append_of_none {k : κ} {l₁ : List (κ × ν)} (h : l₁.lookup k = none)
    (l₂ : List (κ × ν)) : (l₁ ++ l₂).lookup k = l₂.lookup k := by
  induction l₁ with
  | nil => rfl
  | cons p l ih =>
    rw [List.lookup_cons] at h
    rw [List.cons_append, List.lookup_cons]
    cases hb : k == p.1 with
    | true => simp [hb] at h
    | false => exact ih (by simpa [hb] using h)

theorem upsert_append {k : κ} {f : ν → ν} {d v : ν} {l₁ l₂ : List (κ × ν)}
    (h : l₁.lookup k = none) :
    upsert k f d (l₁ ++ (k, v) :: l₂) = l₁ ++ (k, f v) :: l₂ := by
  have hs : ((l₁ ++ (k, v) :: l₂).lookup k).isSome = true := by
    simp [lookup_append_of_none h]
  simp only [upsert, hs, if_true]
  clear hs
  induction l₁ with
  | nil => simp [upsert.adjust]
  | cons p l ih =>
    rw [List.lookup_cons] at h
    cases hb : k == p.1 with
    | true => simp [hb] at h
    | false =>
      have hp : p.1 ≠ k := fun e => by simp [e] at hb
      simp [upsert.adjust, hp, ih (by simpa [hb] using h)]

theorem lookup_upsert_self (k : κ) (f : ν → ν) (d : ν) (l : List (κ × ν)) :
    (upsert k f d l).lookup k = some (((l.lookup k).map f).getD d) := by
  cases h : l.lookup k with
  | none => simp [upsert_of_none h]
  | some v =>
    obtain ⟨l₁, l₂, rfl, h₁⟩ := exists_of_lookup h
    simp [upsert_append h₁, lookup_append_of_none h₁]

theorem lookup_upsert_of_ne {k k' : κ} (hk : k' ≠ k) (f : ν → ν) (d : ν) (l : List (κ × ν)) :
    (upsert k f d l).lookup k' = l.lookup k' := by
  have hb : (k' == k) = false := by simpa using hk
  cases h : l.lookup k with
  | none => rw [upsert_of_none h, List.lookup_cons, hb]
  | some v =>
    obtain ⟨l₁, l₂, rfl, h₁⟩ := exists_of_lookup h
    rw [upsert_append h₁]
    clear h h₁
    induction l₁ with
    | nil => rw [List.nil_append, List.nil_append, List.lookup_cons, List.lookup_cons, hb]
    | cons p l ih => rw [List.cons_append, List.cons_append, List.lookup_cons, List.lookup_cons, ih]

end Babelfish.Assoc
