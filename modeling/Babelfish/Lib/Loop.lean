import Mathlib.Data.List.Basic

/-! Loops that go from position to position: a guard, a body that may leave the function, and the code
behind the loop. -/

universe u

namespace Babelfish

section ForLoop

variable {π σ ρ : Type u} {next : π → π}

/-- `for (; guard(p); p = next(p)) body` and what is done behind it. A body that leaves the function
does so with an error. -/
def forLoop (next : π → π) (guard : π → Bool) (body : π → σ → Except ρ σ) (after : π → σ → ρ)
    (stuck : ρ) : Nat → π → σ → ρ
  | 0, _, _ => stuck
  | fuel + 1, p, s =>
    if guard p then
      match body p s with
      | .error r => r
      | .ok s' => forLoop next guard body after stuck fuel (next p) s'
    else after p s

def turn (guard : π → Bool) (body : π → σ → Except ρ σ) (after : π → σ → ρ) (s : σ) (p : π) :
    Except ρ σ := if guard p then body p s else .error (after p s)

/-- The steps lead from `p` over the positions `ps` to `q`. -/
inductive Trace (next : π → π) : π → List π → π → Prop
  | nil (p : π) : Trace next p [] p
  | cons {p q : π} {ps : List π} : Trace next (next p) ps q → Trace next p (p :: ps) q

theorem Trace.append {p q r : π} {ps qs : List π} (h : Trace next p ps q) (h' : Trace next q qs r) :
    Trace next p (ps ++ qs) r := by
  induction h with
  | nil _ => exact h'
  | cons _ ih => exact .cons (ih h')

theorem forLoop_eq {p q : π} {ps : List π} (h : Trace next p ps q) {guard : π → Bool}
    {body : π → σ → Except ρ σ} {after : π → σ → ρ} {stuck : ρ} {fuel : Nat}
    (hfuel : ps.length ≤ fuel) (s : σ) :
    forLoop next guard body after stuck fuel p s =
      match ps.foldlM (turn guard body after) s with
      | .error r => r
      | .ok s' => forLoop next guard body after stuck (fuel - ps.length) q s' := by
  induction h generalizing fuel s with
  | nil _ => rfl
  | @cons p q ps _ ih =>
    obtain ⟨f, rfl⟩ : ∃ f, fuel = f + 1 := ⟨fuel - 1, by simp at hfuel; omega⟩
    have hf : ps.length ≤ f := by simpa using hfuel
    simp only [forLoop, List.foldlM_cons, turn, List.length_cons, Nat.add_sub_add_right]
    by_cases hg : guard p = true
    · simp only [hg, if_true]
      cases hb : body p s with
      | error r => rfl
      | ok s' => exact ih hf s'
    · simp only [hg]
      rfl

end ForLoop

theorem foldlM_turn_ok {π σ ρ : Type u} {guard : π → Bool} {body : π → σ → Except ρ σ}
    {after : π → σ → ρ} {ps : List π} {s : σ} (h : ∀ p ∈ ps, guard p = true ∧ body p s = .ok s) :
    ps.foldlM (turn guard body after) s = .ok s := by
  induction ps with
  | nil => rfl
  | cons p ps ih =>
    obtain ⟨hg, hb⟩ := h p List.mem_cons_self
    simp only [List.foldlM_cons, turn, hg, if_true, hb]
    exact ih fun q hq => h q (List.mem_cons_of_mem _ hq)

theorem foldlM_sim {α : Type u} {σ τ ρ : Type u} {f : σ → α → Except ρ σ} {g : τ → α → Except ρ τ}
    (enc : τ → σ) (inv : τ → Prop) {vs : List α}
    (h : ∀ v ∈ vs, ∀ t, inv t → f (enc t) v = (g t v).map enc ∧ ∀ t', g t v = .ok t' → inv t')
    {t : τ} (ht : inv t) :
    vs.foldlM f (enc t) = (vs.foldlM g t).map enc ∧ ∀ t', vs.foldlM g t = .ok t' → inv t' := by
  induction vs generalizing t with
  | nil => exact ⟨rfl, fun t' ht' => by cases ht'; exact ht⟩
  | cons v vs ih =>
    obtain ⟨hf, hinv⟩ := h v List.mem_cons_self t ht
    simp only [List.foldlM_cons, hf]
    cases hg : g t v with
    | error r => exact ⟨rfl, fun t' ht' => by cases ht'⟩
    | ok u => exact ih (fun w hw => h w (List.mem_cons_of_mem _ hw)) (hinv u hg)

section Seek

variable {α : Type u} {σ ρ : Type u} {key : α → Nat}

/-- A round of the search: behind the key it is over, at the key it leaves with a result. -/
def seek (key : α → Nat) (upd : σ → α → σ) (found : σ → α → ρ) (missed : ρ) (x : Int) (s : σ) (v : α) :
    Except ρ σ :=
  if (key v : Int) ≤ x then
    if (key v : Int) = x then .error (found (upd s v) v) else .ok (upd s v)
  else .error missed

variable {upd : σ → α → σ} {found : σ → α → ρ} {missed : ρ}

theorem foldlM_seek_passed {vs : List α} {x : Int} (h : ∀ v ∈ vs, (key v : Int) < x) (s : σ) :
    vs.foldlM (seek key upd found missed x) s = .ok (vs.foldl upd s) := by
  induction vs generalizing s with
  | nil => rfl
  | cons v vs ih =>
    have hv := h v List.mem_cons_self
    simp only [List.foldlM_cons, seek, if_pos (Int.le_of_lt hv), if_neg (Int.ne_of_lt hv)]
    exact ih (fun w hw => h w (List.mem_cons_of_mem _ hw)) _

theorem foldlM_seek_found {l₁ l₂ : List α} {v : α}
    (hs : (l₁ ++ v :: l₂).Pairwise fun a b => key a < key b) (s : σ) :
    (l₁ ++ v :: l₂).foldlM (seek key upd found missed (key v)) s =
      .error (found ((l₁ ++ [v]).foldl upd s) v) := by
  have hlt : ∀ w ∈ l₁, ((key w : Nat) : Int) < key v := fun w hw => by
    have := (List.pairwise_append.mp hs).2.2 w hw v List.mem_cons_self
    omega
  rw [List.foldlM_append, foldlM_seek_passed hlt]
  simp [seek]
  rfl

theorem foldlM_seek_missed {vs : List α} {x : Int} (hs : vs.Pairwise fun a b => key a < key b)
    (hx : ∀ v ∈ vs, (key v : Int) ≠ x) {w : α} (hw : w ∈ vs) (hlt : x < key w) (s : σ) :
    vs.foldlM (seek key upd found missed x) s = .error missed := by
  induction vs generalizing s with
  | nil => simp at hw
  | cons v vs ih =>
    have hne := hx v List.mem_cons_self
    rw [List.pairwise_cons] at hs
    by_cases hle : (key v : Int) ≤ x
    · have hwv : w ∈ vs := by
        rcases List.mem_cons.mp hw with rfl | hw
        · omega
        · exact hw
      simp only [List.foldlM_cons, seek, if_pos hle, if_neg hne]
      exact ih hs.2 (fun u hu => hx u (List.mem_cons_of_mem _ hu)) hwv _
    · simp only [List.foldlM_cons, seek, if_neg hle]
      rfl

end Seek

end Babelfish
