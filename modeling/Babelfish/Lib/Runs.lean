import Mathlib.Data.List.Basic

/-! Total correctness of stateful programs that may fail: runs that end in a result, and runs that end
in an error. -/

universe u

namespace Babelfish

variable {σ ε α β : Type u}

/-- From `s` the program ends without an error, in a result and a state that satisfy `Q`. -/
def Runs (m : StateT σ (Except ε) α) (s : σ) (Q : α → σ → Prop) : Prop :=
  ∃ a s', m.run s = .ok (a, s') ∧ Q a s'

def Fails (m : StateT σ (Except ε) α) (s : σ) (e : ε) : Prop := m.run s = .error e

namespace Runs

variable {m : StateT σ (Except ε) α} {f : α → StateT σ (Except ε) β} {s : σ}
variable {P Q : α → σ → Prop} {R : β → σ → Prop}

theorem pure {a : α} (h : Q a s) : Runs (Pure.pure a : StateT σ (Except ε) α) s Q :=
  ⟨a, s, rfl, h⟩

theorem get {Q : σ → σ → Prop} (h : Q s s) :
    Runs (MonadState.get : StateT σ (Except ε) σ) s Q := ⟨s, s, rfl, h⟩

theorem bind (h : Runs m s fun a s' => Runs (f a) s' R) : Runs (m >>= f) s R := by
  obtain ⟨a, s', hm, b, s'', hf, hR⟩ := h
  refine ⟨b, s'', ?_, hR⟩
  rw [StateT.run_bind, hm]
  exact hf

theorem bind_bind {γ : Type u} {g : β → StateT σ (Except ε) γ} {R : γ → σ → Prop}
    (h : Runs (m >>= f) s fun b s' => Runs (g b) s' R) :
    Runs (m >>= fun a => f a >>= g) s R := by
  rw [← bind_assoc]
  exact h.bind

theorem mono (h : Runs m s P) (hPQ : ∀ a s', P a s' → Q a s') : Runs m s Q := by
  obtain ⟨a, s', hm, hP⟩ := h
  exact ⟨a, s', hm, hPQ a s' hP⟩

theorem and (hP : Runs m s P) (hQ : Runs m s Q) : Runs m s fun a s' => P a s' ∧ Q a s' := by
  obtain ⟨a, s', hm, hP⟩ := hP
  obtain ⟨a', s'', hm', hQ⟩ := hQ
  rw [hm] at hm'
  obtain ⟨rfl, rfl⟩ := Prod.mk.inj (Except.ok.inj hm')
  exact ⟨a, s', hm, hP, hQ⟩

theorem of_run (h : Runs m s Q) {a : α} {s' : σ} (hm : m.run s = .ok (a, s')) : Q a s' := by
  obtain ⟨b, s'', hm', hQ⟩ := h
  rw [hm] at hm'
  obtain ⟨rfl, rfl⟩ := Prod.mk.inj (Except.ok.inj hm')
  exact hQ

instance [∀ a s', Decidable (Q a s')] : Decidable (Runs m s Q) :=
  match hm : m.run s with
  | .ok (a, s') => decidable_of_iff (Q a s') ⟨fun hQ => ⟨a, s', hm, hQ⟩, fun h => h.of_run hm⟩
  | .error _ => isFalse fun ⟨_, _, hok, _⟩ => nomatch hm.symm.trans hok

theorem not_fails (h : Runs m s Q) (e : ε) : ¬Fails m s e := by
  obtain ⟨a, s', hm, -⟩ := h
  simp [Fails, hm]

end Runs

namespace Fails

variable {m : StateT σ (Except ε) α} {f : α → StateT σ (Except ε) β} {s : σ} {e : ε}

theorem bind_left (h : Fails m s e) : Fails (m >>= f) s e := by
  unfold Fails at h ⊢
  rw [StateT.run_bind, h]
  rfl

theorem bind_right (h : Runs m s fun a s' => Fails (f a) s' e) : Fails (m >>= f) s e := by
  obtain ⟨a, s', hm, hf⟩ := h
  unfold Fails at hf ⊢
  rw [StateT.run_bind, hm]
  exact hf

end Fails

end Babelfish
