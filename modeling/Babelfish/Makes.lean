import Babelfish.Unguarded

/-! What programs that may fault put into the record, where they end. -/

namespace Babelfish

open Libfdt

/-- Where the program ends, it has only added calls to the record, and these satisfy `P`. -/
def Makes {α : Type} (P : Call → Prop) (m : Fixup α) : Prop :=
  ∀ (w w' : World) (a : α), m.run w = .ok (a, w') → ∃ cs, w'.calls = w.calls ++ cs ∧ ∀ c ∈ cs, P c

namespace Makes

variable {α β : Type} {P Q : Call → Prop} {m : Fixup α}

theorem of_adds (h : Adds (fun cs => ∀ c ∈ cs, P c) m) : Makes P m := fun w _ _ hrun =>
  (h w).of_run hrun

theorem mono (h : Makes P m) (hPQ : ∀ c, P c → Q c) : Makes Q m := fun w w' a hrun => by
  obtain ⟨cs, hcs, hP⟩ := h w w' a hrun
  exact ⟨cs, hcs, fun c hc => hPQ c (hP c hc)⟩

theorem of_reads {v : Option α} (h : Reads m v) : Makes P m := by
  intro w w' a hrun
  have hread := h w
  cases v with
  | none =>
    obtain ⟨e, he⟩ := hread
    rw [Fails, hrun] at he
    cases he
  | some b =>
    simp only at hread
    rw [hrun] at hread
    cases hread
    exact ⟨[], (List.append_nil _).symm, by simp⟩

theorem pure (a : α) : Makes P (Pure.pure a : Fixup α) := of_adds (Adds.pure (by simp) a)

theorem throw (e : Fault) : Makes P (MonadExcept.throw e : Fixup α) := fun _ _ _ hrun => by cases hrun

theorem bind {f : α → Fixup β} (hm : Makes P m) (hf : ∀ a, Makes P (f a)) : Makes P (m >>= f) := by
  intro w w' b hrun
  rw [StateT.run_bind] at hrun
  cases hrun₁ : m.run w with
  | error e =>
    rw [hrun₁] at hrun
    cases hrun
  | ok p =>
    rw [hrun₁] at hrun
    obtain ⟨cs, hcs, hP⟩ := hm w p.2 p.1 hrun₁
    obtain ⟨cs', hcs', hP'⟩ := hf p.1 p.2 w' b hrun
    refine ⟨cs ++ cs', by rw [hcs', hcs, List.append_assoc], fun c hc => ?_⟩
    exact (List.mem_append.mp hc).elim (hP c) (hP' c)

theorem ite {p : Prop} [Decidable p] {m' : Fixup α} (hm : Makes P m) (hm' : Makes P m') :
    Makes P (if p then m else m') := by
  split
  · exact hm
  · exact hm'

theorem call {target : Target} {op : Op} {offset : Int} (h : ∀ fdt, P ⟨target, op, fdt, offset⟩) :
    Makes P (Babelfish.call target op offset) := of_adds (Adds.call fun fdt c hc => by
  rw [List.mem_singleton] at hc
  exact hc ▸ h fdt)

end Makes

def Call.KeepsCompatible (c : Call) : Prop := ∀ val, c.op ≠ .setprop strCompatible val

theorem Unchecked.keepsCompatible {α : Type} {m : Fixup α} (h : Unchecked m) :
    Makes Call.KeepsCompatible m := by
  refine Makes.mono (Makes.of_adds h) fun c hc val hop => hc ?_
  exact ⟨strCompatible, List.mem_cons_self, val, hop⟩

namespace Makes

theorem fixupUart (script : Script) (i : Nat) :
    Makes Call.KeepsCompatible (Babelfish.fixupUart script i) := by
  rw [fixupUart_eq]
  refine bind (of_reads (reads_single _ _ _)) fun used => ite (pure 0) ?_
  refine bind (Unchecked.pathOffset _).keepsCompatible fun offset => ?_
  refine bind (call fun fdt val hop => by cases hop) fun ret => ite (pure _) ?_
  refine bind (of_reads (reads_single _ _ _)) fun type => bind (of_reads (reads_uartGpios type)) ?_
  rintro (_ | gpios)
  · exact pure 0
  · exact bind (Unchecked.addPinctrlGroup _ _ _ _).keepsCompatible fun _ => pure 0

theorem uartLoop (script : Script) (is : List Nat) :
    Makes Call.KeepsCompatible (Babelfish.uartLoop script is) := by
  induction is with
  | nil => exact pure 0
  | cons i is ih => exact bind (fixupUart script i) fun ret => ite (pure ret) ih

theorem uarts (script : Script) : Makes Call.KeepsCompatible (fdtFixupUarts script) := by
  unfold fdtFixupUarts
  rw [← bind_assoc]
  refine bind (of_reads (reads_single _ _ _)) fun port => ?_
  exact bind (Unchecked.appendBootargs _).keepsCompatible fun _ => uartLoop script _

theorem fromAtags (tags : List UInt32) : Makes Call.KeepsCompatible (fdtFixupFromAtags tags) :=
  bind (Unchecked.tagLoop _ _).keepsCompatible fun _ => pure 0

end Makes

def Call.WritesCompatible (compatible : Bytes) (c : Call) : Prop :=
  ∀ val, c.op = .setprop strCompatible val → c.target = .root ∧ val = compatible ++ [0]

theorem Call.KeepsCompatible.writes {c : Call} (h : c.KeepsCompatible) (compatible : Bytes) :
    c.WritesCompatible compatible := fun val hop => absurd hop (h val)

namespace Makes

theorem machine (compatible : Bytes) (script : Script) :
    Makes (Call.WritesCompatible compatible) (fdtFixupMachine compatible script) := by
  unfold fdtFixupMachine
  refine bind (call fun fdt val hop => ?_) fun ret => ite (pure _) ?_
  · cases hop
    exact ⟨rfl, rfl⟩
  · rw [← bind_assoc]
    refine bind (of_reads (reads_string _ _ _)) fun string => ?_
    refine bind (call fun fdt val hop => ?_) fun ret => ite (pure _) (pure _)
    cases hop

theorem fromFex (compatible : Bytes) (script : Script) :
    Makes (Call.WritesCompatible compatible) (fdtFixupFromFex compatible script) := by
  refine bind (machine compatible script) fun ret => ite (pure _) ?_
  refine bind ((uarts script).mono fun c hc => hc.writes compatible) fun ret => ite (pure _) (pure _)

end Makes

end Babelfish
