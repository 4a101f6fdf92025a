import Babelfish.Lib.View

/-! A node taken out of a forest with all that lies below it. -/

universe u v

namespace Babelfish.Forest

variable {α : Type u} {τ : Type v}

def erase (id : Nat) : Forest α → Forest α
  | nil => nil
  | node i a sub next => if i = id then next else node i a (erase id sub) (erase id next)

theorem erase_of_not_mem {id : Nat} {F : Forest α} (h : id ∉ F.ids) : F.erase id = F := by
  induction F with
  | nil => rfl
  | node i a sub next ihs ihn =>
    simp only [ids, List.mem_cons, List.mem_append, not_or] at h
    simp [erase, Ne.symm h.1, ihs h.2.1, ihn h.2.2]

theorem ids_erase_sublist (F : Forest α) (id : Nat) : (F.erase id).ids.Sublist F.ids := by
  induction F with
  | nil => exact List.Sublist.refl _
  | node i a sub next ihs ihn =>
    by_cases hi : i = id
    · simp only [erase, hi, if_true, ids]
      exact ((List.sublist_append_right _ _).trans (List.sublist_cons_self _ _))
    · simp only [erase, hi, if_false, ids]
      exact (ihs.append ihn).cons_cons i

theorem nodup_erase {F : Forest α} (hn : F.ids.Nodup) (id : Nat) : (F.erase id).ids.Nodup :=
  hn.sublist (ids_erase_sublist F id)

section Weighted

variable {R : α → List τ → Prop} {close : List τ} {w : τ → Nat} {sz : α → Nat}

theorem Flat.split_erase (hsz : ∀ a ts, R a ts → weight w ts = sz a) {F : Forest α} {ts : List τ}
    (h : Flat R close F ts) (hn : F.ids.Nodup) {id : Nat} {a : α} {sub : Forest α}
    (hf : F.find? id = some (a, sub)) :
    ∃ pre as ss post, ts = pre ++ (as ++ (ss ++ (close ++ post))) ∧ R a as ∧
      Flat R close sub ss ∧ F.offset sz (weight w close) id = some (weight w pre) ∧
      Flat R close (F.erase id) (pre ++ post) := by
  induction h with
  | nil => simp [find?] at hf
  | @node i b s n tb ts tn hb hs hn' ihs ihn =>
    obtain ⟨his, hin, hns, hnn, hd⟩ := nodup_ids_node.mp hn
    by_cases hi : i = id
    · simp only [find?, hi, if_true, Option.some.injEq, Prod.mk.injEq] at hf
      obtain ⟨rfl, rfl⟩ := hf
      exact ⟨[], tb, ts, tn, rfl, hb, hs, by simp [offset, hi], by simpa [erase, hi] using hn'⟩
    · simp only [find?, hi, if_false] at hf
      cases hsub : s.find? id with
      | some r =>
        simp only [hsub, Option.some.injEq] at hf
        subst hf
        obtain ⟨pre, as, ss, post, rfl, ha, hss, ho, herase⟩ := ihs hns hsub
        have hid : id ∉ n.ids := hd id (mem_ids_of_find? hsub)
        refine ⟨tb ++ pre, as, ss, post ++ (close ++ tn), by simp, ha, hss, ?_, ?_⟩
        · simp [offset, hi, ho, hsz _ _ hb]
        · have := Flat.node (i := i) hb herase hn'
          simpa [erase, hi, erase_of_not_mem hid] using this
      | none =>
        simp only [hsub] at hf
        have hid : id ∉ s.ids := fun hm => hd id hm (mem_ids_of_find? hf)
        obtain ⟨pre, as, ss, post, rfl, ha, hss, ho, herase⟩ := ihn hnn hf
        refine ⟨tb ++ (ts ++ (close ++ pre)), as, ss, post, by simp, ha, hss, ?_, ?_⟩
        · simp only [offset, hi, if_false, offset_eq_none hid, ho, Option.map_some, weight_append,
            hsz _ _ hb, hs.weight_eq hsz, Option.some.injEq]
          omega
        · have := Flat.node (i := i) hb hs herase
          simpa [erase, hi, erase_of_not_mem hid] using this

end Weighted

end Babelfish.Forest
