import Mathlib.Data.List.Nodup
import Mathlib.Data.List.Induction
import Mathlib.Logic.Function.Basic

/-! Circular doubly linked lists. The hooks of all rings share one heap of links; a ring is the path of
links from its head through its elements and back to the head. -/

universe u

namespace Babelfish

structure Links (α : Type u) where
  prev : α → α
  next : α → α

namespace Links

variable {α : Type u}

section

variable [DecidableEq α]

def link (m : Links α) (a b : α) : Links α :=
  ⟨Function.update m.prev b a, Function.update m.next a b⟩

def init (m : Links α) (h : α) : Links α := m.link h h

def inject (m : Links α) (l prev next : α) : Links α :=
  ⟨Function.update (Function.update m.prev l prev) next l,
    Function.update (Function.update m.next l next) prev l⟩

def append (m : Links α) (h l : α) : Links α := m.inject l (m.prev h) h

def remove (m : Links α) (l : α) : Links α := m.link (m.prev l) (m.next l)

def first (m : Links α) (h : α) : Option α := if m.next h = h then none else some (m.next h)

def last (m : Links α) (h : α) : Option α := if m.prev h = h then none else some (m.prev h)

def after (m : Links α) (h e : α) : Option α := if m.next e = h then none else some (m.next e)

/-- The elements from `o` on; `none` if the loop takes more than `fuel` rounds. -/
def walk (m : Links α) (h : α) : (fuel : Nat) → (o : Option α) → Option (List α)
  | _, none => some []
  | 0, some _ => none
  | fuel + 1, some e => (walk m h fuel (m.after h e)).map (e :: ·)

end

def flip (m : Links α) : Links α := ⟨m.next, m.prev⟩

def Linked (m : Links α) (a b : α) : Prop := m.next a = b ∧ m.prev b = a

def Seg (m : Links α) : α → List α → α → Prop
  | a, [], b => m.Linked a b
  | a, e :: es, b => m.Linked a e ∧ m.Seg e es b

structure Ring (m : Links α) (h : α) (es : List α) : Prop where
  nodup : (h :: es).Nodup
  seg : m.Seg h es h

section

variable {m : Links α} {a b e h : α} {es xs ys : List α}

theorem seg_append : m.Seg a (xs ++ e :: ys) b ↔ m.Seg a xs e ∧ m.Seg e ys b := by
  induction xs generalizing a with
  | nil => rfl
  | cons x xs ih => simp only [List.cons_append, Seg, ih, and_assoc]

theorem Seg.flip (hs : m.Seg a es b) : m.flip.Seg b es.reverse a := by
  induction es generalizing a with
  | nil => exact ⟨hs.2, hs.1⟩
  | cons e es ih =>
    rw [List.reverse_cons, seg_append]
    exact ⟨ih hs.2, hs.1.2, hs.1.1⟩

theorem Seg.frame {m' : Links α} (hs : m.Seg a es b) (hn : ∀ x ∈ a :: es, m'.next x = m.next x)
    (hp : ∀ x ∈ es ++ [b], m'.prev x = m.prev x) : m'.Seg a es b := by
  induction es generalizing a with
  | nil => exact ⟨(hn a (by simp)).trans hs.1, (hp b (by simp)).trans hs.2⟩
  | cons e es ih =>
    obtain ⟨he, hs⟩ := hs
    refine ⟨⟨(hn a (by simp)).trans he.1, (hp e (by simp)).trans he.2⟩, ih hs ?_ ?_⟩
    · exact fun x hx => hn x (List.mem_cons_of_mem a hx)
    · exact fun x hx => hp x (List.mem_cons_of_mem e hx)

theorem Seg.prev_mem (hs : m.Seg a es b) : m.prev b ∈ a :: es := by
  induction es generalizing a with
  | nil => exact List.mem_singleton.mpr hs.2
  | cons e es ih => exact List.mem_cons_of_mem a (ih hs.2)

theorem Seg.inverse (hs : m.Seg a es b) {x : α} (hx : x ∈ a :: es) : m.prev (m.next x) = x := by
  induction es generalizing a with
  | nil =>
    rw [List.mem_singleton.mp hx, hs.1]
    exact hs.2
  | cons e es ih =>
    obtain rfl | hx := List.mem_cons.mp hx
    · rw [hs.1.1]
      exact hs.1.2
    · exact ih hs.2 hx

variable [DecidableEq α] {c p : α}

theorem linked_link (m : Links α) (a b : α) : (m.link a b).Linked a b :=
  ⟨Function.update_self _ _ _, Function.update_self _ _ _⟩

theorem Seg.link_frame (hs : m.Seg a es b) (hp : p ∉ a :: es) (hc : c ∉ es ++ [b]) :
    (m.link p c).Seg a es b :=
  hs.frame (fun _ hx => Function.update_of_ne (ne_of_mem_of_not_mem hx hp) _ _)
    fun _ hx => Function.update_of_ne (ne_of_mem_of_not_mem hx hc) _ _

theorem Seg.relink (hs : m.Seg a es b) (hnd : (a :: es).Nodup) (hc : c ∉ es) :
    (m.link (m.prev b) c).Seg a es c := by
  induction es using List.reverseRecOn with
  | nil =>
    rw [hs.2]
    apply linked_link
  | append_singleton es z _ =>
    obtain ⟨hs, hz⟩ := seg_append.mp hs
    rw [hz.2]
    rw [← List.cons_append, List.nodup_append] at hnd
    refine seg_append.mpr ⟨hs.link_frame (fun hm => ?_) hc, linked_link m z c⟩
    exact hnd.2.2 z hm z (List.mem_singleton_self z) rfl

theorem inject_eq {l : α} (hl : p ≠ l) : m.inject l p c = (m.link p l).link l c := by
  unfold inject link
  rw [Function.update_comm hl]

end

namespace Ring

variable {m : Links α} {h l x : α} {es xs ys : List α}

theorem flip (hr : m.Ring h es) : m.flip.Ring h es.reverse := by
  refine ⟨?_, hr.seg.flip⟩
  rw [List.nodup_cons, List.mem_reverse, List.nodup_reverse]
  exact List.nodup_cons.mp hr.nodup

theorem frame {m' : Links α} (hr : m.Ring h es) (hn : ∀ x ∈ h :: es, m'.next x = m.next x)
    (hp : ∀ x ∈ h :: es, m'.prev x = m.prev x) : m'.Ring h es := by
  refine ⟨hr.nodup, hr.seg.frame hn fun x hx => hp x ?_⟩
  rw [List.mem_append, List.mem_singleton] at hx
  exact List.mem_cons.mpr hx.symm

theorem prev_next (hr : m.Ring h es) (hx : x ∈ h :: es) : m.prev (m.next x) = x :=
  hr.seg.inverse hx

theorem next_prev (hr : m.Ring h es) (hx : x ∈ h :: es) : m.next (m.prev x) = x := by
  refine hr.flip.prev_next ?_
  rw [List.mem_cons, List.mem_reverse]
  exact List.mem_cons.mp hx

theorem prev_mem (hr : m.Ring h es) (hx : x ∈ h :: es) : m.prev x ∈ h :: es := by
  obtain rfl | hx := List.mem_cons.mp hx
  · exact hr.seg.prev_mem
  · obtain ⟨xs, ys, rfl⟩ := List.append_of_mem hx
    have hmem := (seg_append.mp hr.seg).1.prev_mem
    rw [← List.cons_append]
    exact List.mem_append_left _ hmem

theorem next_mem (hr : m.Ring h es) (hx : x ∈ h :: es) : m.next x ∈ h :: es := by
  have hmem : m.flip.prev x ∈ h :: es.reverse := hr.flip.prev_mem (by simpa using hx)
  rw [List.mem_cons, List.mem_reverse] at hmem
  exact List.mem_cons.mpr hmem

theorem prev_ne (hr : m.Ring h (xs ++ x :: ys)) : m.prev x ≠ x := fun he => by
  have hmem := (seg_append.mp hr.seg).1.prev_mem
  have hnd := hr.nodup
  rw [← List.cons_append, List.nodup_append] at hnd
  rw [he] at hmem
  exact hnd.2.2 x hmem x List.mem_cons_self rfl

section

variable [DecidableEq α]

theorem init (m : Links α) (h : α) : (m.init h).Ring h [] :=
  ⟨List.nodup_singleton h, linked_link m h h⟩

theorem link_frame {p c : α} (hr : m.Ring h es) (hp : p ∉ h :: es) (hc : c ∉ h :: es) :
    (m.link p c).Ring h es :=
  hr.frame (fun _ hx => Function.update_of_ne (ne_of_mem_of_not_mem hx hp) _ _)
    fun _ hx => Function.update_of_ne (ne_of_mem_of_not_mem hx hc) _ _

theorem append (hr : m.Ring h es) (hl : l ∉ h :: es) : (m.append h l).Ring h (es ++ [l]) := by
  obtain ⟨hlh, hle⟩ := not_or.mp (mt List.mem_cons.mpr hl)
  have hne : m.prev h ≠ l := fun he => hl (he ▸ hr.seg.prev_mem)
  constructor
  · rw [← List.cons_append, List.nodup_append]
    refine ⟨hr.nodup, List.nodup_singleton l, fun a ha b hb hab => hl ?_⟩
    rw [← List.mem_singleton.mp hb, ← hab]
    exact ha
  · rw [Links.append, inject_eq hne, seg_append]
    refine ⟨(hr.seg.relink hr.nodup hle).link_frame hl ?_, linked_link _ l h⟩
    rw [List.mem_append, List.mem_singleton, not_or]
    exact ⟨(List.nodup_cons.mp hr.nodup).1, Ne.symm hlh⟩

theorem remove (hr : m.Ring h (xs ++ l :: ys)) : (m.remove l).Ring h (xs ++ ys) := by
  obtain ⟨hxs, hys⟩ := seg_append.mp hr.seg
  have hnd := hr.nodup
  rw [← List.cons_append, List.nodup_append] at hnd
  obtain ⟨hndx, hndy, hdisj⟩ := hnd
  refine ⟨?_, ?_⟩
  · rw [← List.cons_append, List.nodup_append]
    exact ⟨hndx, (List.nodup_cons.mp hndy).2, fun a ha b hb => hdisj a ha b (List.mem_cons_of_mem l hb)⟩
  · unfold Links.remove
    cases ys with
    | nil =>
      rw [hys.1, List.append_nil]
      exact hxs.relink hndx (List.nodup_cons.mp hndx).1
    | cons n ys =>
      have hl := List.nodup_cons.mp hndy
      have hn := List.nodup_cons.mp hl.2
      rw [hys.1.1]
      refine seg_append.mpr ⟨hxs.relink hndx fun hm => ?_, hys.2.link_frame (fun hm => ?_) fun hm => ?_⟩
      · exact hdisj n (List.mem_cons_of_mem h hm) n (by simp) rfl
      · exact hdisj _ hxs.prev_mem _ (List.mem_cons_of_mem l hm) rfl
      · rw [List.mem_append, List.mem_singleton] at hm
        obtain hm | rfl := hm
        · exact hn.1 hm
        · exact hdisj n (by simp) n (by simp) rfl

theorem after_eq {e : α} (hr : m.Ring h (xs ++ e :: ys)) : m.after h e = ys.head? := by
  have hseg := (seg_append.mp hr.seg).2
  unfold after
  cases ys with
  | nil => rw [if_pos hseg.1, List.head?_nil]
  | cons n ys =>
    have hne : n ≠ h := fun he => (List.nodup_cons.mp hr.nodup).1 (by simp [he])
    rw [hseg.1.1, if_neg hne, List.head?_cons]

theorem first_eq (hr : m.Ring h es) : m.first h = es.head? := by
  unfold first
  cases es with
  | nil => rw [if_pos hr.seg.1, List.head?_nil]
  | cons e es =>
    have hne : e ≠ h := fun he => (List.nodup_cons.mp hr.nodup).1 (by simp [he])
    rw [hr.seg.1.1, if_neg hne, List.head?_cons]

theorem last_eq (hr : m.Ring h es) : m.last h = es.getLast? := by
  rw [← List.head?_reverse]
  exact hr.flip.first_eq

theorem walk_eq {fuel : Nat} (hr : m.Ring h (xs ++ es)) (hf : es.length ≤ fuel) :
    m.walk h fuel es.head? = some es := by
  induction es generalizing xs fuel with
  | nil => cases fuel <;> rfl
  | cons e es ih =>
    obtain _ | fuel := fuel
    · exact absurd hf (Nat.not_succ_le_zero _)
    · rw [List.head?_cons, walk, hr.after_eq]
      rw [List.append_cons] at hr
      rw [ih hr (Nat.le_of_succ_le_succ hf), Option.map_some]

theorem walk_first {fuel : Nat} (hr : m.Ring h es) (hf : es.length ≤ fuel) :
    m.walk h fuel (m.first h) = some es := by
  rw [hr.first_eq]
  apply walk_eq (show m.Ring h ([] ++ es) from hr) hf

end

end Ring

end Links

end Babelfish
