import Babelfish.Libfex.Memory
import Mathlib.Data.List.Pairwise

/-! In every state that allowed operations reach, the rings in memory are the lists of the live objects
in the order of their creation. -/

namespace Babelfish.Libfex

open Bytes

variable {m : Mem} {live : List Obj} {o p q : Obj} {h x : Addr}

def Obj.hooks (o : Obj) : List Addr :=
  match o.kind with
  | .script => [o.addr]
  | .scriptSection .. => [o.addr + offsetSections, o.addr + offsetSectionEntries]
  | .scriptEntry .. => [o.addr + offsetEntries]

def Obj.Stored (m : Mem) (o : Obj) : Prop :=
  match o.kind with
  | .script => True
  | .scriptSection _ name => m.name o.addr = fieldName name
  | .scriptEntry _ name value => m.name o.addr = fieldName name ∧ m.value o.addr = value

def Obj.Owned (live : List Obj) (o : Obj) : Prop :=
  match o.kind with
  | .script => True
  | .scriptSection script _ => IsScript live script
  | .scriptEntry s _ _ => IsSection live s

/-- Live objects do not share memory, and are in rings of live objects. -/
structure Separate (live : List Obj) : Prop where
  placed : ∀ o ∈ live, Placed o
  apart : live.Pairwise Apart
  owned : ∀ o ∈ live, o.Owned live

structure Refines (m : Mem) (live : List Obj) : Prop where
  separate : Separate live
  rings : ∀ p ∈ live, ∀ h, p.head? = some h → m.links.Ring h (elems live h)
  stored : ∀ o ∈ live, o.Stored m

theorem Obj.size_pos (o : Obj) : 0 < o.size := by
  obtain ⟨a, _ | _ | ⟨_, _, _ | _ | _ | _⟩⟩ := o <;>
    simp only [Obj.size, sizeofScript, sizeofSection, sizeofEntry] <;> omega

theorem Obj.hook_mem (o : Obj) : o.hook ∈ o.hooks := by
  obtain ⟨a, _ | _ | _⟩ := o <;> simp [Obj.hook, Obj.hooks]

theorem Obj.head_mem (hh : o.head? = some h) : h ∈ o.hooks := by
  obtain ⟨a, _ | _ | _⟩ := o <;> simp [Obj.head?, Obj.hooks] at hh ⊢ <;> simp [hh]

theorem Obj.head_ne_hook (hh : o.head? = some h) {h' : Addr} (hw : o.within = some h') :
    h ≠ o.hook := by
  obtain ⟨a, _ | _ | _⟩ := o
  · cases hw
  · simp only [Obj.head?, Option.some.injEq, offsetSectionEntries] at hh
    simp only [Obj.hook, offsetSections, ← hh]
    intro he
    exact absurd ((UInt32.add_right_inj a).mp he) (by decide)
  · cases hh

theorem toNat_add_offset {a : Addr} {n : Nat} (k : UInt32) (h : a.toNat + n ≤ 2 ^ 32)
    (hk : k.toNat < n) : (a + k).toNat = a.toNat + k.toNat := by
  rw [UInt32.toNat_add]
  exact Nat.mod_eq_of_lt (by omega)

theorem Obj.hooks_bounds (hp : Placed o) (hx : x ∈ o.hooks) :
    o.addr.toNat ≤ x.toNat ∧ x.toNat < o.addr.toNat + o.size := by
  have hsize := o.size_pos
  have h32 : (32 : UInt32).toNat = 32 := rfl
  have h36 : (36 : UInt32).toNat = 36 := rfl
  have h40 : (40 : UInt32).toNat = 40 := rfl
  obtain ⟨a, _ | _ | ⟨_, _, value⟩⟩ := o
  · rw [List.mem_singleton.mp hx]
    omega
  · have hb : a.toNat + 48 ≤ 2 ^ 32 := hp.2
    simp only [Obj.hooks, List.mem_cons, List.not_mem_nil, or_false, offsetSections,
      offsetSectionEntries] at hx
    simp only [Obj.size, sizeofSection]
    obtain rfl | rfl := hx
    · rw [toNat_add_offset 32 hb (by omega)]
      omega
    · rw [toNat_add_offset 40 hb (by omega)]
      omega
  · have hb : 44 ≤ sizeofEntry value := by
      cases value <;> simp only [sizeofEntry] <;> omega
    have hle : a.toNat + 44 ≤ 2 ^ 32 := by
      have := hp.2
      simp only [Obj.size] at this
      omega
    rw [List.mem_singleton.mp hx, offsetEntries, toNat_add_offset 36 hle (by omega)]
    simp only [Obj.size]
    omega

theorem Apart.symm {a b : Obj} (h : Apart a b) : Apart b a := Or.symm h

theorem Separate.apart_of_ne (hs : Separate live) (ho : o ∈ live) (hp : p ∈ live) (hne : o ≠ p) :
    Apart o p := by
  have : Std.Symm Apart := ⟨fun _ _ h => h.symm⟩
  exact hs.apart.forall ho hp hne

theorem Separate.eq_of_hook (hs : Separate live) (ho : o ∈ live) (hp : p ∈ live) (hxo : x ∈ o.hooks)
    (hxp : x ∈ p.hooks) : o = p := by
  by_contra hne
  have h₁ := Obj.hooks_bounds (hs.placed o ho) hxo
  have h₂ := Obj.hooks_bounds (hs.placed p hp) hxp
  obtain h | h := hs.apart_of_ne ho hp hne <;> omega

theorem Separate.eq_of_addr (hs : Separate live) (ho : o ∈ live) (hp : p ∈ live)
    (he : o.addr = p.addr) : o = p := by
  by_contra hne
  have h₁ := o.size_pos
  have h₂ := p.size_pos
  obtain h | h := hs.apart_of_ne ho hp hne <;> rw [he] at h <;> omega

theorem Obj.Owned.owner (how : o.Owned live) (hw : o.within = some h) :
    ∃ p ∈ live, p.head? = some h := by
  obtain ⟨a, _ | _ | _⟩ := o
  · cases hw
  · exact ⟨_, how, hw⟩
  · obtain ⟨script, name, hp⟩ := how
    exact ⟨_, hp, hw⟩

theorem Obj.Owned.mono {live' : List Obj} (how : o.Owned live) (hsub : live ⊆ live') :
    o.Owned live' := by
  obtain ⟨a, _ | _ | _⟩ := o
  · trivial
  · exact hsub how
  · obtain ⟨script, name, hp⟩ := how
    exact ⟨script, name, hsub hp⟩

theorem mem_elems : x ∈ elems live h ↔ ∃ o ∈ live, o.within = some h ∧ o.hook = x := by
  simp [elems, and_assoc]

theorem Separate.head_unique (hs : Separate live) (hp : p ∈ live) (hq : q ∈ live) {h' : Addr}
    (hph : p.head? = some h) (hqh : q.head? = some h') (hx : x ∈ h :: elems live h)
    (hx' : x ∈ h' :: elems live h') : h = h' := by
  simp only [List.mem_cons, mem_elems] at hx hx'
  obtain rfl | ⟨o, ho, how, rfl⟩ := hx
  · obtain rfl | ⟨o', ho', how', hxo⟩ := hx'
    · rfl
    · cases hs.eq_of_hook hp ho' (Obj.head_mem hph) (hxo ▸ o'.hook_mem)
      exact absurd hxo.symm (Obj.head_ne_hook hph how')
  · obtain hxo | ⟨o', ho', how', hxo⟩ := hx'
    · cases hs.eq_of_hook hq ho (Obj.head_mem hqh) (hxo ▸ o.hook_mem)
      exact absurd hxo.symm (Obj.head_ne_hook hqh how)
    · cases hs.eq_of_hook ho ho' o.hook_mem (hxo ▸ o'.hook_mem)
      exact Option.some.inj (how.symm.trans how')

theorem Separate.head_inj (hs : Separate live) (hp : p ∈ live) (hq : q ∈ live)
    (hph : p.head? = some h) (hqh : q.head? = some h) : p = q :=
  hs.eq_of_hook hp hq (Obj.head_mem hph) (Obj.head_mem hqh)

theorem hook_of_mem_ring (hp : p ∈ live) (hph : p.head? = some h) (hx : x ∈ h :: elems live h) :
    ∃ o ∈ live, x ∈ o.hooks := by
  obtain rfl | hx := List.mem_cons.mp hx
  · exact ⟨p, hp, Obj.head_mem hph⟩
  · obtain ⟨o, ho, -, rfl⟩ := mem_elems.mp hx
    exact ⟨o, ho, o.hook_mem⟩

theorem elems_append (l l' : List Obj) (h : Addr) : elems (l ++ l') h = elems l h ++ elems l' h := by
  simp [elems]

theorem elems_singleton (o : Obj) (h : Addr) :
    elems [o] h = if o.within = some h then [o.hook] else [] := by
  by_cases hw : o.within = some h <;> simp [elems, hw]

theorem elems_cons (o : Obj) (l : List Obj) (h : Addr) :
    elems (o :: l) h = (if o.within = some h then [o.hook] else []) ++ elems l h := by
  rw [← elems_singleton, ← elems_append, List.singleton_append]

theorem Separate.filter (hs : Separate live) (P : Obj → Bool)
    (hP : ∀ o ∈ live, P o → o.Owned (live.filter P)) : Separate (live.filter P) where
  placed o ho := hs.placed o (List.mem_of_mem_filter ho)
  apart := hs.apart.filter P
  owned o ho := hP o (List.mem_of_mem_filter ho) (List.mem_filter.mp ho).2

theorem Separate.concat (hs : Separate live) (hplaced : Placed o) (hap : ∀ q ∈ live, Apart q o)
    (how : o.Owned live) : Separate (live ++ [o]) where
  placed q hq := by
    obtain hq | hq := List.mem_append.mp hq
    · exact hs.placed q hq
    · exact List.mem_singleton.mp hq ▸ hplaced
  apart := by
    rw [List.pairwise_append]
    refine ⟨hs.apart, List.pairwise_singleton _ _, fun a ha b hb => ?_⟩
    exact List.mem_singleton.mp hb ▸ hap a ha
  owned q hq := by
    have hq' : q.Owned live := by
      obtain hq | hq := List.mem_append.mp hq
      · exact hs.owned q hq
      · exact List.mem_singleton.mp hq ▸ how
    exact hq'.mono (List.subset_append_left _ _)

theorem not_hook (hplaced : ∀ q ∈ live, Placed q) (ho : Placed o) (hap : ∀ q ∈ live, Apart q o)
    (hx : x ∈ o.hooks) : ∀ q ∈ live, x ∉ q.hooks := fun q hq hxq => by
  have h₁ := Obj.hooks_bounds ho hx
  have h₂ := Obj.hooks_bounds (hplaced q hq) hxq
  obtain h | h := hap q hq <;> omega

theorem not_mem_ring (hx : ∀ q ∈ live, x ∉ q.hooks) (hp : p ∈ live) (hph : p.head? = some h) :
    x ∉ h :: elems live h := fun hm => by
  obtain ⟨q, hq, hxq⟩ := hook_of_mem_ring hp hph hm
  exact hx q hq hxq

theorem Refines.init (hr : Refines m live) (hx : ∀ q ∈ live, x ∉ q.hooks) (hp : p ∈ live)
    (hph : p.head? = some h) : (m.links.init x).Ring h (elems live h) :=
  have hnot := not_mem_ring hx hp hph
  (hr.rings p hp h hph).link_frame hnot hnot

theorem rings_append {links : Links Addr} {l k : Addr} (hs : Separate live)
    (hrings : ∀ p ∈ live, ∀ h, p.head? = some h → links.Ring h (elems live h))
    (hl : ∀ q ∈ live, l ∉ q.hooks) (hp : p ∈ live) (hph : p.head? = some h) (hq : q ∈ live)
    (hqk : q.head? = some k) :
    (links.append h l).Ring k (elems live k ++ if h = k then [l] else []) := by
  have hring := hrings p hp h hph
  have hne : links.prev h ≠ l := fun he =>
    not_mem_ring hl hp hph (he ▸ hring.prev_mem (List.mem_cons_self))
  by_cases he : h = k
  · subst he
    rw [if_pos rfl]
    exact hring.append (not_mem_ring hl hp hph)
  · rw [if_neg he, List.append_nil, Links.append, Links.inject_eq hne]
    have hnl := not_mem_ring hl hq hqk
    have hring' := hrings q hq k hqk
    refine (hring'.link_frame (fun hm => he ?_) hnl).link_frame hnl fun hm => he ?_
    · exact hs.head_unique hp hq hph hqk (hring.prev_mem List.mem_cons_self) hm
    · exact hs.head_unique hp hq hph hqk List.mem_cons_self hm

theorem ring_append_frame {links : Links Addr} {l k : Addr} {es : List Addr} (hk : links.Ring k es)
    (hring : links.Ring h (elems live h)) (hl : l ∉ k :: es)
    (hdis : ∀ x ∈ h :: elems live h, x ∉ k :: es) (hlh : l ∉ h :: elems live h) :
    (links.append h l).Ring k es := by
  have hprev := hring.prev_mem (List.mem_cons_self)
  have hne : links.prev h ≠ l := fun he => hlh (he ▸ hprev)
  rw [Links.append, Links.inject_eq hne]
  exact (hk.link_frame (hdis _ hprev) hl).link_frame hl (hdis h List.mem_cons_self)

theorem Obj.Stored.update (ho : o ∈ live) (hap : ∀ q ∈ live, Apart q p)
    (hst : o.Stored m) {links : Links Addr} {name : Bytes} {value : Addr → ScriptValue}
    (hv : ∀ a, a ≠ p.addr → value a = m.value a) :
    o.Stored ⟨links, Function.update m.name p.addr name, value⟩ := by
  have hne : o.addr ≠ p.addr := fun he => by
    have h₁ := o.size_pos
    have h₂ := p.size_pos
    obtain h | h := hap o ho <;> rw [he] at h <;> omega
  obtain ⟨a, _ | _ | _⟩ := o
  · trivial
  · exact (Function.update_of_ne hne _ _).trans hst
  · exact ⟨(Function.update_of_ne hne _ _).trans hst.1, (hv a hne).trans hst.2⟩

theorem elems_new (hs : Separate live) (how : o.within ≠ some h) (hx : ∀ q ∈ live, h ∉ q.hooks) :
    elems (live ++ [o]) h = [] := by
  rw [elems_append, elems_singleton, if_neg how, List.append_nil, List.eq_nil_iff_forall_not_mem]
  intro x hm
  obtain ⟨q, hq, hqw, -⟩ := mem_elems.mp hm
  obtain ⟨p, hp, hph⟩ := (hs.owned q hq).owner hqw
  exact hx p hp (Obj.head_mem hph)

theorem Refines.concat {m' : Mem} (hr : Refines m live) (hplaced : Placed o)
    (hap : ∀ q ∈ live, Apart q o) (how : o.Owned live)
    (hown : ∀ h, o.head? = some h → o.within ≠ some h ∧ m'.links.Ring h [])
    (hrings : ∀ q ∈ live, ∀ k, q.head? = some k →
      m'.links.Ring k (elems live k ++ if o.within = some k then [o.hook] else []))
    (hst : o.Stored m') (hsts : ∀ q ∈ live, q.Stored m') : Refines m' (live ++ [o]) where
  separate := hr.separate.concat hplaced hap how
  rings q hq k hqk := by
    obtain hq | hq := List.mem_append.mp hq
    · rw [elems_append, elems_singleton]
      exact hrings q hq k hqk
    · rw [List.mem_singleton.mp hq] at hqk
      obtain ⟨hne, hring⟩ := hown k hqk
      rw [elems_new hr.separate hne (not_hook hr.separate.placed hplaced hap (Obj.head_mem hqk))]
      exact hring
  stored q hq := by
    obtain hq | hq := List.mem_append.mp hq
    · exact hsts q hq
    · exact List.mem_singleton.mp hq ▸ hst

theorem Refines.scriptNew {ptr : Addr} (hr : Refines m live) (ha : Allocated live ptr .script) :
    Refines (scriptNew ptr m) (create live ptr .script) := by
  unfold Libfex.scriptNew create
  by_cases hz : ptr = 0
  · rwa [if_pos hz, if_pos hz]
  obtain ⟨hplaced, hap⟩ := ha.resolve_left hz
  have hnew : ∀ q ∈ live, ptr ∉ q.hooks :=
    not_hook hr.separate.placed hplaced hap (List.mem_singleton_self ptr)
  rw [if_neg hz, if_neg hz]
  refine hr.concat hplaced hap trivial (fun h hh => ?_) (fun q hq k hqk => ?_) trivial hr.stored
  · cases hh
    exact ⟨nofun, Links.Ring.init _ _⟩
  · rw [if_neg (fun hw => by cases hw), List.append_nil]
    exact hr.init hnew hq hqk

theorem Refines.sectionNew {ptr script : Addr} {name : Bytes} (hr : Refines m live)
    (hp : IsScript live script) (ha : Allocated live ptr (.scriptSection script name)) :
    Refines (scriptSectionNew ptr script name m) (create live ptr (.scriptSection script name)) := by
  unfold scriptSectionNew create
  by_cases hz : ptr = 0
  · rwa [if_pos hz, if_pos hz]
  obtain ⟨hplaced, hap⟩ := ha.resolve_left hz
  have hnew : ∀ x ∈ [ptr + offsetSections, ptr + offsetSectionEntries], ∀ q ∈ live, x ∉ q.hooks :=
    fun x hx => not_hook hr.separate.placed hplaced hap hx
  have hhook := hnew (ptr + offsetSections) (by simp)
  have hhead := hnew (ptr + offsetSectionEntries) (by simp)
  have hrings : ∀ q ∈ live, ∀ k, q.head? = some k →
      (m.links.init (ptr + offsetSectionEntries)).Ring k (elems live k) :=
    fun q hq k hqk => hr.init hhead hq hqk
  have hscript : (⟨script, .script⟩ : Obj).head? = some script := rfl
  have hne : ptr + offsetSections ≠ ptr + offsetSectionEntries := fun he =>
    absurd ((UInt32.add_right_inj ptr).mp he) (by decide)
  rw [if_neg hz, if_neg hz]
  refine hr.concat hplaced hap hp (fun h hh => ?_) (fun q hq k hqk => ?_) (Function.update_self _ _ _)
    fun q hq => (hr.stored q hq).update hq (p := ⟨ptr, .scriptSection script name⟩) hap fun _ _ => rfl
  · cases hh
    have hnot : ptr + offsetSectionEntries ∉ script :: elems live script :=
      not_mem_ring hhead hp hscript
    refine ⟨fun hw => hnot (Option.some.inj hw ▸ List.mem_cons_self), ?_⟩
    refine ring_append_frame (Links.Ring.init _ _) (hrings _ hp _ hscript) ?_ (fun x hx hm => ?_)
      (not_mem_ring hhook hp hscript)
    · rwa [List.mem_singleton]
    · exact hnot (List.mem_singleton.mp hm ▸ hx)
  · have happ := rings_append hr.separate hrings hhook hp hscript hq hqk
    simp only [Obj.within, Option.some.injEq]
    exact happ

theorem Refines.entryNew {ptr s : Addr} {name : Bytes} {value : ScriptValue} (hr : Refines m live)
    (hp : IsSection live s) (ha : Allocated live ptr (.scriptEntry s name value)) :
    Refines (scriptEntryNew ptr s name value m) (create live ptr (.scriptEntry s name value)) := by
  unfold scriptEntryNew create
  by_cases hz : ptr = 0
  · rwa [if_pos hz, if_pos hz]
  obtain ⟨hplaced, hap⟩ := ha.resolve_left hz
  have how : (⟨ptr, .scriptEntry s name value⟩ : Obj).Owned live := hp
  obtain ⟨script, sname, hp⟩ := hp
  have hsec : (⟨s, .scriptSection script sname⟩ : Obj).head? = some (s + offsetSectionEntries) := rfl
  have hhook : ∀ q ∈ live, ptr + offsetEntries ∉ q.hooks :=
    not_hook hr.separate.placed hplaced hap (List.mem_singleton_self _)
  rw [if_neg hz, if_neg hz]
  refine hr.concat hplaced hap how (fun h hh => by cases hh) (fun q hq k hqk => ?_)
    ⟨Function.update_self _ _ _, Function.update_self _ _ _⟩
    fun q hq => (hr.stored q hq).update hq (p := ⟨ptr, .scriptEntry s name value⟩) hap
      fun a hne => Function.update_of_ne hne _ _
  · have happ := rings_append hr.separate hr.rings hhook hp hsec hq hqk
    simp only [Obj.within, Option.some.injEq]
    exact happ

end Babelfish.Libfex
