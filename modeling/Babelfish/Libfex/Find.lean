import Babelfish.Libfex.Runs
import Mathlib.Data.List.Find

/-! The lookups find the earliest live element whose name, cut as it was when it was created, is the one
looked for. The memory refines the script tree that its live objects make up. -/

namespace Babelfish.Libfex

open Bytes

variable {m : Mem} {live : List Obj} {o : Obj} {h s script offset : Addr} {fuel : Nat} {key : Bytes}

theorem cstr_fieldName (name : Bytes) : cstr (fieldName name) = fieldName name :=
  cstr_eq_self fun h => zero_not_mem_cstr name (List.mem_of_mem_take h)

theorem fieldName_of_le {name : Bytes} (h : (cstr name).length ≤ 31) : fieldName name = cstr name :=
  List.take_of_length_le h

theorem strcmp_fieldName (name key : Bytes) :
    strcmp (fieldName name) key = 0 ↔ fieldName name = cstr key := by
  rw [strcmp_eq_zero, cstr_fieldName]

def found (key : Bytes) (objs : List Obj) : Option Obj :=
  objs.find? fun o => fieldName o.name = cstr key

theorem findLoop_eq (pre : List Addr) {objs : List Obj} (hr : m.links.Ring h (pre ++ objs.map Obj.hook))
    (hoff : ∀ o ∈ objs, o.hook - offset = o.addr) (hname : ∀ o ∈ objs, m.name o.addr = fieldName o.name)
    (hf : objs.length ≤ fuel) :
    findLoop offset h key m fuel (objs.map Obj.hook).head? = some ((found key objs).map Obj.addr) := by
  induction objs generalizing pre fuel with
  | nil => cases fuel <;> rfl
  | cons o objs ih =>
    obtain _ | fuel := fuel
    · exact absurd hf (Nat.not_succ_le_zero _)
    rw [List.map_cons, List.head?_cons, findLoop, hoff o List.mem_cons_self,
      hname o List.mem_cons_self, found, List.find?_cons]
    rw [List.map_cons] at hr
    by_cases hk : fieldName o.name = cstr key
    · rw [if_pos ((strcmp_fieldName _ _).mpr hk), decide_eq_true hk]
      rfl
    · rw [if_neg (mt (strcmp_fieldName _ _).mp hk), decide_eq_false hk, hr.after_eq]
      rw [List.append_cons] at hr
      exact ih _ hr (fun p hp => hoff p (List.mem_cons_of_mem o hp))
        (fun p hp => hname p (List.mem_cons_of_mem o hp)) (Nat.le_of_succ_le_succ hf)

def sectionsOf (live : List Obj) (script : Addr) : List Obj :=
  live.filter fun o => o.within = some script

def entriesOf (live : List Obj) (s : Addr) : List Obj :=
  live.filter fun o => o.within = some (s + offsetSectionEntries)

theorem Refines.findSection (hr : Refines m live) (hp : IsScript live script)
    (hf : live.length ≤ fuel) :
    scriptFindSection script key fuel m =
      some ((found key (sectionsOf live script)).map Obj.addr) := by
  have hring := hr.rings _ hp script rfl
  have hkind : ∀ o ∈ sectionsOf live script, ∃ name, o = ⟨o.addr, .scriptSection script name⟩ := by
    intro o ho
    obtain ⟨ho, how⟩ := List.mem_filter.mp ho
    obtain ⟨name, hk⟩ := hr.separate.section_of_within hp ho (of_decide_eq_true how)
    exact ⟨name, eq_section hk⟩
  rw [scriptFindSection, hring.first_eq]
  apply findLoop_eq [] hring
  · intro o ho
    obtain ⟨name, hk⟩ := hkind o ho
    rw [hk]
    exact UInt32.add_sub_cancel _ _
  · intro o ho
    have hst := hr.stored o (List.mem_of_mem_filter ho)
    obtain ⟨name, hk⟩ := hkind o ho
    rw [hk] at hst ⊢
    exact hst
  · exact Nat.le_trans (List.length_filter_le _ _) hf

theorem Refines.findEntry (hr : Refines m live) (hsec : IsSection live s) (hf : live.length ≤ fuel) :
    scriptFindEntry s key fuel m = some ((found key (entriesOf live s)).map Obj.addr) := by
  have hkind : ∀ o ∈ entriesOf live s, ∃ name value, o = ⟨o.addr, .scriptEntry s name value⟩ := by
    intro o ho
    obtain ⟨ho, how⟩ := List.mem_filter.mp ho
    obtain ⟨name, value, hk⟩ := hr.separate.entry_of_within hsec ho (of_decide_eq_true how)
    exact ⟨name, value, eq_entry hk⟩
  obtain ⟨script, sname, hsec⟩ := hsec
  have hring : m.links.Ring (s + offsetSectionEntries) ((entriesOf live s).map Obj.hook) :=
    hr.rings _ hsec _ rfl
  rw [scriptFindEntry, hring.first_eq]
  apply findLoop_eq [] hring
  · intro o ho
    obtain ⟨name, value, hk⟩ := hkind o ho
    rw [hk]
    exact UInt32.add_sub_cancel _ _
  · intro o ho
    have hst := hr.stored o (List.mem_of_mem_filter ho)
    obtain ⟨name, value, hk⟩ := hkind o ho
    rw [hk] at hst ⊢
    exact hst.1
  · exact Nat.le_trans (List.length_filter_le _ _) hf

def Obj.value (o : Obj) : ScriptValue :=
  match o.kind with
  | .scriptEntry _ _ value => value
  | _ => .null

def entryOf (o : Obj) : ScriptEntry := ⟨fieldName o.name, o.value⟩

def sectionOf (live : List Obj) (o : Obj) : ScriptSection :=
  ⟨fieldName o.name, (entriesOf live o.addr).map entryOf⟩

def scriptOf (live : List Obj) (script : Addr) : Script :=
  ⟨(sectionsOf live script).map (sectionOf live)⟩

theorem Refines.scriptFindSection_refines (hr : Refines m live) (hp : IsScript live script)
    (hf : live.length ≤ fuel) : ∃ o : Option Obj,
    scriptFindSection script key fuel m = some (o.map Obj.addr) ∧
      Babelfish.scriptFindSection (scriptOf live script) key = o.map (sectionOf live) := by
  refine ⟨_, hr.findSection hp hf, ?_⟩
  rw [Babelfish.scriptFindSection, scriptOf, List.find?_map, found]
  simp only [Function.comp_def, sectionOf, strcmp_fieldName]

theorem Refines.scriptFindEntry_refines (hr : Refines m live) (hsec : IsSection live s)
    (hf : live.length ≤ fuel) : ∃ o : Option Obj,
    scriptFindEntry s key fuel m = some (o.map Obj.addr) ∧
      findEntryLoop key ((entriesOf live s).map entryOf) = o.map entryOf := by
  refine ⟨_, hr.findEntry hsec hf, ?_⟩
  rw [findEntryLoop, List.find?_map, found]
  simp only [Function.comp_def, entryOf, strcmp_fieldName]

/-- Lookups return the earliest live element whose name, cut at 31 bytes, is the one looked for, and
`NULL` if there is none; where no name is longer, that is the earliest created with that name. -/
theorem scriptOps_find {ops : List ScriptOp} (ha : AllowedOps [] ops) (m : Mem)
    (hf : ops.length ≤ fuel) :
    ∃ m', runOps fuel m ops = some m' ∧
      (∀ script key, IsScript (liveAfter [] ops) script →
        let objs := sectionsOf (liveAfter [] ops) script
        scriptFindSection script key fuel m' =
          some ((objs.find? fun o => (cstr o.name).take 31 = cstr key).map Obj.addr) ∧
        ((∀ o ∈ objs, (cstr o.name).length ≤ 31) → scriptFindSection script key fuel m' =
          some ((objs.find? fun o => cstr o.name = cstr key).map Obj.addr))) ∧
      ∀ s key, IsSection (liveAfter [] ops) s →
        let objs := entriesOf (liveAfter [] ops) s
        scriptFindEntry s key fuel m' =
          some ((objs.find? fun o => (cstr o.name).take 31 = cstr key).map Obj.addr) ∧
        ((∀ o ∈ objs, (cstr o.name).length ≤ 31) → scriptFindEntry s key fuel m' =
          some ((objs.find? fun o => cstr o.name = cstr key).map Obj.addr)) := by
  obtain ⟨m', hrun, hr'⟩ := (Refines.nil m).runOps ha (by simpa using hf)
  have hlen := length_liveAfter_le [] ops
  rw [List.length_nil, Nat.zero_add] at hlen
  have hshort : ∀ (objs : List Obj) (key : Bytes), (∀ o ∈ objs, (cstr o.name).length ≤ 31) →
      found key objs = objs.find? fun o => cstr o.name = cstr key := fun objs key hle => by
    refine List.find?_congr fun o ho => ?_
    rw [fieldName_of_le (hle o ho)]
  refine ⟨m', hrun, fun script key hp => ?_, fun s key hs => ?_⟩
  · have hfind := @Refines.findSection _ _ _ _ key hr' hp (Nat.le_trans hlen hf)
    exact ⟨hfind, fun hle => by rw [hfind, hshort _ _ hle]⟩
  · have hfind := @Refines.findEntry _ _ _ _ key hr' hs (Nat.le_trans hlen hf)
    exact ⟨hfind, fun hle => by rw [hfind, hshort _ _ hle]⟩

def longOps : List ScriptOp :=
  [.scriptNew 4096, .sectionNew 4104 4096 (List.replicate 31 97 ++ [98]),
    .sectionNew 4152 4096 (List.replicate 31 97 ++ [99])]

theorem scriptOps_find_long :
    ∃ m', runOps 3 zeroMem longOps = some m' ∧
      (∀ script key, IsScript (liveAfter [] longOps) script →
        let objs := sectionsOf (liveAfter [] longOps) script
        scriptFindSection script key 3 m' =
          some ((objs.find? fun o => (cstr o.name).take 31 = cstr key).map Obj.addr) ∧
        ((∀ o ∈ objs, (cstr o.name).length ≤ 31) → scriptFindSection script key 3 m' =
          some ((objs.find? fun o => cstr o.name = cstr key).map Obj.addr))) ∧
      ∀ s key, IsSection (liveAfter [] longOps) s →
        let objs := entriesOf (liveAfter [] longOps) s
        scriptFindEntry s key 3 m' =
          some ((objs.find? fun o => (cstr o.name).take 31 = cstr key).map Obj.addr) ∧
        ((∀ o ∈ objs, (cstr o.name).length ≤ 31) → scriptFindEntry s key 3 m' =
          some ((objs.find? fun o => cstr o.name = cstr key).map Obj.addr)) :=
  scriptOps_find (by decide) zeroMem (by decide)

/-- A section is not found by the name of 32 bytes that it was created with, but by 31 bytes that no
section was created with. -/
theorem longOps_confused :
    ∃ m', runOps 3 zeroMem longOps = some m' ∧
      scriptFindSection 4096 (List.replicate 31 97 ++ [98]) 3 m' = some none ∧
      scriptFindSection 4096 (List.replicate 31 97) 3 m' = some (some 4104) :=
  ⟨_, rfl, by decide, by decide⟩

end Babelfish.Libfex
