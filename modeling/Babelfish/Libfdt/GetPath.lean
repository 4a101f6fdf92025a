import Mathlib.Data.List.DropRight
import Babelfish.Libfdt.Ancestors

/-! `fdt_get_path` of `fdt_ro.c`, which keeps the path to the node it comes to in the buffer, and its
agreement with `fdt_path_offset`. -/

namespace Babelfish.Libfdt

open Bytes Forest

/-- The name, or in place of `NULL` the error left in `*len`. -/
def fdtGetName (fdt : Fdt) (nodeoffset : Int) : Except Int Bytes :=
  let err := fdtCheckNodeOffset fdt nodeoffset
  if err < 0 then .error err else .ok (cstrAt fdt (nodeoffset + 4))

/-- `do p--; while (buf[p-1] != '/')` on what stands in front of `p`; `none` is a read in front of the
buffer. -/
def dropComponent (path : Bytes) : Option Bytes :=
  match path.dropLast.rdropWhile (· ≠ slash) with
  | [] => none
  | b :: bs => some (b :: bs)

def dropComponents : Nat → Bytes → Option Bytes
  | 0, path => some path
  | n + 1, path => (dropComponent path).bind (dropComponents n)

/-- The body of the loop up to the test of the offset. The state is `pdepth` and what stands in front
of `p`. -/
def pushComponent (fdt : Fdt) (buflen offset depth : Int) (s : Int × Bytes) :
    Except (Option (Except Int Bytes)) (Int × Bytes) :=
  match dropComponents (s.1 - depth).toNat s.2 with
  | none => .error none
  | some path =>
    let pdepth := min s.1 depth
    if depth ≤ pdepth then
      match fdtGetName fdt offset with
      | .error namelen => .error (some (.error namelen))
      | .ok name =>
        if (path.length + name.length + 1 : Int) ≤ buflen then
          .ok (pdepth + 1, path ++ (name ++ [slash]))
        else .ok (pdepth, path)
    else .ok (pdepth, path)

def finishPath (depth : Int) (s : Int × Bytes) : Except Int Bytes :=
  if s.1 < depth + 1 then .error errNoSpace
  else .ok (if 1 < s.2.length then s.2.dropLast else s.2)

def pathBody (fdt : Fdt) (nodeoffset buflen : Int) (p : Pos) (s : Int × Bytes) :
    Except (Option (Except Int Bytes)) (Int × Bytes) :=
  match pushComponent fdt buflen p.1 (p.2.getD 0) s with
  | .error r => .error r
  | .ok s => if p.1 = nodeoffset then .error (some (finishPath (p.2.getD 0) s)) else .ok s

/-- The string that is left in the buffer, or an error; `none` is a read in front of the buffer. -/
def fdtGetPath (fdt : Fdt) (nodeoffset buflen : Int) : Option (Except Int Bytes) :=
  if buflen < 2 then some (.error errNoSpace)
  else
    forLoop (step fdt) (fun p => decide (0 ≤ p.1 ∧ p.1 ≤ nodeoffset)) (pathBody fdt nodeoffset buflen)
      (fun p _ => some (.error (walkError p.1))) (some (.error errBadStructure)) (fdtFuel fdt) (0, some 0)
      (0, [])

def spell (names : List Bytes) : Bytes := names.flatMap (· ++ [slash])

@[simp] theorem spell_nil : spell [] = [] := rfl

@[simp] theorem spell_cons (name : Bytes) (names : List Bytes) :
    spell (name :: names) = name ++ (slash :: spell names) := by simp [spell]

@[simp] theorem spell_append (ms ns : List Bytes) : spell (ms ++ ns) = spell ms ++ spell ns := by
  simp [spell]

theorem dropComponent_spell {c : Bytes} (hc : slash ∉ c) {cs : List Bytes} (hcs : cs ≠ []) :
    dropComponent (spell (cs ++ [c])) = some (spell cs) := by
  obtain ⟨ds, d, rfl⟩ := (List.eq_nil_or_concat cs).resolve_left hcs
  have hlast : (spell (ds.concat d ++ [c])).dropLast = spell (ds.concat d) ++ c := by
    rw [spell_append, show spell [c] = c ++ [slash] by simp, ← List.append_assoc, List.dropLast_concat]
  have hskip : ∀ e : Bytes, slash ∉ e → (spell (ds.concat d) ++ e).rdropWhile (· ≠ slash) =
      spell (ds.concat d) := by
    intro e he
    induction e using List.reverseRecOn with
    | nil =>
      rw [List.append_nil, List.concat_eq_append, spell_append,
        show spell [d] = d ++ [slash] by simp, ← List.append_assoc]
      exact List.rdropWhile_concat_neg _ _ _ (by simp)
    | append_singleton e b ih =>
      simp only [List.mem_append, List.mem_singleton, not_or] at he
      rw [← List.append_assoc, List.rdropWhile_concat_pos _ _ _ (by simpa using Ne.symm he.2)]
      exact ih he.1
  rw [dropComponent, hlast, hskip c hc]
  have hne : spell (ds.concat d) ≠ [] := by simp
  split
  · rename_i he
    exact absurd he hne
  · rename_i he
    rw [he]

theorem dropComponents_spell {cs : List Bytes} (hcs : ∀ c ∈ cs, slash ∉ c) {d : Nat} (hd : 0 < d)
    (hle : d ≤ cs.length) :
    dropComponents (cs.length - d) (spell cs) = some (spell (cs.take d)) := by
  induction cs using List.reverseRecOn with
  | nil => simp at hle; omega
  | append_singleton cs c ih =>
    simp only [List.length_append, List.length_singleton] at hle ⊢
    by_cases heq : d = cs.length + 1
    · subst heq
      rw [Nat.sub_self, List.take_of_length_le (by simp)]
      rfl
    · have hne : cs ≠ [] := fun e => by
        subst e
        simp only [List.length_nil] at hle heq
        omega
      rw [show cs.length + 1 - d = cs.length - d + 1 by omega, dropComponents,
        dropComponent_spell (hcs c (by simp)) hne, Option.bind_some,
        ih (fun c hc => hcs c (List.mem_append_left _ hc)) (by omega),
        List.take_append_of_le_length (by omega)]

/-- With all its components taken away and one more, the path would start in front of the buffer. -/
theorem dropComponents_under (cs : List Bytes) (hcs : ∀ c ∈ cs, slash ∉ c) :
    dropComponents (cs.length + 1) (spell cs) = none := by
  cases cs with
  | nil => simp [dropComponents, dropComponent]
  | cons c cs =>
    have hone := dropComponents_spell hcs (d := 1) (by omega) (by simp)
    have hfirst : dropComponent (spell [c]) = none := by
      have hall : c.rdropWhile (· ≠ slash) = [] := by
        rw [List.rdropWhile_eq_nil_iff]
        intro x hx
        have hne : x ≠ slash := fun e => hcs c List.mem_cons_self (e ▸ hx)
        simpa using hne
      rw [dropComponent, show spell [c] = c ++ [slash] by simp, List.dropLast_concat, hall]
    have hadd : ∀ (m n : Nat) (p q : Bytes), dropComponents m p = some q →
        dropComponents (m + n) p = dropComponents n q := by
      intro m
      induction m with
      | zero =>
        intro n p q hq
        obtain rfl : p = q := by simpa [dropComponents] using hq
        rw [Nat.zero_add]
      | succ m ih =>
        intro n p q hq
        rw [dropComponents] at hq
        obtain ⟨r, hr, hq⟩ := Option.bind_eq_some_iff.mp hq
        rw [show m + 1 + n = m + n + 1 by omega, dropComponents, hr, Option.bind_some, ih n r q hq]
    simp only [List.length_cons, Nat.add_sub_cancel] at hone ⊢
    rw [show cs.length + 1 + 1 = cs.length + 2 from rfl, hadd _ 2 _ _ hone]
    simp [dropComponents, show spell ([c] : List Bytes) = c ++ [slash] by simp,
      show dropComponent (c ++ [slash]) = none by simpa using hfirst]

/-- The components in the buffer after a node: those above it stay, and its own name is added if they
are all there and it fits. -/
def componentsUpd (buflen : Int) (cs : List Bytes) (v : Visit DtNode) : List Bytes :=
  if (cs.take v.depth).length = v.depth ∧
      ((spell (cs.take v.depth ++ [v.val.name])).length : Int) ≤ buflen
  then cs.take v.depth ++ [v.val.name] else cs.take v.depth

theorem layered_components (buflen : Int) :
    Layered (fun d (s t : List Bytes) => s.take d = t.take d) (componentsUpd buflen) where
  refl _ _ := rfl
  trans := Eq.trans
  weaken {d s t} h := by
    have := congrArg (List.take d) h
    rwa [List.take_take, List.take_take, Nat.min_eq_left (Nat.le_succ d)] at this
  keep v s := by
    unfold componentsUpd
    split
    · rename_i hc
      rw [List.take_append_of_le_length (by omega), List.take_take, Nat.min_self]
    · rw [List.take_take, Nat.min_self]
  step {v s t} h := by
    unfold componentsUpd
    rw [h]

theorem length_componentsUpd (buflen : Int) (cs : List Bytes) (v : Visit DtNode) :
    (componentsUpd buflen cs v).length ≤ v.depth + 1 := by
  unfold componentsUpd
  split
  · rename_i hc
    simp only [List.length_append, hc.1, List.length_singleton]
    omega
  · rw [List.length_take]
    omega

theorem foldl_components {buflen : Int} {vs : List (Visit DtNode)} {cs : List Bytes}
    (hd : ∀ i v, vs[i]? = some v → v.depth = cs.length + i)
    (hfit : ((spell cs).length : Int) ≤ buflen) :
    if ((spell (cs ++ vs.map fun v => v.val.name)).length : Int) ≤ buflen
    then vs.foldl (componentsUpd buflen) cs = cs ++ vs.map fun v => v.val.name
    else (vs.foldl (componentsUpd buflen) cs).length < cs.length + vs.length := by
  have hstay : ∀ (ws : List (Visit DtNode)) (cs : List Bytes), (∀ w ∈ ws, cs.length < w.depth) →
      ws.foldl (componentsUpd buflen) cs = cs := by
    intro ws
    induction ws with
    | nil => simp
    | cons w ws ih =>
      intro cs hw
      have hlt := hw w List.mem_cons_self
      have htake : cs.take w.depth = cs := List.take_of_length_le (by omega)
      rw [List.foldl_cons, componentsUpd, htake, if_neg (by omega)]
      exact ih cs fun u hu => hw u (List.mem_cons_of_mem _ hu)
  induction vs generalizing cs with
  | nil => simpa using hfit
  | cons v vs ih =>
    have hv : v.depth = cs.length := by simpa using hd 0 v rfl
    have htake : cs.take v.depth = cs := List.take_of_length_le (by omega)
    have hsplit : cs ++ (v :: vs).map (fun v => v.val.name) =
        (cs ++ [v.val.name]) ++ vs.map fun v => v.val.name := by simp
    rw [List.foldl_cons, hsplit]
    by_cases hname : ((spell (cs ++ [v.val.name])).length : Int) ≤ buflen
    · have hupd : componentsUpd buflen cs v = cs ++ [v.val.name] := by
        rw [componentsUpd, htake, if_pos ⟨hv.symm, hname⟩]
      have := @ih (cs ++ [v.val.name]) (fun i w hw => by
        have := hd (i + 1) w (by simpa using hw)
        simp only [List.length_append, List.length_singleton]
        omega) hname
      have hlen : (cs ++ [v.val.name]).length + vs.length = cs.length + (v :: vs).length := by
        simp only [List.length_append, List.length_cons, List.length_nil]
        omega
      rw [hupd]
      rwa [hlen] at this
    · have hupd : componentsUpd buflen cs v = cs := by
        rw [componentsUpd, htake, if_neg fun hc => hname hc.2]
      have hlong : ¬((spell (cs ++ [v.val.name] ++ vs.map fun v => v.val.name)).length : Int) ≤
          buflen := fun hle => by
        rw [spell_append (cs ++ [v.val.name])] at hle
        apply hname
        simp only [List.length_append] at hle ⊢
        omega
      rw [if_neg hlong, hupd, hstay vs cs fun w hw => ?_]
      · simp
      · obtain ⟨i, hi⟩ := List.mem_iff_getElem?.mp hw
        have := hd (i + 1) w (by simpa using hi)
        omega

variable {fdt : Fdt} {T : DeviceTree}

theorem Repr.getName {id o : Nat} {n : DtNode} (h : Repr fdt T) (hn : T.get? id = some n)
    (ho : DeviceTree.offset T id = some o) : fdtGetName fdt o = .ok n.name := by
  obtain ⟨⟨n', sub⟩, hf, rfl⟩ := Option.map_eq_some_iff.mp hn
  obtain ⟨pre, pad, ps, ss, post, hat, -, -, ho', -⟩ := h.split hf
  obtain rfl : weight Tok.size pre = o := by simpa [ho] using ho'.symm
  have hnode : At fdt (weight Tok.size pre)
      (.beginNode n'.name pad :: (ps ++ (ss ++ (.endNode :: post)))) := by
    simpa using hat.append
  have hz := (hnode.wf _ List.mem_cons_self).1
  have hneg : ¬((weight Tok.size pre + (Tok.beginNode n'.name pad).size : Nat) : Int) < 0 := by omega
  have hdrop : cstrAt fdt ((weight Tok.size pre : Nat) + 4) = n'.name := by
    rw [cstrAt, show (((weight Tok.size pre : Nat) : Int) + 4).toNat = weight Tok.size pre + 4 by omega,
      hnode.nodeName, cstr_append hz]
  simp only [fdtGetName, checkNodeOffset_eq hnode, if_neg hneg, hdrop]

def pathState (cs : List Bytes) : Int × Bytes := (cs.length, spell cs)

theorem pushComponent_eq {buflen : Int} {v : Visit DtNode} {cs : List Bytes}
    (hname : fdtGetName fdt v.offset = .ok v.val.name) (hcs : ∀ c ∈ cs, slash ∉ c)
    (hroot : v.depth = 0 → cs = []) :
    pushComponent fdt buflen v.offset v.depth (pathState cs) =
      .ok (pathState (componentsUpd buflen cs v)) := by
  have htimes : ((cs.length : Int) - v.depth).toNat = cs.length - v.depth := by omega
  have hdrop : dropComponents (cs.length - v.depth) (spell cs) = some (spell (cs.take v.depth)) := by
    by_cases hle : v.depth ≤ cs.length
    · by_cases hzero : v.depth = 0
      · simp [hroot hzero, dropComponents]
      · exact dropComponents_spell hcs (by omega) hle
    · rw [show cs.length - v.depth = 0 by omega, List.take_of_length_le (by omega)]
      rfl
  simp only [pushComponent, pathState, htimes, hdrop, componentsUpd]
  by_cases hle : v.depth ≤ cs.length
  · have hmin : min (cs.length : Int) v.depth = v.depth := by omega
    have hlen : (cs.take v.depth).length = v.depth := by
      rw [List.length_take]
      omega
    have hfit : ((spell (cs.take v.depth)).length + v.val.name.length + 1 : Int) ≤ buflen ↔
        ((spell (cs.take v.depth ++ [v.val.name])).length : Int) ≤ buflen := by
      simp only [spell_append, spell_cons, spell_nil, List.length_append, List.length_cons,
        List.length_nil]
      omega
    simp only [hmin, Int.le_refl, if_true, hname, hlen, true_and, hfit]
    by_cases hroom : ((spell (cs.take v.depth ++ [v.val.name])).length : Int) ≤ buflen
    · rw [if_pos hroom, if_pos hroom]
      simp [hlen]
    · rw [if_neg hroom, if_neg hroom, hlen]
  · have hmin : min (cs.length : Int) v.depth = cs.length := by omega
    have htake : cs.take v.depth = cs := List.take_of_length_le (by omega)
    have hshort : ¬((v.depth : Int) ≤ cs.length) := by omega
    have hnot : ¬(cs.length = v.depth ∧ ((spell (cs ++ [v.val.name])).length : Int) ≤ buflen) :=
      fun hc => by omega
    simp only [hmin, if_neg hshort, htake, if_neg hnot]

def trimPath (path : Bytes) : Bytes := if 1 < path.length then path.dropLast else path

theorem turn_path {x buflen : Int} {v : Visit DtNode} {cs : List Bytes}
    (hname : fdtGetName fdt v.offset = .ok v.val.name) (hcs : ∀ c ∈ cs, slash ∉ c)
    (hroot : v.depth = 0 → cs = []) :
    turn (fun p : Pos => decide (0 ≤ p.1 ∧ p.1 ≤ x)) (pathBody fdt x buflen)
        (fun p _ => some (.error (walkError p.1))) (pathState cs) (posAt (some 0) v) =
      (seek Visit.offset (componentsUpd buflen)
        (fun cs v => some (finishPath v.depth (pathState cs))) (some (.error errBadOffset)) x cs v).map
        pathState := by
  have hpos : (0 : Int) ≤ v.offset := by omega
  have hwalk : walkError v.offset = errBadOffset := by rw [walkError, if_pos (Or.inr hpos)]
  simp only [turn, seek, posAt, pathBody, Option.map_some, Option.getD_some, Int.zero_add, hpos,
    true_and, decide_eq_true_eq, hwalk, pushComponent_eq hname hcs hroot]
  by_cases hle : (v.offset : Int) ≤ x
  · simp only [if_pos hle]
    by_cases heq : (v.offset : Int) = x
    · simp only [if_pos heq]
      rfl
    · simp only [if_neg heq]
      rfl
  · simp only [if_neg hle]
    rfl

theorem slash_componentsUpd {buflen : Int} {v : Visit DtNode} {cs : List Bytes}
    (hv : slash ∉ v.val.name) (hcs : ∀ c ∈ cs, slash ∉ c) :
    ∀ c ∈ componentsUpd buflen cs v, slash ∉ c := by
  intro c hc
  unfold componentsUpd at hc
  split at hc
  · rcases List.mem_append.mp hc with hc | hc
    · exact hcs c (List.mem_of_mem_take hc)
    · rwa [List.mem_singleton.mp hc]
  · exact hcs c (List.mem_of_mem_take hc)

theorem of_seek_ok {buflen x : Int} {v : Visit DtNode} {cs cs' : List Bytes}
    {found : List Bytes → Visit DtNode → Option (Except Int Bytes)} {missed : Option (Except Int Bytes)}
    (h : seek Visit.offset (componentsUpd buflen) found missed x cs v = .ok cs') :
    cs' = componentsUpd buflen cs v := by
  unfold seek at h
  split at h
  · split at h
    · cases h
    · exact (Except.ok.inj h).symm
  · cases h

section GetPath

variable (h : Repr fdt T) (hslash : ∀ id n, T.get? id = some n → slash ∉ n.name)

include h hslash

theorem Repr.foldlM_path (x buflen : Int) :
    (T.visits DtNode.openSize 4 0 0).foldlM (fun s v =>
      turn (fun p : Pos => decide (0 ≤ p.1 ∧ p.1 ≤ x)) (pathBody fdt x buflen)
        (fun p _ => some (.error (walkError p.1))) s (posAt (some 0) v)) (0, []) =
      ((T.visits DtNode.openSize 4 0 0).foldlM (seek Visit.offset (componentsUpd buflen)
        (fun cs v => some (finishPath v.depth (pathState cs))) (some (.error errBadOffset)) x) []).map
        pathState := by
  have hnames : ∀ v ∈ T.visits DtNode.openSize 4 0 0,
      fdtGetName fdt v.offset = .ok v.val.name ∧ slash ∉ v.val.name := fun v hv => by
    obtain ⟨hget, o, ho, hb⟩ := mem_visits h.nodup hv
    obtain rfl : v.offset = o := by omega
    exact ⟨h.getName hget ho, hslash _ _ hget⟩
  obtain ⟨i, n, sub, rfl⟩ := h.rooted
  simp only [visits, List.append_nil, List.foldlM_cons] at hnames ⊢
  have hroot := hnames _ List.mem_cons_self
  rw [show ((0 : Int), ([] : Bytes)) = pathState [] from rfl,
    turn_path hroot.1 (by simp) fun _ => rfl]
  cases hg : seek Visit.offset (componentsUpd buflen)
      (fun cs v => some (finishPath v.depth (pathState cs))) (some (.error errBadOffset)) x []
      (⟨i, n, 0, 0⟩ : Visit DtNode) with
  | error r => rfl
  | ok cs =>
    refine (foldlM_sim pathState (fun cs => ∀ c ∈ cs, slash ∉ c) (fun v hv cs hcs => ?_)
      ?_).1
    · have hv' := hnames v (List.mem_cons_of_mem _ hv)
      have hdepth := (mem_visits_bounds DtNode.openSize_pos hv).2.2
      refine ⟨turn_path hv'.1 hcs fun hz => by omega, fun cs' hcs' => ?_⟩
      rw [of_seek_ok hcs']
      exact slash_componentsUpd hv'.2 hcs
    · rw [of_seek_ok hg]
      exact slash_componentsUpd hroot.2 (by simp)

theorem Repr.getPath_node {id o : Nat} (ho : DeviceTree.offset T id = some o) {buflen : Int}
    (hbuf : 2 ≤ buflen) :
    fdtGetPath fdt o buflen = some (
      if ((spell ((T.lineage id).map fun v => v.val.name)).length : Int) ≤ buflen
      then .ok (trimPath (spell ((T.lineage id).map fun v => v.val.name)))
      else .error errNoSpace) := by
  obtain ⟨fuel, hloop⟩ := h.forLoop_eq (fun p => decide (0 ≤ p.1 ∧ p.1 ≤ (o : Int)))
    (pathBody fdt o buflen) (fun p _ => some (.error (walkError p.1))) (some (.error errBadStructure))
    (0, [])
  obtain ⟨v, vs, us, hid, hvo, hline, hdepth, hupto, hmem, hfold⟩ := h.seek_found ho (componentsUpd buflen)
    (fun cs v => some (finishPath v.depth (pathState cs))) (some (.error errBadOffset)) []
  rw [fdtGetPath, if_neg (by omega), hloop, h.foldlM_path hslash, hfold]
  have hcongr := @Layered.congr _ DtNode.openSize 4 _ _ _ (layered_components buflen) T id 0 0 [] []
    (mem_of_offset ho) rfl h.nodup v hmem hid
  have hlen : ∀ ws : List (Visit DtNode),
      ((ws ++ [v]).foldl (componentsUpd buflen) []).length ≤ v.depth + 1 := fun ws => by
    rw [List.foldl_append]
    exact length_componentsUpd _ _ _
  change _ = List.take (v.depth + 1) ((T.lineage id).foldl (componentsUpd buflen) []) at hcongr
  rw [hupto, hline, List.take_of_length_le (hlen us), List.take_of_length_le (hlen vs), ← hline,
    ← hupto] at hcongr
  simp only [Except.map, hcongr]
  have hcomps := @foldl_components buflen (T.lineage id) []
    (fun i w hw => by
      have := lineage_depth hw
      simpa using this) (by simpa using Int.le_trans (by omega) hbuf)
  simp only [List.nil_append, List.length_nil, Nat.zero_add] at hcomps
  have hlenline : (T.lineage id).length = v.depth + 1 := by rw [hline, hdepth]; simp
  by_cases hfit : ((spell ((T.lineage id).map fun v => v.val.name)).length : Int) ≤ buflen
  · rw [if_pos hfit] at hcomps ⊢
    rw [hcomps, finishPath, pathState, if_neg]
    · rfl
    · simp only [List.length_map]
      omega
  · rw [if_neg hfit] at hcomps ⊢
    rw [finishPath, pathState, if_pos]
    simp only
    omega

/-- Away from the nodes there is no path: up to the end of the structure the offset is bad, and from there
on the search reads in front of the buffer. -/
theorem Repr.getPath_other {x : Int} (hx : ∀ id o, DeviceTree.offset T id = some o → (o : Int) ≠ x)
    {buflen : Int} (hbuf : 2 ≤ buflen) :
    fdtGetPath fdt x buflen = if x < T.end then some (.error errBadOffset) else none := by
  obtain ⟨fuel, hloop⟩ := h.forLoop_eq (fun p => decide (0 ≤ p.1 ∧ p.1 ≤ x))
    (pathBody fdt x buflen) (fun p _ => some (.error (walkError p.1))) (some (.error errBadStructure))
    (0, [])
  rw [fdtGetPath, if_neg (by omega), hloop, h.foldlM_path hslash]
  rcases h.seek_missed hx (componentsUpd buflen)
    (fun cs v => some (finishPath v.depth (pathState cs))) (some (.error errBadOffset)) [] with
    ⟨hfold, hend⟩ | hfold
  · rw [hfold, if_pos hend]
    rfl
  · have hpos : (0 : Int) ≤ T.end := by omega
    rw [hfold]
    simp only [Except.map, h.forLoop_end]
    by_cases hend : x < T.end
    · rw [if_pos hend, if_pos hend, walkError, if_pos (Or.inr hpos)]
    · have hcs : ∀ c ∈ (T.visits DtNode.openSize 4 0 0).foldl (componentsUpd buflen) [], slash ∉ c := by
        have hall : ∀ (vs : List (Visit DtNode)) (cs : List Bytes),
            (∀ v ∈ vs, slash ∉ v.val.name) → (∀ c ∈ cs, slash ∉ c) →
            ∀ c ∈ vs.foldl (componentsUpd buflen) cs, slash ∉ c := by
          intro vs
          induction vs with
          | nil => exact fun cs _ hcs => hcs
          | cons v vs ih =>
            intro cs hvs hcs
            exact ih _ (fun w hw => hvs w (List.mem_cons_of_mem _ hw))
              (slash_componentsUpd (hvs v List.mem_cons_self) hcs)
        exact hall _ _ (fun v hv => hslash _ _ (mem_visits h.nodup hv).1) (by simp)
      have htimes : ∀ n : Nat, ((n : Int) - -1).toNat = n + 1 := fun n => by omega
      rw [if_neg hend, if_neg hend]
      simp only [pathBody, pushComponent, pathState, Option.getD_some, htimes,
        dropComponents_under _ hcs]

end GetPath

theorem spell_dropLast {cs : List Bytes} (h : cs ≠ []) : (spell cs).dropLast = [slash].intercalate cs := by
  induction cs with
  | nil => exact absurd rfl h
  | cons c cs ih =>
    cases cs with
    | nil => simp
    | cons d cs =>
      have hne : spell (d :: cs) ≠ [] := by simp
      rw [spell_cons, List.dropLast_append_of_ne_nil (by simp), List.dropLast_cons_of_ne_nil hne,
        ih (by simp)]
      simp [List.intercalate]

/-- The components of a path that `fdt_get_path` makes, the root's empty name left out. -/
theorem pathComponents_trimPath {cs : List Bytes} (hcs : ∀ c ∈ cs, slash ∉ c ∧ c ≠ []) :
    pathComponents (trimPath (spell ([] :: cs))) = cs ∧
      (trimPath (spell ([] :: cs))).head? = some slash := by
  cases cs with
  | nil => exact ⟨by decide, by decide⟩
  | cons c cs =>
    have hlong : 1 < (spell ([] :: c :: cs)).length := by simp
    have htrim : trimPath (spell ([] :: c :: cs)) = [slash].intercalate ([] :: c :: cs) := by
      rw [trimPath, if_pos hlong, spell_dropLast (by simp)]
    rw [htrim]
    constructor
    · rw [pathComponents, List.splitOn_intercalate slash (fun l hl => ?_) (by simp)]
      · rw [List.filter_cons_of_neg (by simp), List.filter_eq_self]
        intro l hl
        simpa using (hcs l hl).2
      · rcases List.mem_cons.mp hl with rfl | hl
        · simp
        · exact (hcs l hl).1
    · simp [List.intercalate]

/-- The first child that a name fits is the node itself, all the way down to a node. -/
def DeviceTree.Unambiguous (T : DeviceTree) (id : Nat) : Prop :=
  ∀ i j n, j ∈ T.kids i → (∃ v ∈ T.lineage id, v.id = j) → T.get? j = some n →
    T.childOf i (DtNode.isNamed n.name) = some j

theorem Repr.walk_lineage (h : Repr fdt T) {id : Nat} (hid : id ∈ T.ids) (hu : T.Unambiguous id) :
    T.walk T.root ((T.lineage id).tail.map fun v => DtNode.isNamed v.val.name) = some id := by
  have hgo : ∀ (m : Nat) (j : Nat), j ∈ T.ids → (T.lineage j).length ≤ m →
      (∀ v ∈ T.lineage j, v ∈ T.lineage id) → ∀ qs,
      T.walk T.root (((T.lineage j).tail.map fun v => DtNode.isNamed v.val.name) ++ qs) =
        T.walk j qs := by
    intro m
    induction m with
    | zero =>
      intro j hj hlen
      exact absurd (List.length_eq_zero_iff.mp (Nat.le_zero.mp hlen)) (lineage_ne_nil hj 0 0)
    | succ m ih =>
      intro j hj hlen hsub qs
      rcases root_or_kid h.nodup hj with hroot | ⟨i, hi⟩
      · obtain ⟨k, n, sub, rfl⟩ := h.rooted
        obtain rfl : j = k := by simpa [roots] using hroot
        rw [DeviceTree.lineage, lineage_self]
        rfl
      · obtain ⟨v, hv, hline⟩ := @lineage_kid _ DtNode.openSize 4 T h.nodup i j hi 0 0
        change T.lineage j = T.lineage i ++ [v] at hline
        have hmem : i ∈ T.ids := mem_ids_of_mem_kids hi
        have hne : T.lineage i ≠ [] := lineage_ne_nil hmem 0 0
        have hget : T.get? j = some v.val := by
          obtain ⟨w, -, -, ws, -, -, -, -, hw, -, hg⟩ := h.visit
            (DeviceTree.offset_isSome hj).choose_spec
          have : w = v := by
            rw [hw] at hline
            simpa using congrArg List.getLast? hline
          rwa [← this]
        have hchild := hu i j v.val hi ⟨v, hsub v (by rw [hline]; simp), hv⟩ hget
        obtain ⟨⟨n, s⟩, hf⟩ := find?_isSome hmem
        simp only [childOf, hf] at hchild
        rw [hline, List.tail_append_of_ne_nil hne, List.map_append, List.append_assoc,
          ih i hmem (by rw [hline] at hlen; simp at hlen; omega)
            (fun w hw => hsub w (by rw [hline]; simp [hw]))]
        simp only [List.map_cons, List.map_nil, List.singleton_append, walk, hf, hchild]
  have := hgo _ id hid (Nat.le_refl _) (fun _ hv => hv) []
  simpa [walk] using this

theorem Repr.zero_not_mem_name (h : Repr fdt T) {id : Nat} {n : DtNode} (hn : T.get? id = some n) :
    0 ∉ n.name := by
  obtain ⟨sub, hf⟩ := find?_of_get? hn
  obtain ⟨pre, pad, ps, ss, post, hat, -⟩ := h.split hf
  exact (hat.wf (.beginNode n.name pad) (by simp)).1

theorem zero_not_mem_spell {cs : List Bytes} (h : ∀ c ∈ cs, 0 ∉ c) : 0 ∉ spell cs := by
  induction cs with
  | nil => simp
  | cons c cs ih =>
    have hcs := ih fun d hd => h d (List.mem_cons_of_mem _ hd)
    simp [h c List.mem_cons_self, hcs, slash]

theorem Repr.lineage_cons (h : Repr fdt T) {id : Nat} (hid : id ∈ T.ids) :
    ∃ r vs, T.lineage id = r :: vs ∧ T.get? T.root = some r.val ∧
      ∀ v ∈ vs, T.get? v.id = some v.val ∧ v.id ≠ T.root := by
  have hmem : ∀ v ∈ T.lineage id, T.get? v.id = some v.val := fun v hv =>
    (mem_visits h.nodup (lineage_subset T id 0 0 hv)).1
  obtain ⟨i, n, sub, rfl⟩ := h.rooted
  obtain ⟨his, -, hns, -, -⟩ := nodup_ids_node.mp h.nodup
  have hroot : (Forest.node i n sub .nil).get? i = some n := by simp [get?, find?]
  unfold DeviceTree.lineage at hmem ⊢
  by_cases hi : i = id
  · subst hi
    exact ⟨_, [], lineage_self 0 0, hroot, by simp⟩
  · have hs : id ∈ sub.ids := by
      simpa [ids, Ne.symm hi] using hid
    rw [lineage_sub hi hs] at hmem ⊢
    refine ⟨_, _, rfl, hroot, fun v hv => ⟨hmem v (List.mem_cons_of_mem _ hv), fun e => his ?_⟩⟩
    have hget := (mem_visits hns (lineage_subset sub id _ _ hv)).1
    have hv' : v.id = i := e
    exact hv' ▸ mem_of_get? hget

/-- The path of a node leads back to it: where names below the root are not empty, have no slash, and
each fits no sibling in front, the root's name is empty and the path fits into the buffer. -/
theorem Repr.pathOffset_getPath (h : Repr fdt T) {id o : Nat} (ho : DeviceTree.offset T id = some o)
    (hroot : ∀ n, T.get? T.root = some n → n.name = [])
    (hnames : ∀ j n, T.get? j = some n → slash ∉ n.name ∧ (j ≠ T.root → n.name ≠ []))
    (hu : T.Unambiguous id) {buflen : Int} (hbuf : 2 ≤ buflen)
    (hfit : ((spell ((T.lineage id).map fun v => v.val.name)).length : Int) ≤ buflen) :
    ∃ path, fdtGetPath fdt o buflen = some (.ok path) ∧ fdtPathOffset fdt path = o := by
  have hid := mem_of_offset ho
  have hslash : ∀ id n, T.get? id = some n → slash ∉ n.name := fun j n hn => (hnames j n hn).1
  obtain ⟨r, vs, hline, hr, hvs⟩ := h.lineage_cons hid
  have hget := h.getPath_node hslash ho hbuf
  have hwalk := h.walk_lineage hid hu
  rw [if_pos hfit] at hget
  refine ⟨_, hget, ?_⟩
  rw [hline, List.tail_cons] at hwalk
  simp only [hline, List.map_cons, hroot _ hr]
  obtain ⟨hcomps, hhead⟩ := @pathComponents_trimPath (vs.map fun v => v.val.name) fun c hc => by
    obtain ⟨v, hv, rfl⟩ := List.mem_map.mp hc
    obtain ⟨hg, hne⟩ := hvs v hv
    exact ⟨(hnames _ _ hg).1, (hnames _ _ hg).2 hne⟩
  refine (h.pathOffset_abs (fun hz => ?_) hhead).2 id ?_ o ho
  · have hspell : 0 ∉ spell ([] :: vs.map fun v => v.val.name) := zero_not_mem_spell fun c hc => by
      rcases List.mem_cons.mp hc with rfl | hc
      · simp
      · obtain ⟨v, hv, rfl⟩ := List.mem_map.mp hc
        exact h.zero_not_mem_name (hvs v hv).1
    apply hspell
    unfold trimPath at hz
    split at hz
    · exact (List.dropLast_sublist _).subset hz
    · exact hz
  · rw [DeviceTree.lookup, hcomps, List.map_map]
    exact hwalk

theorem socTree_names {id : Nat} {n : DtNode} (hn : socTree.get? id = some n) :
    slash ∉ n.name ∧ (id ≠ 0 → n.name ≠ []) := by
  rcases socTree_ids (mem_of_get? hn) with rfl | rfl | rfl | rfl <;>
    (simp [socTree, get?, find?] at hn; subst hn; decide)

theorem socTree_unambiguous : socTree.Unambiguous 3 := fun i j n hj hv hn => by
  have hkid : ∀ i ∈ socTree.ids, ∀ j ∈ socTree.kids i, j ∈ (socTree.lineage 3).map Visit.id →
      (socTree.get? j).bind (fun n => socTree.childOf i (DtNode.isNamed n.name)) = some j := by decide
  have hline : j ∈ (socTree.lineage 3).map Visit.id := by
    obtain ⟨v, hv, rfl⟩ := hv
    exact List.mem_map_of_mem hv
  have := hkid i (mem_ids_of_mem_kids hj) j hj hline
  rwa [hn, Option.bind_some] at this

theorem Repr.pathOffset_getPath_soc : ∃ path, fdtGetPath (socTree.blob 64) 44 10 = some (.ok path) ∧
    fdtPathOffset (socTree.blob 64) path = (44 : Nat) :=
  socTree_repr.pathOffset_getPath (show DeviceTree.offset socTree 3 = some 44 by decide)
    (fun n hn => by
      have hn' : socTree.get? 0 = some n := hn
      simp [socTree, get?, find?] at hn'
      rw [← hn'])
    (fun _ _ => socTree_names) socTree_unambiguous (by decide) (by decide)

/-- The paths of all offsets: at a node its path if it fits, up to the end of the structure no node,
and from there on the search has read in front of the buffer. -/
theorem Repr.getPath_exact (h : Repr fdt T) (hslash : ∀ id n, T.get? id = some n → slash ∉ n.name)
    {buflen : Int} (hbuf : 2 ≤ buflen) :
    (∀ id o, DeviceTree.offset T id = some o → fdtGetPath fdt o buflen = some (
      if ((spell ((T.lineage id).map fun v => v.val.name)).length : Int) ≤ buflen
      then .ok (trimPath (spell ((T.lineage id).map fun v => v.val.name)))
      else .error errNoSpace)) ∧
      ∀ x : Int, (∀ id o, DeviceTree.offset T id = some o → (o : Int) ≠ x) →
        fdtGetPath fdt x buflen = if x < T.end then some (.error errBadOffset) else none :=
  ⟨fun _ _ ho => h.getPath_node hslash ho hbuf, fun _ hx => h.getPath_other hslash hx hbuf⟩

theorem Repr.getPath_exact_soc :
    fdtGetPath (socTree.blob 64) 44 9 = some (.error errNoSpace) ∧
      fdtGetPath (socTree.blob 64) 84 9 = none := by
  have h := socTree_repr.getPath_exact (fun _ _ hn => (socTree_names hn).1) (show 2 ≤ (9 : Int) by decide)
  refine ⟨(h.1 3 44 (by decide)).trans (by decide), (h.2 84 fun _ _ ho => ?_).trans (by decide)⟩
  have := socTree_offset ho
  omega

end Babelfish.Libfdt
