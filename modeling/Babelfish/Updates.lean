import Mathlib.Data.List.TakeWhile
import Babelfish.Boot
import Babelfish.Plans

/-! What the results of the fixups say about the updates: the calls do what is asked of the tree until the
first update that cannot be made. -/

namespace Babelfish

open Libfdt Bytes Forest DeviceTree

theorem extends_of_adds {α : Type} {P : List Call → Prop} {m : Fixup α} (h : Adds P m) : Extends m := fun w =>
  h.prefix_calls w

section Tags

variable {w : World} {S : Stock}

theorem newBootargs_eq {fdt : Fdt} {T : DeviceTree} {id o : Nat} {n : DtNode} {s : Bytes} (h : Repr fdt T)
    (hn : T.get? id = some n) (ho : DeviceTree.offset T id = some o) (hs : 0 ∉ s)
    (hnul : HasNul (n.getprop strBootargs)) :
    cstr (newBootargs (fdtGetprop fdt o strBootargs).2
      (((fdtGetprop fdt o strBootargs).1.map (cstrAt fdt)).getD []) s) =
      joinArgs (argsOf (n.getprop strBootargs) ++ [s]) := by
  rw [cstr_newBootargs_oldArgs fdt o hs, oldArgs_eq h hn ho hnul]

theorem runs_setBootargs_ends {i : Nat} {o : Int} {s : Bytes} (hs : Stocked w.fdt S) (hc : Clean w)
    (hlook : S.tree.lookup strChosenPath = some i) (ho : o = fdtPathOffset w.fdt strChosenPath)
    (hz : 0 ∉ s) :
    Runs (call (.path strChosenPath) (.getprop strBootargs) o >>= fun len =>
      (MonadState.get : Fixup World) >>= fun w =>
      setpropString (.path strChosenPath) o strBootargs (cstr (newBootargs len
        (((fdtGetprop w.fdt o strBootargs).1.map (cstrAt w.fdt)).getD []) s)) >>= fun ret =>
      if ret < 0 then pure ret else pure 0) w fun r w' =>
        Ends (fun _ => True) r w' (Stock.setBootargs s (i, S)) := by
  have hrepr := hs.repr
  have hfound := found_lookup hrepr (show 0 ∉ strChosenPath by decide) (by decide)
  rw [hlook, ← ho] at hfound
  obtain ⟨k, hk, rfl⟩ := hfound.1 i rfl
  obtain ⟨n, hn⟩ := get?_of_mem (mem_of_offset hk)
  have hvalue : S.value i strBootargs = n.getprop strBootargs := by
    rw [Stock.value, hn, Option.bind_some]
  unfold Stock.setBootargs
  simp only [hvalue]
  by_cases hnul : HasNul (n.getprop strBootargs)
  · rw [if_pos hnul]
    refine Runs.bind (runs_call (Runs.bind (Runs.get ?_)))
    simp only [setpropString, World.call_fdt, Op.run, newBootargs_eq hrepr hn hk hz hnul]
    have hc' : Clean (w.call (.path strChosenPath) (.getprop strBootargs) k) :=
      hc.call ho (by rintro (hu | hu) <;> cases hu)
    have hs' : Stocked (w.call (.path strChosenPath) (.getprop strBootargs) k).fdt S := hs
    refine Runs.bind ((runs_try hs' hc' ho hfound (show 0 ∉ strBootargs by decide) (by decide)).mono fun r w' hends => ?_)
    split <;> exact Runs.pure (hends.any (require_ne_reported _ _ _) _)
  · rw [if_neg hnul]
    refine Runs.bind (runs_call (Runs.bind (Runs.get ?_)))
    refine Runs.bind (runs_call ?_)
    split <;> exact Runs.pure trivial

/-- `/chosen` is created as the first child of the root and is found at the offset returned. -/
theorem chosen_added {fdt : Fdt} {S : Stock} (hs : Stocked fdt S)
    (hlook : S.tree.lookup strChosenPath = none) :
    ∃ k : Nat,
      (fdtAddSubnode fdt (0 : Nat) strChosen).1 =
        (if (S.update S.tree.root (.addSubnode strChosen)).1 then (k : Int) else errNoSpace) ∧
      Stocked (fdtAddSubnode fdt (0 : Nat) strChosen).2 (S.update S.tree.root (.addSubnode strChosen)).2 ∧
      ((S.update S.tree.root (.addSubnode strChosen)).1 = true →
        (S.update S.tree.root (.addSubnode strChosen)).2.tree.lookup strChosenPath = some S.tree.newId ∧
        (k : Int) = fdtPathOffset (fdtAddSubnode fdt (0 : Nat) strChosen).2 strChosenPath) := by
  have hrepr := hs.repr
  have hupd : S.update S.tree.root (.addSubnode strChosen) =
    S.addSubnode S.tree.root S.tree.newId strChosen := rfl
  obtain ⟨n₀, hn₀⟩ := get?_of_mem hrepr.rooted.root_mem
  have hchild : S.tree.childOf S.tree.root (DtNode.isNamed strChosen) = none :=
    (lookup_eq_childOf pathComponents_chosen).symm.trans hlook
  obtain ⟨hoff, hret, hstock⟩ := hs.addSubnode hn₀ hrepr.offset_root (by decide) hchild
    (newId_not_mem S.tree)
  rw [hupd]
  refine ⟨0 + n₀.openSize, hret, hstock, fun hmade => ?_⟩
  have htree : (S.addSubnode S.tree.root S.tree.newId strChosen).2.tree =
      S.tree.addFirst S.tree.root S.tree.newId ⟨strChosen, []⟩ := by
    have := Stock.splice_tree S (S.tree.addFirst S.tree.root S.tree.newId ⟨strChosen, []⟩) []
      (nodeRoom strChosen) 0
    exact this.trans (if_pos hmade)
  have hlook' : (S.addSubnode S.tree.root S.tree.newId strChosen).2.tree.lookup strChosenPath =
      some S.tree.newId := by
    rw [htree]
    exact lookup_chosen_addFirst hrepr.rooted _
  refine ⟨hlook', ((hstock.repr.pathOffset_abs (by decide) (by decide)).2 _ hlook' _ ?_).symm⟩
  rw [htree]
  exact hoff

theorem follows_appendBootargs {s : Bytes} (hz : 0 ∉ s) :
    Follows (fdtFixupAppendBootargs s) (fun _ => True) (Stock.appendBootargs s) := by
  intro w S hs hc
  have hrepr := hs.repr
  have hneg : errNoSpace < 0 := by simp [errNoSpace]
  have hfound := found_lookup hrepr (show 0 ∉ strChosenPath by decide) (by decide)
  unfold fdtFixupAppendBootargs Stock.appendBootargs Stock.chosen
  refine Runs.bind ((runs_find hs hc (by decide)).mono ?_)
  rintro r w₁ ⟨rfl, hfdt, hs₁, hc₁⟩
  rw [← hfdt] at hfound
  cases hlook : S.tree.lookup strChosenPath with
  | some i =>
    rw [hlook] at hfound
    obtain ⟨k, hk, hr⟩ := hfound.1 i rfl
    have hpos : ¬fdtPathOffset w₁.fdt strChosenPath < 0 := by omega
    rw [if_neg hpos]
    refine Runs.bind (Runs.pure ?_)
    beta_reduce
    rw [if_neg hpos]
    exact runs_setBootargs_ends hs₁ hc₁ hlook rfl hz
  | none =>
    rw [hlook] at hfound
    rw [if_pos (hfound.2 rfl)]
    obtain ⟨k, hret, hstock, hnew⟩ := chosen_added hs₁ hlook
    have hpos : 0 ≤ (k : Int) := by omega
    have hrun : (Op.run w₁.fdt 0 (.addSubnode strChosen)).1 = (fdtAddSubnode w₁.fdt (0 : Nat) strChosen).1 :=
      rfl
    unfold Stock.require
    refine Runs.bind (runs_call ?_)
    rw [hrun, hret]
    by_cases hmade : (S.update S.tree.root (.addSubnode strChosen)).1 = true
    · simp only [if_pos hmade]
      obtain ⟨hlook', hoff⟩ := hnew hmade
      rw [if_neg (Int.not_lt.mpr hpos)]
      refine runs_setBootargs_ends hstock (hc₁.call rfl fun _ => ?_) hlook' hoff hz
      rw [hrun, hret, if_pos hmade]
      exact hpos
    · simp only [if_neg hmade]
      rw [if_pos hneg]
      refine Runs.pure (show ∃ c ∈ _, _ from
        ⟨_, List.mem_concat_self, Or.inr ⟨Or.inl (.addSubnode _), fun hsucc => ?_⟩, ?_⟩)
      · have hle : 0 ≤ (fdtAddSubnode w₁.fdt (0 : Nat) strChosen).1 := hsucc
        rw [hret, if_neg hmade] at hle
        omega
      · rintro ⟨name, -, val, hop⟩
        cases hop

theorem follows_find_set {path name val : Bytes} (hzp : 0 ∉ path) (habs : path.head? = some slash)
    (hne : path ≠ strPinctrlPath) (hz : 0 ∉ name) (hname : name ∉ [strCompatible, strModel, strStatus]) :
    Follows (pathOffset path >>= fun o => call (.path path) (.setprop name val) o >>= fun _ => pure ())
      (fun _ => True) fun S => S.require .ignored (S.tree.lookup path) (.setprop name val) := by
  intro w S hs hc
  refine Runs.bind ((runs_find hs hc hne).mono ?_)
  rintro r w₁ ⟨rfl, -, hs₁, hc₁⟩
  have hfound := found_lookup hs₁.repr hzp habs
  refine Runs.bind ((runs_try hs₁ hc₁ rfl hfound hz hname).mono
    fun r w' hends => Runs.pure (hends.any (require_ne_reported _ _ _) _))

theorem follows_initrd (start stop : UInt32) :
    Follows (pathOffset strChosenPath >>= fun o =>
        setpropU32 (.path strChosenPath) o strInitrdStart start >>= fun _ =>
        setpropU32 (.path strChosenPath) o strInitrdEnd stop >>= fun _ => pure ())
      (fun _ => True) fun S =>
        S.require .ignored (S.tree.lookup strChosenPath) (.setprop strInitrdStart (be32 start.toNat)) >>=
          fun S => S.require .ignored (S.tree.lookup strChosenPath)
            (.setprop strInitrdEnd (be32 stop.toNat)) := by
  have hext : ∀ o, Extends (setpropU32 (.path strChosenPath) o strInitrdEnd stop >>= fun _ =>
      (pure () : Fixup Unit)) := fun o => Extends.bind (Extends.call _ _ _) fun _ => Extends.pure _
  have hset : (Op.setprop strInitrdStart (be32 start.toNat)).Sets := .setprop (by decide) _
  intro w S hs hc
  beta_reduce
  refine Runs.bind ((runs_find hs hc (by decide)).mono ?_)
  rintro r w₁ ⟨rfl, -, hs₁, hc₁⟩
  have hfound := found_lookup hs₁.repr (show 0 ∉ strChosenPath by decide) (by decide)
  refine Runs.bind ((runs_try hs₁ hc₁ rfl hfound (show 0 ∉ strInitrdStart by decide) (by decide)).mono fun r w₂ hends => ?_)
  rcases @require_cases S .ignored (S.tree.lookup strChosenPath)
    (.setprop strInitrdStart (be32 start.toNat)) with ⟨i, hlook, hmade, he⟩ | he
  · rw [he] at hends ⊢
    obtain ⟨-, hs₂, hc₂⟩ := hends
    have htree : (S.update i (.setprop strInitrdStart (be32 start.toNat))).2.tree = S.tree.modify i _ :=
      (update_tree hset).trans (if_pos hmade)
    obtain ⟨k, hk, hr⟩ := hfound.1 i hlook
    obtain ⟨n, hn⟩ := get?_of_mem (mem_of_offset hk)
    have hlook' : (S.update i (.setprop strInitrdStart (be32 start.toNat))).2.tree.lookup strChosenPath =
        some i := by
      rw [htree, lookup_modify hs.repr.nodup (Op.keepsName_edit _)]
      exact hlook
    have hfound₂ := found_lookup hs₂.repr (show 0 ∉ strChosenPath by decide) (by decide)
    rw [hlook'] at hfound₂
    have hstays : Found (S.update i (.setprop strInitrdStart (be32 start.toNat))).2.tree (some i)
        (fdtPathOffset w₁.fdt strChosenPath) := by
      refine ⟨fun j hj => ⟨k, ?_, hr⟩, fun h => nomatch h⟩
      obtain rfl := Option.some.inj hj
      rw [htree]
      exact (DeviceTree.stays_modify hs.repr.nodup hn hk _).2
    rw [← hlook'] at hstays
    refine Runs.bind ((runs_try hs₂ hc₂ (hfound₂.unique (hlook' ▸ hstays)).symm hstays
      (show 0 ∉ strInitrdEnd by decide) (by decide)).mono fun r w' hends => ?_)
    exact Runs.pure (hends.any (require_ne_reported _ _ _) _)
  · rw [he] at hends ⊢
    exact Follows.runs_ignored hends (hext _)

theorem bind_ok_self (p : Stock → Except Failure Stock) : (fun S => p S >>= Except.ok) = p := by
  funext S
  cases p S <;> simp [bind, Except.bind]

theorem follows_tag (tags : List UInt32) : Follows (fixupTag tags) (fun _ => True) (Stock.tag tags) := by
  unfold fixupTag Stock.tag
  refine Follows.ite (fun _ => ?_) fun _ => Follows.ite (fun _ => ?_) fun _ =>
    Follows.ite (fun _ => follows_initrd _ _) fun _ => Follows.pure trivial
  · rw [← bind_ok_self (Stock.appendBootargs _)]
    exact (follows_appendBootargs (zero_not_mem_cstr _)).bind_any (fun _ => Follows.pure trivial)
      fun _ => Extends.pure _
  · exact Follows.ite (fun _ => Follows.pure trivial) fun _ =>
      follows_find_set (by decide) (by decide) (by decide) (by decide) (by decide)

theorem follows_tagLoop (fuel : Nat) (tags : List UInt32) :
    Follows (tagLoop fuel tags) (fun _ => True) (Stock.tagLoop fuel tags) := by
  induction fuel generalizing tags with
  | zero => exact Follows.pure trivial
  | succ fuel ih =>
    exact Follows.ite (fun _ => Follows.pure trivial) fun _ =>
      (follows_tag tags).bind_any (fun _ => ih _) fun _ => extends_of_adds (Unchecked.tagLoop _ _)

theorem follows_fromAtags (tags : List UInt32) :
    Follows (fdtFixupFromAtags tags) (· = 0) (Stock.fromAtags tags) := by
  unfold Stock.fromAtags
  rw [← bind_ok_self (Stock.tagLoop _ _)]
  exact (follows_tagLoop _ tags).bind_any (fun _ => Follows.pure rfl) fun _ => Extends.pure _

end Tags

theorem Libfdt.Repr.getAlias_none {fdt : Fdt} {T : DeviceTree} {name : Bytes} (h : Repr fdt T)
    (hclear : Stock.AliasClear T name) (ha : T.aliasPath name = none) : fdtGetAlias fdt name = none := by
  have hfound := found_lookup h (show 0 ∉ strAliases by decide) (by decide)
  have hloop : Libfdt.pathLoop fdt 0 (pathComponents strAliases) = fdtPathOffset fdt strAliases := by
    rw [fdtPathOffset, aliasFuel, fdtPathOffsetAux, if_pos (by decide)]
  unfold fdtGetAlias
  simp only [hloop]
  cases hl : T.lookup strAliases with
  | none =>
    rw [hl] at hfound
    rw [if_pos (hfound.2 rfl)]
  | some i =>
    rw [hl] at hfound
    obtain ⟨k, hk, hr⟩ := hfound.1 i rfl
    obtain ⟨n, hn⟩ := get?_of_mem (mem_of_offset hk)
    have hprop : n.getprop name = none := by
      cases hv : n.getprop name with
      | none => rfl
      | some v =>
        have hv' := hclear n (by rw [hl]; exact hn) v hv
        simp [DeviceTree.aliasPath, hl, hn, hv, hv'] at ha
    rw [hr, h.getprop_none hn hk hprop]
    simp

theorem Libfdt.Repr.pathOffset_unresolved {fdt : Fdt} {T : DeviceTree} {name : Bytes} (h : Repr fdt T)
    (hslash : slash ∉ name) (hclear : Stock.AliasClear T name) (hnone : T.resolve name = none) :
    fdtPathOffset fdt name < 0 := by
  have habs : name.head? ≠ some slash := fun h => hslash (List.mem_of_mem_head? h)
  have htake : name.takeWhile (· ≠ slash) = name := List.takeWhile_eq_self_iff.mpr fun b hb =>
    decide_eq_true fun he => hslash (he ▸ hb)
  have hdrop : name.dropWhile (· ≠ slash) = [] := List.dropWhile_eq_nil_iff.mpr fun b hb =>
    decide_eq_true fun he => hslash (he ▸ hb)
  have hcomp : pathComponents [] = [] := by decide
  unfold DeviceTree.resolve at hnone
  rw [if_neg habs, htake, hdrop, hcomp] at hnone
  rw [fdtPathOffset, aliasFuel, fdtPathOffsetAux, if_neg habs, htake, hdrop, hcomp]
  cases ha : T.aliasPath name with
  | some p =>
    obtain ⟨hz, hpabs⟩ := aliasPath_abs ha
    have hlook : T.lookup p = none := by
      cases hl : T.lookup p with
      | none => rfl
      | some j => simp [ha, hl, walk] at hnone
    have hinner : fdtPathOffsetAux fdt 2147483647 p = errNotFound := by
      rw [fdtPathOffsetAux, if_pos hpabs]
      exact (h.pathLoop h.offset_root h.root_mem _
        fun c hc => zero_not_mem_of_mem_components hz hc).1 hlook
    rw [h.getAlias ha]
    simp [hinner, Libfdt.pathLoop, errNotFound]
  | none =>
    rw [h.getAlias_none hclear ha]
    simp [errBadPath]

section Fex

variable {w : World} {S : Stock} {script : Script}

theorem follows_root {name : Bytes} (hz : 0 ∉ name) (val : Bytes) {good : Int → Prop} (hgood : good 0)
    (hneg : ∀ r < 0, ¬good r) :
    Follows (call .root (.setprop name val) 0) good fun S =>
      S.require .reported (some S.tree.root) (.setprop name val) := fun _ _ hs hc =>
  runs_set hs hc rfl ⟨fun _ hj => ⟨0, Option.some.inj hj ▸ hs.repr.offset_root, rfl⟩, fun h => nomatch h⟩
    hz hgood (Or.inl ⟨rfl, hneg⟩)

theorem follows_machine {string : Bytes} (h : script.string strProduct strMachine = some string)
    (compatible : Bytes) :
    Follows (fdtFixupMachine compatible script) (· = 0) (Stock.machine compatible string) := by
  have hread := reads_string script strProduct strMachine
  rw [h] at hread
  have hzero : ∀ r : Int, r < 0 → ¬0 ≤ r := fun r hr => by omega
  have hmodel : Follows (setpropString .root 0 strModel (cstr string) >>= fun ret =>
      if ret < 0 then pure ret else pure 0) (· = 0) fun S =>
        S.require .reported (some S.tree.root) (.setprop strModel (cstr string ++ [0])) := by
    rw [← bind_ok_self fun S : Stock => S.require .reported _ _]
    refine (follows_root (by decide) _ (Int.le_refl 0) hzero).bind (fun a ha => ?_) (fun a => ?_)
      fun a ha => ⟨a, if_pos (by omega), by omega⟩
    · rw [if_neg (by omega)]
      exact Follows.pure rfl
    · exact Extends.ite (Extends.pure _) (Extends.pure _)
  unfold fdtFixupMachine Stock.machine
  refine (follows_root (by decide) _ (Int.le_refl 0) hzero).bind (fun a ha => ?_) (fun a => ?_)
    fun a ha => ⟨a, if_pos (by omega), by omega⟩
  · rw [if_neg (by omega), ← bind_assoc]
    exact Follows.of_reads hread hmodel
  · refine Extends.ite (Extends.pure _) fun w => ?_
    rw [← bind_assoc]
    refine hread.runs rfl ?_
    exact Extends.bind (Extends.call _ _ _) (fun _ => Extends.ite (Extends.pure _) (Extends.pure _)) w

theorem follows_enable {serial : Bytes} (hz : 0 ∉ serial) (hslash : slash ∉ serial) :
    Follows (pathOffset serial >>= fun o => setpropString (.path serial) o strStatus strOkay) (· = 0)
      (Stock.enable serial) := by
  intro w S hs hc
  unfold Stock.enable
  split
  · exact (Extends.bind (Extends.pathOffset _) (fun _ => Extends.call _ _ _) w).mono fun _ _ _ => trivial
  · rename_i hclear
    have hne : serial ≠ strPinctrlPath := fun he => hslash (he ▸ by decide)
    refine Runs.bind ((runs_find hs hc hne).mono ?_)
    rintro r w₁ ⟨rfl, -, hs₁, hc₁⟩
    refine runs_set hs₁ hc₁ rfl ⟨fun j hj => ?_, fun hnone => ?_⟩ (by decide) rfl
      (Or.inl ⟨rfl, fun r hr => by omega⟩)
    · obtain ⟨k, hk⟩ := DeviceTree.offset_isSome (DeviceTree.resolve_mem hs₁.repr hj)
      exact ⟨k, hk, hs₁.repr.pathOffset hz hj hk⟩
    · exact hs₁.repr.pathOffset_unresolved hslash (not_not.mp fun hno => hclear ⟨hnone, hno⟩) hnone

theorem exists_ignored {w' : World} {cs : List Call} (hc : Clean w) (hcs : w'.calls = w.calls ++ cs)
    (hno : ∀ c ∈ cs, ¬c.Checked) (hbad : ∃ c ∈ w'.calls, c.Bad) :
    ∃ c ∈ w'.calls, c.Bad ∧ ¬c.Checked := by
  obtain ⟨c, hmem, hb⟩ := hbad
  refine ⟨c, hmem, hb, ?_⟩
  rw [hcs] at hmem
  rcases List.mem_append.mp hmem with hold | hnew
  · exact absurd hb (hc c hold)
  · exact hno c hnew

theorem follows_pinctrl {serial device : Bytes} (hz : 0 ∉ serial)
    (hsafe : ¬strPinctrl <+: serial.takeWhile (· ≠ slash)) (hzd : 0 ∉ device) (hat : atSign ∉ device)
    (gpios : List Gpio) :
    Follows (fdtAddPinctrlGroup strPinctrlPath serial gpios device) (fun _ => True)
      (Stock.pinctrl serial device gpios) := by
  intro w S hs hc
  have hun := Unchecked.addPinctrlGroup strPinctrlPath serial gpios device w
  have habs : strPinctrlPath.head? = some slash := by decide
  have hresolve : S.tree.resolve strPinctrlPath = S.tree.lookup strPinctrlPath := by
    rw [DeviceTree.resolve, if_pos habs]
  unfold Stock.pinctrl
  cases hctrl : S.tree.resolve strPinctrlPath with
  | none =>
    have hneg : (Op.run w.fdt 0 (.pathOffset strPinctrlPath)).1 < 0 :=
      (found_lookup hs.repr (show 0 ∉ strPinctrlPath by decide) habs).2 (hresolve ▸ hctrl)
    unfold fdtAddPinctrlGroup
    refine Runs.bind (runs_call ?_)
    rw [if_pos hneg]
    refine Runs.pure ?_
    refine ⟨_, List.mem_concat_self, Or.inr ⟨Or.inr rfl, ?_⟩, ?_⟩
    · exact fun hsucc => Int.not_lt.mpr hsucc hneg
    · rintro ⟨name, -, val, hop⟩
      cases hop
  | some c =>
    cases hres : S.tree.resolve serial with
    | none => exact hun.mono fun _ _ _ => trivial
    | some d =>
      simp only
      split
      · exact hun.mono fun _ _ _ => trivial
      · rename_i hcd
        obtain ⟨hfresh, hmade⟩ := (clean_iff w).mp hc
        have htracks : Tracks w ⟨S, []⟩ :=
          ⟨hs, hfresh, iff_of_true hmade fun _ hu => absurd hu List.not_mem_nil⟩
        have hpaths : Paths strPinctrlPath serial d (S.tree.lookup strAliases) :=
          ⟨by decide, hz, fun hno => absurd habs hno, fun _ _ => hsafe⟩
        refine ((htracks.runs_addPinctrlGroup hpaths hzd hat hctrl hres hcd).and hun).mono ?_
        rintro r w' ⟨⟨hheld, -, hw, -⟩ | ⟨hnot, x, hx, hstale⟩, cs, hcs, hno⟩
        · by_cases hall : ∀ u ∈ (S.addPinctrlGroup c d device gpios).2.updates, u.Made
          · rw [if_pos ⟨hheld, hall⟩]
            exact ⟨trivial, hw.stocked, (clean_iff w').mpr ⟨hw.fresh, hw.made.mpr hall⟩⟩
          · rw [if_neg fun h => hall h.2]
            refine exists_ignored hc hcs hno ?_
            by_contra hnone
            refine hall (hw.made.mp fun x hx hreq => ?_)
            by_contra hfail
            exact hnone ⟨x, hx, Or.inr ⟨hreq, hfail⟩⟩
        · rw [if_neg fun h => hnot h.1]
          exact exists_ignored hc hcs hno ⟨x, hx, Or.inl hstale⟩

theorem gpios_of_reads {i : Nat} {type : UInt32} {pins : List Script.Pin}
    (htype : script.single (uartPara i) strUartType = some type)
    (hpins : script.pins (uartPara i) (uartKeys type) = some pins) :
    script.gpios i = if uartKeys type = [] then none else some (pins.map Script.Pin.gpio) := by
  simp [Script.gpios, htype, hpins]

theorem follows_uart {i : Nat} (hok : UartOk script i) (hi : i < sunxiMaxUarts) :
    Follows (fixupUart script i) (· = 0) (Stock.uart script i) := by
  obtain ⟨used, hused, htype⟩ := hok
  have hnames : 0 ∉ catChar strSerial (uartIdx i) ∧ slash ∉ catChar strSerial (uartIdx i) ∧
      ¬strPinctrl <+: (catChar strSerial (uartIdx i)).takeWhile (· ≠ slash) ∧
      0 ∉ catChar strUart (uartIdx i) ∧ atSign ∉ catChar strUart (uartIdx i) := by
    have hall : ∀ i < sunxiMaxUarts, 0 ∉ catChar strSerial (uartIdx i) ∧
        slash ∉ catChar strSerial (uartIdx i) ∧
        ¬strPinctrl <+: (catChar strSerial (uartIdx i)).takeWhile (· ≠ slash) ∧
        0 ∉ catChar strUart (uartIdx i) ∧ atSign ∉ catChar strUart (uartIdx i) := by decide
    exact hall i hi
  obtain ⟨hz, hslash, hsafe, hzd, hat⟩ := hnames
  have hread := reads_single script (uartPara i) strUartUsed
  rw [hused] at hread
  unfold fixupUart Stock.uart
  simp only [Option.mem_def.mp hused, Option.some.injEq]
  rw [← bind_assoc]
  refine Follows.of_reads hread ?_
  by_cases hu : used = 1
  · obtain ⟨type, ht, hkeys⟩ := htype hu
    have hreadt := reads_single script (uartPara i) strUartType
    obtain ⟨pins, hpins⟩ := Option.isSome_iff_exists.mp ((isSome_pins _).mpr hkeys)
    rw [ht] at hreadt
    have hgpios := gpios_of_reads ht hpins
    have hreadg := reads_uartGpios_of_pins hpins
    rw [← hgpios] at hreadg
    simp only [hu, ne_eq, not_true_eq_false, if_false, if_true]
    rw [← bind_assoc]
    refine (follows_enable hz hslash).bind (fun a ha => ?_) (fun a => ?_) fun a ha => ⟨a, if_pos ha, ha⟩
    · rw [if_neg (not_not.mpr ha), ← bind_assoc]
      refine Follows.of_reads hreadt (Follows.of_reads hreadg ?_)
      cases script.gpios i with
      | none => exact Follows.pure rfl
      | some gpios =>
        simp only
        rw [← bind_ok_self fun S : Stock => S.pinctrl _ _ _]
        exact (follows_pinctrl hz hsafe hzd hat gpios).bind_any (fun _ => Follows.pure rfl)
          fun _ => Extends.pure _
    · refine Extends.ite (Extends.pure _) fun w => ?_
      rw [← bind_assoc]
      refine hreadt.runs rfl (hreadg.runs rfl ?_)
      cases script.gpios i with
      | none => exact Extends.pure _ w
      | some gpios =>
        exact Extends.bind (extends_of_adds (Unchecked.addPinctrlGroup _ _ _ _)) (fun _ => Extends.pure _) w
  · simp only [hu, ne_eq, not_false_eq_true, if_true, if_false]
    exact Follows.pure rfl

theorem extends_of_reports {m : Fixup Int} (h : Reports m) : Extends m := fun w =>
  (h w).mono fun _ _ ⟨cs, hcs, _⟩ => ⟨cs, hcs.symm⟩

theorem follows_uartLoop (is : List Nat) (hok : ∀ i ∈ is, UartOk script i)
    (hi : ∀ i ∈ is, i < sunxiMaxUarts) :
    Follows (uartLoop script is) (· = 0) (Stock.uartLoop script is) := by
  induction is with
  | nil => exact Follows.pure rfl
  | cons i is ih =>
    have hrest := fun j hj => hok j (List.mem_cons_of_mem i hj)
    refine (follows_uart (hok i List.mem_cons_self) (hi i List.mem_cons_self)).bind (fun a ha => ?_)
      (fun a => ?_) fun a ha => ⟨a, if_pos ha, ha⟩
    · rw [if_neg (not_not.mpr ha)]
      exact ih hrest fun j hj => hi j (List.mem_cons_of_mem i hj)
    · exact Extends.ite (Extends.pure _) (extends_of_reports (Reports.uartLoop is hrest))

theorem follows_uarts (h : ScriptOk script) :
    Follows (fdtFixupUarts script) (· = 0) (Stock.uarts script) := by
  obtain ⟨port, hport⟩ := Option.isSome_iff_exists.mp h.port
  have hread := reads_single script strUartPara strUartDebugPort
  rw [hport] at hread
  have hz : 0 ∉ catChar strConsole (48 + port).toUInt8 ++ strBaud := by
    rw [List.mem_append, not_or]
    exact ⟨zero_not_mem_catChar (by decide) _, by decide⟩
  have hok : ∀ i ∈ List.range sunxiMaxUarts, UartOk script i := fun i hi =>
    h.uarts i (List.mem_range.mp hi)
  unfold fdtFixupUarts Stock.uarts
  rw [hport, Option.getD_some, ← bind_assoc]
  refine Follows.of_reads hread ((follows_appendBootargs hz).bind_any (fun _ => ?_) fun _ => ?_)
  · exact follows_uartLoop _ hok fun i => List.mem_range.mp
  · exact extends_of_reports (Reports.uartLoop _ hok)

theorem follows_fromFex (h : ScriptOk script) (compatible : Bytes) :
    Follows (fdtFixupFromFex compatible script) (· = 0) (Stock.fromFex compatible script) := by
  obtain ⟨string, hstring⟩ := Option.isSome_iff_exists.mp h.machine
  have hloop : Follows (fdtFixupUarts script >>= fun ret => if ret ≠ 0 then pure ret else pure 0) (· = 0)
      (Stock.uarts script) := by
    rw [← bind_ok_self (Stock.uarts script)]
    refine (follows_uarts h).bind (fun a ha => ?_) (fun a => ?_) fun a ha => ⟨a, if_pos ha, ha⟩
    · rw [if_neg (not_not.mpr ha)]
      exact Follows.pure rfl
    · exact Extends.ite (Extends.pure _) (Extends.pure _)
  unfold fdtFixupFromFex Stock.fromFex
  rw [hstring, Option.getD_some]
  refine (follows_machine hstring compatible).bind (fun a ha => ?_) (fun a => ?_)
    fun a ha => ⟨a, if_pos ha, ha⟩
  · rw [if_neg (not_not.mpr ha)]
    exact hloop
  · refine Extends.ite (Extends.pure _) ?_
    exact Extends.bind (extends_of_reports (Reports.uarts h)) fun _ =>
      Extends.ite (Extends.pure _) (Extends.pure _)

end Fex

theorem runs_mainFixups_ends {b : Board} {w : World} {S : Stock} (soc : Soc) {heapBase : UInt32}
    {script : Script} (hscript : readScript b (heapAfterTags b heapBase w) = pure (some script))
    (hok : ScriptOk script) (hs : Stocked w.fdt S) (hc : Clean w) :
    Runs (mainFixups b soc heapBase) w fun started w' =>
      Ends (· = true) started w' (S.boot b.tags (soc.compatibleString b.strings) script) := by
  have hfex : Follows (fdtFixupFromFex (soc.compatibleString b.strings) script >>= fun ret =>
      if ret ≠ 0 then pure false else pure true) (· = true)
        (Stock.fromFex (soc.compatibleString b.strings) script) := by
    rw [← bind_ok_self (Stock.fromFex _ script)]
    refine (follows_fromFex hok _).bind (fun a ha => ?_) (fun a => ?_)
      fun a ha => ⟨false, if_pos ha, Bool.false_ne_true⟩
    · rw [if_neg (not_not.mpr ha)]
      exact Follows.pure rfl
    · exact Extends.ite (Extends.pure _) (Extends.pure _)
  unfold mainFixups Stock.boot
  refine Runs.bind (Runs.get ?_)
  rw [hscript]
  refine Follows.runs_bind (follows_fromAtags b.tags w S hs hc) (fun a ha => ?_) (fun a => ?_)
    fun a ha => ⟨false, if_pos ha, Bool.false_ne_true⟩
  · rw [if_neg (not_not.mpr ha), pure_bind]
    exact hfex
  · refine Extends.ite (Extends.pure _) ?_
    rw [pure_bind]
    exact Extends.bind (extends_of_reports (Reports.fromFex hok _)) fun _ =>
      Extends.ite (Extends.pure _) (Extends.pure _)

/-- `U` is what the updates that are asked for make of `T`, where there is the room for all of them. -/
def Asked (p : Stock → Except Failure Stock) (T U : DeviceTree) : Prop :=
  ∃ strings free S', p ⟨T, strings, free⟩ = .ok S' ∧ S'.tree = U

/-- A good result means that every call did its update at its node and the tree is as it was asked for; a
bad one ends the run behind the first call that did not. -/
structure Honest (good : Prop) (p : Stock → Except Failure Stock) (T : DeviceTree) (w : World) : Prop where
  done : good → Clean w ∧ ∃ U, Repr w.fdt U ∧ Asked p T U
  stopped : ¬good → ∀ c ∈ w.calls.dropLast, ¬c.Bad

theorem honest_iff {α : Type} {good : α → Prop} {r : α} {w : World} {S : Stock}
    {p : Stock → Except Failure Stock} (h : Ends good r w (p S)) (hp : ¬FailsWith .undecided (p S))
    (hbad : ¬good r → ∃ c ∈ w.calls, c.Checked ∧ ¬c.Succeeds) :
    Honest (good r) p S.tree w ↔ ¬FailsWith .ignored (p S) := by
  cases he : p S with
  | ok S' =>
    rw [he] at h
    obtain ⟨hr, hs, hc⟩ := h
    exact iff_of_true ⟨fun _ => ⟨hc, S'.tree, hs.repr, S.strings, S.free, S', he, rfl⟩,
      fun hno => absurd hr hno⟩ id
  | error f =>
    rw [he] at h hp
    cases f with
    | reported => exact iff_of_true ⟨fun hr => absurd hr h.1, fun _ => h.2⟩ fun hf => nomatch hf
    | undecided => exact absurd rfl hp
    | ignored =>
      obtain ⟨c, hc, hcbad, hun⟩ := h
      refine iff_of_false (fun hon => ?_) (not_not.mpr rfl)
      by_cases hr : good r
      · exact (hon.done hr).1 c hc hcbad
      · -- a call whose result was looked at has failed as well, and both cannot be the last
        obtain ⟨x, hx, hchecked, hfail⟩ := hbad hr
        have hlast : ∀ y ∈ w.calls, y.Bad → w.calls.getLast? = some y := fun y hy hybad => by
          rcases List.eq_nil_or_concat w.calls with hnil | ⟨pre, z, hcalls⟩
          · rw [hnil] at hy
            exact absurd hy List.not_mem_nil
          · have hstop := hon.stopped hr
            rw [hcalls] at hy hstop ⊢
            rw [List.concat_eq_append] at hy hstop ⊢
            rw [List.dropLast_concat] at hstop
            rw [List.getLast?_concat]
            rcases List.mem_append.mp hy with hy | hy
            · exact absurd hybad (hstop y hy)
            · rw [List.mem_singleton.mp hy]
        have hxc := (hlast x hx (Or.inr ⟨hchecked.required, hfail⟩)).symm.trans (hlast c hc hcbad)
        exact hun (Option.some.inj hxc ▸ hchecked)

/-- Where the tree says what is done, a result of zero, and the start of the kernel, mean that every update
was made, and every failing step ends the fixups with another result, just if no update whose result is
ignored lacks its node or its room. -/
theorem fixups_reported_iff {script : Script} (h : ScriptOk script) {fdt : Fdt} {T : DeviceTree}
    (hr : Repr fdt T) (compatible : Bytes) (tags : List UInt32) (b : Board) (soc : Soc) (heapBase : UInt32)
    (hscript : readScript b (heapAfterTags b heapBase ⟨fdt, []⟩) = pure (some script)) :
    let S : Stock := ⟨T, fdt.dtStrings, fdt.free.length⟩
    let kernel := Stock.boot b.tags (soc.compatibleString b.strings) script
    (¬FailsWith .undecided (S.fromAtags tags) →
      Runs (fdtFixupFromAtags tags) ⟨fdt, []⟩ fun r w =>
        Honest (r = 0) (Stock.fromAtags tags) T w ↔ ¬FailsWith .ignored (S.fromAtags tags)) ∧
    (¬FailsWith .undecided (S.fromFex compatible script) →
      Runs (fdtFixupFromFex compatible script) ⟨fdt, []⟩ fun r w =>
        Honest (r = 0) (Stock.fromFex compatible script) T w ↔
          ¬FailsWith .ignored (S.fromFex compatible script)) ∧
    (¬FailsWith .undecided (kernel S) →
      Runs (mainFixups b soc heapBase) ⟨fdt, []⟩ fun started w =>
        Honest (started = true) kernel T w ↔ ¬FailsWith .ignored (kernel S)) := by
  intro S kernel
  have hs : Stocked (World.mk fdt []).fdt S := hr.stocked
  have hc : Clean ⟨fdt, []⟩ := fun _ hmem => absurd hmem List.not_mem_nil
  have hfailed : ∀ {cs : List Call}, ¬(∀ c ∈ cs, c.Checked → c.Succeeds) →
      ∃ c ∈ cs, c.Checked ∧ ¬c.Succeeds := fun hno => by
    simpa only [not_forall, exists_prop] using hno
  refine ⟨fun hp => ?_, fun hp => ?_, fun hp => ?_⟩
  · have hzero : Runs (fdtFixupFromAtags tags) ⟨fdt, []⟩ fun r _ => r = 0 :=
      Runs.bind ((Unchecked.tagLoop _ tags ⟨fdt, []⟩).mono fun _ _ _ => Runs.pure rfl)
    refine ((follows_fromAtags tags _ S hs hc).and hzero).mono fun r w ⟨hends, hr⟩ => ?_
    exact honest_iff hends hp fun hno => absurd hr hno
  · refine ((follows_fromFex h compatible _ S hs hc).and (Reports.fromFex h compatible _)).mono ?_
    rintro r w ⟨hends, cs, hcs, -, hzero⟩
    rw [List.nil_append] at hcs
    refine honest_iff hends hp fun hno => ?_
    rw [hcs]
    exact hfailed fun hall => hno (hzero.mpr hall)
  · refine ((runs_mainFixups_ends soc hscript h hs hc).and (runs_mainFixups soc hscript h)).mono ?_
    rintro started w ⟨hends, hstarted⟩
    exact honest_iff hends hp fun hno => hfailed fun hall => hno (hstarted.mpr hall)

theorem fixups_reported_iff_memory :
    (Runs (fdtFixupFromAtags oneBankWords) ⟨memoryTree.blob 200, []⟩ fun r w =>
      Honest (r = 0) (Stock.fromAtags oneBankWords) memoryTree w) ∧
    (Runs (fdtFixupFromFex (Bytes.ofString "board") quietImage.script) ⟨memoryTree.blob 200, []⟩ fun r w =>
      Honest (r = 0) (Stock.fromFex (Bytes.ofString "board") quietImage.script) memoryTree w) ∧
    Runs (mainFixups bareBoard ⟨.assigned compatibleA10, .assigned .sun4iA10⟩ 4104)
      ⟨memoryTree.blob 200, []⟩ fun started w => Honest (started = true)
        (Stock.boot bareBoard.tags compatibleA10 quietImage.script) memoryTree w := by
  obtain ⟨htags, hfex, hmain⟩ := fixups_reported_iff (by decide) memoryTree_repr (Bytes.ofString "board")
    oneBankWords bareBoard ⟨.assigned compatibleA10, .assigned .sun4iA10⟩ 4104 (bareBoard_script _)
  exact ⟨(htags (by decide +kernel)).mono fun _ _ h => h.mpr (by decide +kernel),
    (hfex (by decide +kernel)).mono fun _ _ h => h.mpr (by decide +kernel),
    (hmain (by decide +kernel)).mono fun _ _ h => h.mpr (by decide +kernel)⟩

end Babelfish
