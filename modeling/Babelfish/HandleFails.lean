import Babelfish.References
import Babelfish.Libfdt.Exact

/-! What is left behind when `fdt_create_phandle` fails, and what `fdt_add_pinctrl_group` makes of
it. -/

namespace Babelfish

open Libfdt Bytes Forest DeviceTree

/-- Both properties fit, or not even the first. -/
def HandleFits (fdt : Fdt) : Prop :=
  fdt.free.length < handleNeed fdt.dtStrings ∨
    handleNeed fdt.dtStrings + secondNeed fdt.dtStrings ≤ fdt.free.length

/-- A call of `fdt_create_phandle` that is made again if it fails. -/
def createAgain (target : Target) (offset : Int) : Fixup UInt32 := do
  let ph ← fdtCreatePhandle target offset
  if ph = 0 then fdtCreatePhandle target offset else pure ph

def HasHandles (fdt : Fdt) (offset : Int) : Prop :=
  (fdtGetprop fdt offset strPhandle).1 ≠ none ∧ (fdtGetprop fdt offset strLinuxPhandle).1 ≠ none

section

variable {w : World} {T : DeviceTree} {id o : Nat} {n : DtNode} {target : Target}

theorem Repr.getprop_ne_none {fdt : Fdt} (h : Libfdt.Repr fdt T) (hn : T.get? id = some n)
    (ho : DeviceTree.offset T id = some o) (name : Bytes) :
    (fdtGetprop fdt o name).1 ≠ none ↔ n.getprop name ≠ none := by
  cases hp : n.getprop name with
  | none => simp [h.getprop_none hn ho hp]
  | some v =>
    obtain ⟨p, hget, -⟩ := h.getprop_some hn ho hp
    simp [hget]

theorem runs_call_of {op : Op} {offset r : Int} {Q : Int → World → Prop}
    (hr : (op.run w.fdt offset).1 = r) (hQ : Q r (w.call target op offset)) :
    Runs (call target op offset) w Q := by
  subst hr
  exact runs_call hQ

/-- How `fdt_create_phandle` on a node without the two properties can end. -/
inductive CreateEnds (fdt : Fdt) (T : DeviceTree) (id : Nat) (ph : UInt32) (fdt' : Fdt) : Prop
  | nothing : ph = 0 → Libfdt.Repr fdt' T → fdt.free.length < handleNeed fdt.dtStrings →
    CreateEnds fdt T id ph fdt'
  | half (v : UInt32) : ph = 0 → v ≠ 0 →
    Libfdt.Repr fdt' (T.modify id (DtNode.setprop strPhandle (be32 v.toNat))) →
    handleNeed fdt.dtStrings ≤ fdt.free.length →
    fdt.free.length < handleNeed fdt.dtStrings + secondNeed fdt.dtStrings →
    CreateEnds fdt T id ph fdt'
  | both : ph ≠ 0 → Libfdt.Repr fdt' (T.modify id (giveHandle ph)) →
    handleNeed fdt.dtStrings + secondNeed fdt.dtStrings ≤ fdt.free.length →
    CreateEnds fdt T id ph fdt'

theorem runs_createPhandle_clean (h : Repr w.fdt T) (hn : T.get? id = some n)
    (ho : DeviceTree.offset T id = some o) (hp : n.getprop strPhandle = none)
    (hlp : n.getprop strLinuxPhandle = none) :
    Runs (fdtCreatePhandle target o) w fun ph w' => CreateEnds w.fdt T id ph w'.fdt := by
  have hz₁ : 0 ∉ strPhandle := by decide
  have hz₂ : 0 ∉ strLinuxPhandle := by decide
  have hne : strLinuxPhandle ≠ strPhandle := by decide
  have hneg : errNoSpace < 0 := by simp [errNoSpace]
  have hpos : ¬((0 : Int) < 0) := by omega
  have hzero : n.phandle = 0 := by simp [DtNode.phandle, DtNode.cell, hp, hlp]
  unfold fdtCreatePhandle
  refine Runs.bind (runs_getPhandle h hn ho ?_)
  rw [if_pos (by rw [hzero]; rfl)]
  refine Runs.bind (Runs.get ?_)
  simp only [World.call_fdt, Op.run]
  rw [fdtAllocPhandle_eq h]
  have hv := nextHandle_ne_zero T
  generalize UInt32.ofInt (nextHandle T) = v at hv
  have hlen : (be32 v.toNat).length = 4 := rfl
  have hset₁ := h.setprop_new hn ho hz₁ hp (be32 v.toNat)
  rw [hlen] at hset₁
  rcases hset₁ with ⟨hroom₁, hr₁, hrepr₁, hs₁, hf₁⟩ | ⟨hlt, hr₁, hrepr₁⟩
  · obtain ⟨hn₁, ho₁⟩ := DeviceTree.stays_modify h.nodup hn ho (DtNode.setprop strPhandle (be32 v.toNat))
    have hlp₁ : (n.setprop strPhandle (be32 v.toNat)).getprop strLinuxPhandle = none := by
      rw [DtNode.getprop_setprop_of_ne hne, hlp]
    have hset₂ := hrepr₁.setprop_new hn₁ ho₁ hz₂ hlp₁ (be32 v.toNat)
    rw [hlen, hs₁] at hset₂
    refine Runs.bind (Runs.bind (runs_call_of hr₁ ?_))
    rw [if_neg hpos]
    rcases hset₂ with ⟨hroom₂, hr₂, hrepr₂, -⟩ | ⟨hlt, hr₂, hrepr₂⟩
    · refine runs_call_of hr₂ ?_
      rw [if_neg hpos]
      rw [modify_modify] at hrepr₂
      refine Runs.pure (.both hv hrepr₂ ?_)
      unfold handleNeed secondNeed
      omega
    · refine runs_call_of hr₂ ?_
      rw [if_pos hneg]
      refine Runs.pure (.half v rfl hv hrepr₂ hroom₁ ?_)
      unfold handleNeed secondNeed
      omega
  · refine Runs.bind (Runs.bind (runs_call_of hr₁ ?_))
    rw [if_pos hneg]
    refine Runs.pure ?_
    rw [if_pos hneg]
    exact Runs.pure (.nothing rfl hrepr₁ hlt)

/-- A failed call leaves nothing behind just if both properties fit or not even the first. -/
theorem runs_createPhandle_trace (h : Repr w.fdt T) (hn : T.get? id = some n)
    (ho : DeviceTree.offset T id = some o) (hp : n.getprop strPhandle = none)
    (hlp : n.getprop strLinuxPhandle = none) :
    Runs (fdtCreatePhandle target o) w fun ph w' =>
      (ph = 0 → Libfdt.Repr w'.fdt T) ↔ HandleFits w.fdt := by
  refine (runs_createPhandle_clean h hn ho hp hlp).mono fun ph w' hends => ?_
  unfold HandleFits
  cases hends with
  | nothing _ hrepr hlt => exact iff_of_true (fun _ => hrepr) (Or.inl hlt)
  | half v hph hv hrepr hle hlt =>
    refine iff_of_false (fun himp => ?_) (by omega)
    obtain ⟨hn', ho'⟩ := DeviceTree.stays_modify h.nodup hn ho (DtNode.setprop strPhandle (be32 v.toNat))
    have hnone := (Repr.getprop_ne_none (himp hph) hn ho strPhandle).not.mpr (not_not.mpr hp)
    refine hnone ((Repr.getprop_ne_none hrepr hn' ho' strPhandle).mpr ?_)
    rw [DtNode.getprop_setprop_self]
    exact Option.some_ne_none _
  | both hph _ hle => exact iff_of_true (fun hz => absurd hz hph) (Or.inr hle)

theorem runs_createAgain (h : Repr w.fdt T) (hn : T.get? id = some n)
    (ho : DeviceTree.offset T id = some o) (hp : n.getprop strPhandle = none)
    (hlp : n.getprop strLinuxPhandle = none) :
    Runs (createAgain target o) w fun ph w' => (ph ≠ 0 → HasHandles w'.fdt o) ↔ HandleFits w.fdt := by
  have hhas : ∀ {fdt : Fdt} {ph : UInt32}, Libfdt.Repr fdt (T.modify id (giveHandle ph)) →
      HasHandles fdt o := fun {fdt ph} hrepr => by
    obtain ⟨hn', ho'⟩ := DeviceTree.stays_modify h.nodup hn ho (giveHandle ph)
    obtain ⟨h₁, h₂⟩ := getprop_giveHandle ph n
    constructor
    · rw [Repr.getprop_ne_none hrepr hn' ho', h₁]
      exact Option.some_ne_none _
    · rw [Repr.getprop_ne_none hrepr hn' ho', h₂]
      exact Option.some_ne_none _
  unfold createAgain HandleFits
  refine Runs.bind ((runs_createPhandle_clean h hn ho hp hlp).mono fun ph w₁ hends => ?_)
  cases hends with
  | nothing hph hrepr hlt =>
    rw [if_pos hph]
    refine (runs_createPhandle_clean hrepr hn ho hp hlp).mono fun ph' w₂ hends' => ?_
    refine iff_of_true (fun hne => ?_) (Or.inl hlt)
    cases hends' with
    | nothing hz => exact absurd hz hne
    | half v hz => exact absurd hz hne
    | both _ hrepr' => exact hhas hrepr'
  | half v hph hv hrepr hle hlt =>
    rw [if_pos hph]
    obtain ⟨hn', ho'⟩ := DeviceTree.stays_modify h.nodup hn ho (DtNode.setprop strPhandle (be32 v.toNat))
    have hread : (n.setprop strPhandle (be32 v.toNat)).phandle = v.toNat := by
      have hone := readBe32_be32 v.toNat_lt []
      rw [List.append_nil] at hone
      rw [DtNode.phandle, DtNode.cell, DtNode.getprop_setprop_self]
      simp only [show (be32 v.toNat).length = 4 from rfl, if_true, hone]
    have hv' : v.toNat ≠ 0 := fun hz => hv (UInt32.toNat_inj.mp hz)
    have hnz : ¬(((n.setprop strPhandle (be32 v.toNat)).phandle : Int) = 0) := by
      rw [hread]
      omega
    unfold fdtCreatePhandle
    refine Runs.bind (runs_getPhandle hrepr hn' ho' ?_)
    rw [if_neg hnz, hread]
    refine Runs.pure (iff_of_false (fun himp => ?_) (by omega))
    have hlinux := (himp ?_).2
    · refine (Repr.getprop_ne_none hrepr hn' ho' strLinuxPhandle).mp hlinux ?_
      rw [DtNode.getprop_setprop_of_ne (by decide), hlp]
    · intro hz
      have hnat := toNat_ofInt (m := (v.toNat : Int)) (by omega) (by have := v.toNat_lt; omega)
      rw [hz] at hnat
      have hzero : (0 : UInt32).toNat = 0 := rfl
      omega
  | both hph hrepr hle =>
    rw [if_neg hph]
    exact Runs.pure (iff_of_true (fun _ => hhas hrepr) (Or.inr hle))

end

/-- Property `pinctrl-<k>` of a node holds zero. -/
def RefersToNone (T : DeviceTree) (d k : Nat) : Prop :=
  (T.get? d).bind (·.getprop (pinctrlProp k)) = some (be32 0)

/-- A failed call leaves nothing behind, and success after it means both properties, just if both
properties fit or not even the first; no reference comes to hold zero just if every group can get its
phandle, or finds no reference that zero could take the place of. -/
theorem fdtCreatePhandle_failed_iff {fdt fdt' : Fdt} {T T' : DeviceTree} {id o c d : Nat} {n : DtNode}
    {pinctrlPath parentPath device : Bytes} {gpios : List Gpio} (target : Target) (h : Libfdt.Repr fdt T)
    (hn : T.get? id = some n) (ho : DeviceTree.offset T id = some o) (hp : n.getprop strPhandle = none)
    (hlp : n.getprop strLinuxPhandle = none) (h' : Libfdt.Repr fdt' T')
    (hctrl : T'.resolve pinctrlPath = some c) (hres : T'.resolve parentPath = some d) (hcd : c ≠ d)
    (hpaths : Paths pinctrlPath parentPath d (T'.lookup strAliases)) (hdev : 0 ∉ device ∧ atSign ∉ device)
    (hheld : Unmoved ⟨T', fdt'.dtStrings, fdt'.free.length⟩ c d device gpios) :
    Runs (fdtCreatePhandle target o) ⟨fdt, []⟩ (fun ph w' =>
      (ph = 0 → Libfdt.Repr w'.fdt T) ↔ HandleFits fdt) ∧
    Runs (createAgain target o) ⟨fdt, []⟩ (fun ph w' =>
      (ph ≠ 0 → HasHandles w'.fdt o) ↔ HandleFits fdt) ∧
    Runs (fdtAddPinctrlGroup pinctrlPath parentPath gpios device) ⟨fdt', []⟩ fun _ w' =>
      ∃ U, Libfdt.Repr w'.fdt U ∧ U.resolve parentPath = some d ∧
        ((∀ k, RefersToNone U d k → RefersToNone T' d k) ↔
          Ledger.AllReferable ⟨⟨T', fdt'.dtStrings, fdt'.free.length⟩, []⟩ c d device gpios 0) := by
  refine ⟨runs_createPhandle_trace (w := ⟨fdt, []⟩) h hn ho hp hlp,
    runs_createAgain (w := ⟨fdt, []⟩) h hn ho hp hlp,
    ((Tracks.start h').runs_addPinctrlGroup hpaths hdev.1 hdev.2 hctrl hres hcd).mono ?_⟩
  rintro r w' (⟨-, -, hw, -, hdevice⟩ | ⟨hnot, -⟩)
  · refine ⟨_, hw.stocked.repr, hdevice, ?_⟩
    have hcounts : Ledger.Counts c d device 0 ⟨⟨T', fdt'.dtStrings, fdt'.free.length⟩, []⟩ :=
      ⟨h'.nodup, DeviceTree.resolve_mem h' hctrl, DeviceTree.resolve_mem h' hres,
        [], List.nodup_nil, List.nil_subset _, rfl, fun a ha => absurd ha List.not_mem_nil⟩
    exact hcounts.zero_iff gpios
  · exact absurd hheld hnot

theorem bareTree_repr_short : Libfdt.Repr (bareTree.blob 24) bareTree :=
  DeviceTree.repr_blob (by decide) (by decide) ⟨0, _, _, rfl⟩ (by decide)

def referredTree : DeviceTree :=
  .node 0 ⟨[], []⟩
    (.node 1 ⟨Bytes.ofString "pinctrl", []⟩ .nil
      (.node 2 ⟨Bytes.ofString "serial", [⟨pinctrlProp 0, be32 7⟩]⟩ .nil .nil))
    .nil

theorem referredTree_repr : Libfdt.Repr (referredTree.blob 44) referredTree :=
  DeviceTree.repr_blob (by decide) (by decide) ⟨0, _, _, rfl⟩ (by decide)

theorem fdtCreatePhandle_failed_iff_bare :
    Runs (fdtCreatePhandle .root (0 : Nat)) ⟨bareTree.blob 24, []⟩ (fun ph w' =>
      (ph = 0 → Libfdt.Repr w'.fdt bareTree) ↔ HandleFits (bareTree.blob 24)) ∧
    Runs (createAgain .root (0 : Nat)) ⟨bareTree.blob 24, []⟩ (fun ph w' =>
      (ph ≠ 0 → HasHandles w'.fdt (0 : Nat)) ↔ HandleFits (bareTree.blob 24)) ∧
    Runs (fdtAddPinctrlGroup (Bytes.ofString "/pinctrl") (Bytes.ofString "/serial") [⟨2, 22, 2, 1⟩]
      (Bytes.ofString "uart0")) ⟨referredTree.blob 44, []⟩ fun _ w' =>
      ∃ U, Libfdt.Repr w'.fdt U ∧ U.resolve (Bytes.ofString "/serial") = some 2 ∧
        ((∀ k, RefersToNone U 2 k → RefersToNone referredTree 2 k) ↔
          Ledger.AllReferable ⟨⟨referredTree, (referredTree.blob 44).dtStrings,
            (referredTree.blob 44).free.length⟩, []⟩ 1 2 (Bytes.ofString "uart0") [⟨2, 22, 2, 1⟩] 0) :=
  have hget : bareTree.get? 0 = some ⟨[], []⟩ := rfl
  have hoff : DeviceTree.offset bareTree 0 = some 0 := rfl
  have hctrl : referredTree.resolve (Bytes.ofString "/pinctrl") = some 1 := by decide
  fdtCreatePhandle_failed_iff .root bareTree_repr_short hget hoff rfl rfl referredTree_repr hctrl
    (by decide) (by decide) ⟨by decide, by decide, fun h => absurd rfl h, fun h => absurd rfl h⟩
    (by decide) (Or.inl (by decide))

/-- There is room for one of the two properties; with room for the node of a group but not for its phandle,
zero takes the place of a reference. -/
theorem bareTree_half :
    Runs (fdtCreatePhandle .root (0 : Nat)) ⟨bareTree.blob 24, []⟩ (fun ph w' =>
      ph = 0 ∧ ¬Libfdt.Repr w'.fdt bareTree) ∧
    Runs (fdtAddPinctrlGroup (Bytes.ofString "/pinctrl") (Bytes.ofString "/serial") [⟨2, 22, 2, 1⟩]
      (Bytes.ofString "uart0")) ⟨referredTree.blob 44, []⟩ fun r w' => r = 0 ∧
        (fdtGetprop w'.fdt (fdtPathOffset w'.fdt (Bytes.ofString "/serial")) (pinctrlProp 0)).1.map
          (fdt32At w'.fdt) = some 0 := by
  have hno : ¬HandleFits (bareTree.blob 24) := by
    have hfree : (bareTree.blob 24).free.length = 24 := List.length_replicate
    have h₁ : handleNeed (bareTree.blob 24).dtStrings = 24 := rfl
    have h₂ : secondNeed (bareTree.blob 24).dtStrings = 30 := rfl
    unfold HandleFits
    omega
  have hget : bareTree.get? 0 = some ⟨[], []⟩ := rfl
  have hoff : DeviceTree.offset bareTree 0 = some 0 := rfl
  refine ⟨(runs_createPhandle_trace (w := ⟨bareTree.blob 24, []⟩) bareTree_repr_short hget hoff rfl
    rfl).mono fun ph w' htrace => ?_, by decide +kernel⟩
  rw [← htrace, Classical.not_imp] at hno
  exact hno

end Babelfish
