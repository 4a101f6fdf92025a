import Babelfish.Uarts
import Babelfish.Libfex.Images

/-! The attributes of a pin on their way from an image through the script to its group in the tree. -/

namespace Babelfish

open Libfdt Bytes Forest DeviceTree

/-- The node that a pin of a UART was added to: the group of the name that is formed for it. -/
structure AddedTo (T : DeviceTree) (c i : Nat) (g : Gpio) (n : DtNode) : Prop where
  child : ∃ k ∈ T.kids c, T.get? k = some n
  name : n.name = groupName (uartName i) g.pull g.drive
  listed : g.pin ∈ ((n.getprop strPins).map strings).getD []

def HasAttrs (n : DtNode) (pull drive : UInt32) : Prop :=
  n.getprop strPull = some (be32 (normPull pull).toNat) ∧
    n.getprop strDrive = some (be32 (normDrive drive).toNat)

theorem hasAttrs_iff {n : DtNode} {pull drive : UInt32} (h : HasAttrs n pull drive)
    (pull' drive' : UInt32) :
    HasAttrs n pull' drive' ↔ normPull pull = normPull pull' ∧ normDrive drive = normDrive drive' := by
  have hinj : ∀ a b : UInt32, be32 a.toNat = be32 b.toNat → a = b := fun a b he =>
    UInt32.toNat_inj.mp (be32_injective (UInt32.toNat_lt _) (UInt32.toNat_lt _) he)
  unfold HasAttrs
  rw [h.1, h.2, Option.some.injEq, Option.some.injEq]
  constructor
  · exact fun ⟨hp, hd⟩ => ⟨hinj _ _ hp, hinj _ _ hd⟩
  · exact fun ⟨hp, hd⟩ => ⟨by rw [hp], by rw [hd]⟩

theorem norm_swap_iff (pull drvLevel : UInt32) :
    normPull drvLevel = normPull pull ∧ normDrive pull = normDrive drvLevel ↔
      pull = drvLevel ∨ pull ∉ [1, 2, 3] ∧ drvLevel ∉ [1, 2, 3] := by
  simp only [normPull, normDrive, List.mem_cons, List.not_mem_nil, or_false]
  constructor
  · rintro ⟨-, hd⟩
    by_contra hno
    obtain ⟨hne, hin⟩ := not_or.mp hno
    split at hd <;> split at hd <;> grind
  · rintro (rfl | ⟨hp, hd⟩)
    · exact ⟨rfl, rfl⟩
    · grind

section

variable {T₀ T : DeviceTree} {c : Nat} {rounds : List Round} {script : Script}

theorem Round.attr_mem (h : Wired T₀ c rounds T) {r : Round} (hr : r ∈ rounds) {a : PinAttr} :
    a ∈ r.groups.map Group.attr ↔ a ∈ r.gpios.map Gpio.attr := by
  rw [h.attrs r hr, List.mem_eraseDups]

theorem Rounds.addedTo (h : Rounds script T₀ c rounds T) (hu : Wirable script T₀ c)
    (hn₀ : T₀.ids.Nodup) (hc : c ∈ T₀.ids) (hnodup : (rounds.map Round.index).Nodup) {r : Round}
    (hr : r ∈ rounds) {g : Gpio} (hg : g ∈ r.gpios) :
    ∃ n, (∀ n', AddedTo T c r.index g n' ↔ n' = n) ∧ HasAttrs n g.pull g.drive := by
  have hlt := (h.asked r hr).lt
  have hkids := h.wired.kids c hc
  rw [if_pos rfl] at hkids
  have hattr : g.attr ∈ r.groups.map Group.attr :=
    (Round.attr_mem h.wired hr).mpr (List.mem_map_of_mem hg)
  obtain ⟨q, hq, hqa⟩ := List.mem_map.mp hattr
  have hpins := pinGroup_groupNode (uartName r.index) r.gpios q
  refine ⟨groupNode (uartName r.index) q.attr q.phandle (pinsOf r.gpios q.attr),
    fun n' => ⟨fun hadded => ?_, ?_⟩, ?_⟩
  · -- a group of the name is that group
    obtain ⟨⟨k, hk, hget⟩, hname, -⟩ := hadded
    rw [groupName_eq] at hname
    have hpre : groupPrefix r.index <+: n'.name := hname ▸ groupPrefix_attrName _ _
    rw [hkids, List.mem_append] at hk
    obtain hk | hk := hk
    · obtain ⟨r', hr', q', hq', rfl⟩ := mem_roundIds.mp hk
      obtain rfl := Option.some.inj ((h.wired.group r' hr' q' hq').symm.trans hget)
      have hindex := groupPrefix_inj (h.asked r' hr').lt hlt (groupPrefix_attrName _ _) hpre
      obtain rfl := List.inj_on_of_nodup_map hnodup hr' hr hindex
      obtain ⟨g', -, hg'⟩ := List.mem_map.mp
        ((Round.attr_mem h.wired hr).mp (List.mem_map_of_mem hq'))
      have hname : attrName (uartName r'.index) q'.attr = attrName (uartName r'.index) g.attr := hname
      have ha : q'.attr = g.attr := attrName_injective (hg' ▸ g'.attr_mem) g.attr_mem hname
      have hdistinct : (r'.groups.map Group.attr).Nodup :=
        h.wired.attrs r' hr ▸ Distinct.nodup_eraseDups _
      rw [List.inj_on_of_nodup_map hdistinct hq' hq (ha.trans hqa.symm)]
    · exact absurd hpre (h.wired.clean hn₀ hu hlt hk hget)
  · rintro rfl
    refine ⟨⟨q.id, ?_, h.wired.group r hr q hq⟩, ?_, ?_⟩
    · rw [hkids]
      exact List.mem_append_left _ (mem_roundIds.mpr ⟨r, hr, q, hq, rfl⟩)
    · rw [groupName_eq, ← hqa]
      exact hpins.name
    · rw [hpins.pins, Option.getD_some]
      exact List.mem_map_of_mem (List.mem_filter.mpr ⟨hg, beq_iff_eq.mpr hqa.symm⟩)
  · have hpull : normPull g.pull = q.attr.1 := (congrArg Prod.fst hqa).symm
    have hdrive : normDrive g.drive = q.attr.2 := (congrArg Prod.snd hqa).symm
    exact ⟨hpull ▸ hpins.pull, hdrive ▸ hpins.drive⟩

end

section

open Libfex (Image decodedEntry decodedSections entryData headSection sectionCount sectionEntry
  sectionLength sectionName wordAt)

variable {mem : Image} {bin heapBase base entry : UInt32} {script : Script} {sec key : Bytes}

/-- The fields `pull` and `drv_level` in the value of a GPIO entry. -/
def gpioPull (mem : Image) (bin entry : UInt32) : UInt32 := wordAt mem (entryData mem bin entry + 12)
def gpioDrvLevel (mem : Image) (bin entry : UInt32) : UInt32 :=
  wordAt mem (entryData mem bin entry + 16)

/-- The entry of an image that a lookup in its script leads to. -/
def entryAt (mem : Image) (bin : UInt32) (sec key : Bytes) : Option UInt32 :=
  ((List.range (sectionCount mem bin)).find? fun i =>
      strcmp (Libfex.fieldName (sectionName mem (headSection bin i))) sec = 0).bind fun i =>
    ((List.range (sectionLength mem (headSection bin i)).toNat).find? fun j =>
      (decodedEntry mem bin (sectionEntry mem bin (headSection bin i) j)).any fun e =>
        strcmp e.name key = 0).map (sectionEntry mem bin (headSection bin i))

theorem entry_decoded (mem : Image) (bin : UInt32) (sec key : Bytes) :
    Script.entry ⟨decodedSections mem bin⟩ sec key =
      (entryAt mem bin sec key).bind (decodedEntry mem bin) := by
  unfold Script.entry entryAt Babelfish.scriptFindSection decodedSections
  rw [List.find?_map, Option.bind_map, Option.bind_assoc]
  congr 1
  funext i
  rw [Option.bind_map]
  exact List.find?_filterMap

theorem eq_decoded (h : (Libfex.scriptDecompileBin mem bin ⟨[]⟩).run heapBase = some (script, base)) :
    script = ⟨decodedSections mem bin⟩ := by
  have hall := Libfex.allocates_decompileBin mem bin ⟨[]⟩
  by_cases hg : Heap.Granted heapBase (Libfex.sectionRequests (decodedSections mem bin))
  · rw [hall.granted heapBase hg] at h
    exact (congrArg Prod.fst (Option.some.inj h)).symm
  · rw [hall.failed heapBase hg] at h
    cases h

/-- What is copied of a pin: its drive is the field `pull`, and its pull the field `drv_level`. -/
theorem gpio_of_entryAt
    (h : (Libfex.scriptDecompileBin mem bin ⟨[]⟩).run heapBase = some (script, base))
    (hentry : entryAt mem bin sec key = some entry) {p : Script.Pin}
    (hp : script.pin sec key = some p) :
    p.gpio.drive = gpioPull mem bin entry ∧ p.gpio.pull = gpioDrvLevel mem bin entry := by
  obtain rfl := eq_decoded h
  unfold Script.pin at hp
  rw [entry_decoded, hentry, Option.bind_some] at hp
  split at hp
  · rename_i name port portNum data he
    obtain rfl := Option.some.inj hp
    obtain ⟨v, hv, he⟩ := Option.map_eq_some_iff.mp he
    obtain rfl := congrArg ScriptEntry.value he
    unfold Libfex.decodedValue at hv
    dsimp only at hv
    split at hv
    · cases hv
    · split at hv
      · cases hv
      · split at hv
        · obtain ⟨rfl, rfl, rfl⟩ := hv
          exact ⟨rfl, rfl⟩
        · split at hv <;> cases hv
  · cases hp

theorem mem_pins {keys : List Bytes} {pins : List Script.Pin} (h : script.pins sec keys = some pins)
    (hkey : key ∈ keys) {p : Script.Pin} (hp : script.pin sec key = some p) : p ∈ pins := by
  obtain ⟨l₁, l₂, rfl⟩ := List.append_of_mem hkey
  rw [pins_append] at h
  obtain ⟨ps₁, -, h⟩ := Option.bind_eq_some_iff.mp h
  obtain ⟨ps₂, hps₂, rfl⟩ := Option.map_eq_some_iff.mp h
  unfold Script.pins at hps₂
  rw [List.mapM_cons, hp] at hps₂
  obtain ⟨q, hq, hps₂⟩ := Option.bind_eq_some_iff.mp hps₂
  obtain ⟨ps, -, hps₂⟩ := Option.bind_eq_some_iff.mp hps₂
  obtain rfl := Option.some.inj hq
  obtain rfl := Option.some.inj hps₂
  exact List.mem_append_right _ List.mem_cons_self

variable {w : World} {T : DeviceTree} {c i : Nat} {type : UInt32} {p : Script.Pin}

theorem runs_pinAttrs (hw : Repr w.fdt T) (hu : Wirable script T c)
    (hport : (script.single strUartPara strUartDebugPort).isSome)
    (hok : ∀ i < sunxiMaxUarts, UartOk script i) (hroom : uartsRoom ≤ w.fdt.free.length)
    (hi : i < sunxiMaxUarts) (hused : script.Used i)
    (ht : script.single (uartPara i) strUartType = some type) (hkey : key ∈ uartKeys type)
    (hp : script.pin (uartPara i) key = some p) :
    Runs (fdtFixupUarts script) w fun r w' => r = 0 ∧ ∃ T', Repr w'.fdt T' ∧
      ∃ n, (∀ n', AddedTo T' c i p.gpio n' ↔ n' = n) ∧ HasAttrs n p.gpio.pull p.gpio.drive := by
  have hc : c ∈ T.ids := DeviceTree.resolve_mem hw hu.ctrl
  refine (runs_fixupUarts hw hu hport hok hroom).mono ?_
  rintro r w' ⟨hr, T₁, rounds, T', ha, hf, h, hindex, hw'⟩
  obtain ⟨round, hround, rfl⟩ := exists_round hindex hi hused
  obtain ⟨type', ht', pins, hpins, hgpios⟩ := (h.asked round hround).pins
  obtain rfl := Option.some.inj (ht.symm.trans ht')
  have hmem : p.gpio ∈ round.gpios := hgpios ▸ List.mem_map_of_mem (mem_pins hpins hkey hp)
  exact ⟨hr, T', hw', h.addedTo (ha.wirable hf hw.nodup hw.rooted hc hu) hf.nodup
    ((hf.mem c).mpr (Or.inl hc)) (nodup_index hindex) hround hmem⟩

/-- The group of a pin has the attributes of its entry in the image just if the two fields do not tell
apart which is which. -/
theorem fexPins_kept_iff
    (hrun : (Libfex.scriptDecompileBin mem bin ⟨[]⟩).run heapBase = some (script, base))
    (hw : Repr w.fdt T) (hu : Wirable script T c)
    (hport : (script.single strUartPara strUartDebugPort).isSome)
    (hok : ∀ i < sunxiMaxUarts, UartOk script i) (hroom : uartsRoom ≤ w.fdt.free.length)
    (hi : i < sunxiMaxUarts) (hused : script.Used i)
    (ht : script.single (uartPara i) strUartType = some type) (hkey : key ∈ uartKeys type)
    (hp : script.pin (uartPara i) key = some p)
    (hentry : entryAt mem bin (uartPara i) key = some entry) :
    Runs (fdtFixupUarts script) w fun r w' => r = 0 ∧ ∃ T', Repr w'.fdt T' ∧
      ∃ n, (∀ n', AddedTo T' c i p.gpio n' ↔ n' = n) ∧
        (HasAttrs n (gpioPull mem bin entry) (gpioDrvLevel mem bin entry) ↔
          gpioPull mem bin entry = gpioDrvLevel mem bin entry ∨
            gpioPull mem bin entry ∉ [1, 2, 3] ∧ gpioDrvLevel mem bin entry ∉ [1, 2, 3]) := by
  obtain ⟨hdrive, hpull⟩ := gpio_of_entryAt hrun hentry hp
  refine (runs_pinAttrs hw hu hport hok hroom hi hused ht hkey hp).mono ?_
  rintro r w' ⟨hr, T', hw', n, hadded, hattrs⟩
  refine ⟨hr, T', hw', n, hadded, ?_⟩
  rw [hasAttrs_iff hattrs, ← norm_swap_iff, hdrive, hpull]

end

/-! An image for the board with one UART: rows of 40 bytes, the header at the end of the first. -/

def nameRow (name tail : Bytes) : Bytes := name ++ List.replicate (32 - name.length) 0 ++ tail

def rowOffset (k : Nat) : Bytes := le32 (10 * k - 6)

def swappedRows : List Bytes :=
  [List.replicate 24 0 ++ le32 9,
    nameRow strUartPara (le32 1 ++ rowOffset 10),
    nameRow (uartPara 0) (le32 4 ++ rowOffset 11)] ++
  (List.range sunxiMaxUarts).tail.map (fun i => nameRow (uartPara i) (le32 1 ++ rowOffset 15)) ++
  [nameRow strUartDebugPort (rowOffset 16 ++ le32 0x00010001),
    nameRow strUartUsed (rowOffset 17 ++ le32 0x00010001),
    nameRow strUartType (rowOffset 18 ++ le32 0x00010001),
    nameRow strTx (rowOffset 19 ++ le32 0x00040006),
    nameRow strRx (rowOffset 20 ++ le32 0x00040006),
    nameRow strUartUsed (rowOffset 16 ++ le32 0x00010001),
    le32 0, le32 1, le32 2,
    le32 2 ++ le32 22 ++ le32 2 ++ le32 1 ++ le32 2 ++ le32 0,
    le32 2 ++ le32 23 ++ le32 2 ++ le32 1 ++ le32 1 ++ le32 0]

def swappedImage : Libfex.Image := fun a =>
  ((swappedRows[a.toNat / 40]?.getD [])[a.toNat % 40]?).getD 0

def swappedScript : Script where
  sections :=
    ⟨strUartPara, [⟨strUartDebugPort, .single 0⟩]⟩ ::
      ⟨uartPara 0, [⟨strUartUsed, .single 1⟩, ⟨strUartType, .single 2⟩,
        ⟨strTx, .gpio 2 22 #v[2, 1, 2, 0]⟩, ⟨strRx, .gpio 2 23 #v[2, 1, 1, 0]⟩]⟩ ::
      (List.range sunxiMaxUarts).tail.map fun i => ⟨uartPara i, [⟨strUartUsed, .single 0⟩]⟩

theorem swappedImage_decoded :
    (Libfex.scriptDecompileBin swappedImage 24 ⟨[]⟩).run 4096 = some (swappedScript, 5144) := by
  decide +kernel

theorem swappedImage_entryAt : entryAt swappedImage 24 (uartPara 0) strTx = some 520 := by
  decide +kernel

theorem swappedScript_used : ∀ i < sunxiMaxUarts, swappedScript.Used i → i = 0 := by decide

theorem swappedScript_uarts : ∀ i < sunxiMaxUarts, UartOk swappedScript i := by decide

theorem fexPins_kept_iff_swapped :
    Runs (fdtFixupUarts swappedScript) ⟨sharedTree.blob uartsRoom, []⟩ fun r w' =>
      r = 0 ∧ ∃ T', Repr w'.fdt T' ∧ ∃ n, (∀ n', AddedTo T' 3 0 ⟨2, 22, 1, 2⟩ n' ↔ n' = n) ∧
        (HasAttrs n (gpioPull swappedImage 24 520) (gpioDrvLevel swappedImage 24 520) ↔
          gpioPull swappedImage 24 520 = gpioDrvLevel swappedImage 24 520 ∨
            gpioPull swappedImage 24 520 ∉ [1, 2, 3] ∧ gpioDrvLevel swappedImage 24 520 ∉ [1, 2, 3]) :=
  fexPins_kept_iff (i := 0) (p := ⟨2, 22, #v[2, 1, 2, 0]⟩) swappedImage_decoded sharedTree_repr
    (sharedTree_wirable swappedScript_used) (by decide) swappedScript_uarts
    (Nat.le_of_eq List.length_replicate.symm) (by decide) (by decide) rfl List.mem_cons_self rfl
    swappedImage_entryAt

/-- A pull of 1 and a level of 2 become a drive of 1 and a pull of 2. -/
theorem swappedPin_lost :
    entryAt swappedImage 24 (uartPara 0) strTx = some 520 ∧ gpioPull swappedImage 24 520 = 1 ∧
    gpioDrvLevel swappedImage 24 520 = 2 ∧
    (Libfex.scriptDecompileBin swappedImage 24 ⟨[]⟩).run 4096 = some (swappedScript, 5144) ∧
    Runs (fdtFixupUarts swappedScript) ⟨sharedTree.blob uartsRoom, []⟩ fun r w' =>
      r = 0 ∧ ∃ T', Repr w'.fdt T' ∧ ∃ n, (∀ n', AddedTo T' 3 0 ⟨2, 22, 1, 2⟩ n' ↔ n' = n) ∧
        HasAttrs n 2 1 ∧ ¬HasAttrs n 1 2 := by
  refine ⟨swappedImage_entryAt, by decide +kernel, by decide +kernel, swappedImage_decoded, ?_⟩
  refine (runs_pinAttrs (i := 0) (p := ⟨2, 22, #v[2, 1, 2, 0]⟩) (w := ⟨sharedTree.blob uartsRoom, []⟩)
    sharedTree_repr (sharedTree_wirable swappedScript_used) (by decide) swappedScript_uarts
    (Nat.le_of_eq List.length_replicate.symm) (by decide) (by decide) rfl List.mem_cons_self
    rfl).mono ?_
  rintro r w' ⟨hr, T', hw', n, hadded, hattrs⟩
  refine ⟨hr, T', hw', n, hadded, hattrs, fun habs => ?_⟩
  exact absurd ((hasAttrs_iff hattrs 1 2).mp habs) (by decide)

end Babelfish
