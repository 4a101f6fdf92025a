import Babelfish.UartRounds

/-! The rounds of `fdt_fixup_uarts`, one by one and all of them. -/

namespace Babelfish

open Libfdt Bytes Forest DeviceTree

theorem length_uartKeys (type : UInt32) : (uartKeys type).length ≤ 8 := by
  unfold uartKeys
  split
  · exact Nat.le_refl 8
  · split
    · exact Nat.le_add_right 4 4
    · split
      · exact Nat.le_add_right 2 6
      · exact Nat.zero_le 8

theorem serialPath_mem {i : Nat} (h : i < sunxiMaxUarts) : serialPath i ∈ uartPaths :=
  List.mem_cons_of_mem _ (List.mem_map_of_mem (List.mem_range.mpr h))

theorem pinctrlPath_mem : strPinctrlPath ∈ uartPaths := List.mem_cons_self

section

variable {w : World} {T₀ T : DeviceTree} {c d i : Nat} {rounds : List Round} {script : Script}

/-- What the rounds leave for the next one. -/
structure Rounds (script : Script) (T₀ : DeviceTree) (c : Nat) (rounds : List Round)
    (T : DeviceTree) : Prop where
  wired : Wired T₀ c rounds T
  asked : ∀ r ∈ rounds, r.For script T₀

theorem Rounds.device_ne (h : Rounds script T₀ c rounds T) (hu : Wirable script T₀ c)
    (hi : i < sunxiMaxUarts) (hused : script.Used i) (hd : T₀.resolve (serialPath i) = some d)
    (hnew : i ∉ rounds.map Round.index) : ∀ r ∈ rounds, d ≠ r.device := by
  rintro r hr rfl
  have hfor := h.asked r hr
  have he := hu.apart i hi r.index hfor.lt hused hfor.used (hd.trans hfor.device.symm)
  exact hnew (he ▸ List.mem_map_of_mem hr)

theorem runs_uartPins (h : Rounds script T₀ c rounds T) (hu : Wirable script T₀ c)
    (hn₀ : T₀.ids.Nodup) (hn : T.ids.Nodup) (hr : T.Rooted) (hi : i < sunxiMaxUarts)
    (hused : script.Used i) (hd : T₀.resolve (serialPath i) = some d) (hcd : T₀.Precedes c d)
    (hnew : i ∉ rounds.map Round.index) {type : UInt32}
    (ht : script.single (uartPara i) strUartType = some type)
    (hkeys : ∀ key ∈ uartKeys type, (script.pin (uartPara i) key).isSome)
    (hw : Repr w.fdt (T.modify d (DtNode.setprop strStatus (strOkay ++ [0]))))
    (hroom : gpioRoom * 8 ≤ w.fdt.free.length) :
    Runs (uartPins script i) w fun r w' => r = 0 ∧ ∃ round T', round.index = i ∧
      Rounds script T₀ c (round :: rounds) T' ∧ Leaves w (gpioRoom * 8) T' w' := by
  obtain ⟨pins, hpins⟩ := Option.isSome_iff_exists.mp ((isSome_pins _).mpr hkeys)
  have hlen : pins.length ≤ 8 := (length_pins hpins).trans_le (length_uartKeys type)
  have hapart := h.device_ne hu hi hused hd hnew
  have hindex : ∀ r ∈ rounds, r.index < sunxiMaxUarts ∧ r.index ≠ i := fun r hr =>
    ⟨(h.asked r hr).lt, fun e => hnew (e ▸ List.mem_map_of_mem hr)⟩
  have hres : ∀ path ∈ uartPaths, ∀ x, T₀.resolve path = some x →
      DeviceTree.resolve (T.modify d (DtNode.setprop strStatus (strOkay ++ [0]))) path = some x :=
    fun path hp x hx => resolve_setprop hn hp (Or.inl rfl) _ _ (h.wired.resolve path hp x hx)
  have hungrouped : Ungrouped (T.modify d (DtNode.setprop strStatus (strOkay ++ [0]))) c d
      (uartName i) :=
    { ctrl_device := precedes_modify (h.wired.precedes c d hcd) _ _
      noGroup := fun a _ => by
        rw [childOf_modify hn ((keepsName_setprop _ _).isNamed _)]
        exact h.wired.noGroup hn hn₀ hu hcd.mem_left hi hindex a }
  have hround : ∀ groups T', Grouped (T.modify d (DtNode.setprop strStatus (strOkay ++ [0]))) c d
      (uartName i) (pins.map Script.Pin.gpio) groups T' →
      Rounds script T₀ c (⟨i, d, pins.map Script.Pin.gpio, groups⟩ :: rounds) T' := fun groups T' hg =>
    { wired := h.wired.round hn hcd.mem_left hcd.mem_right hapart hg
      asked := List.forall_mem_cons.mpr ⟨⟨hi, hused, hd, type, ht, pins, hpins, rfl⟩, h.asked⟩ }
  refine (reads_single script (uartPara i) strUartType).runs ht
    ((reads_uartGpios_of_pins hpins).runs rfl ?_)
  split
  · -- no group is made for an unknown type
    rename_i hdefault
    split at hdefault
    · rename_i hnil
      rw [hnil] at hpins
      obtain rfl : pins = [] := List.length_eq_zero_iff.mp (length_pins hpins)
      refine Runs.pure ⟨rfl, _, _, rfl, hround [] _ (Grouped.init hungrouped ?_ (hr.update _ _)), hw,
        Nat.le_add_right _ _⟩
      rw [ids_modify]
      exact hn
    · cases hdefault
  · rename_i gpios hgpios
    split at hgpios
    · cases hgpios
    · obtain rfl := Option.some.inj hgpios
      obtain ⟨hz, hat, hname⟩ := uartName_facts i hi
      have hroom' : gpioRoom * (pins.map Script.Pin.gpio).length ≤ gpioRoom * 8 := by
        rw [List.length_map]
        exact Nat.mul_le_mul_left _ hlen
      have hcall : Callable (T.modify d (DtNode.setprop strStatus (strOkay ++ [0]))) d (serialPath i)
          (uartName i) :=
        { resolve := hres _ (serialPath_mem hi) d hd
          parent_zero := (serialPath_facts i hi).1
          device_zero := hz
          device_atSign := hat
          device_length := by omega
          safe := aliasSafe_uartPaths (serialPath_mem hi) _ _ }
      refine Runs.bind ((runs_addPinctrlGroup hw (by decide) (hres _ pinctrlPath_mem c hu.ctrl) hcall
        hungrouped (hroom'.trans hroom)).mono ?_)
      rintro r w' ⟨-, groups, T', hg, -, hl⟩
      exact Runs.pure ⟨rfl, _, _, rfl, hround groups T' hg, hl.mono hroom'⟩

theorem runs_fixupUart (h : Rounds script T₀ c rounds T) (hu : Wirable script T₀ c)
    (hn₀ : T₀.ids.Nodup) (hw : Repr w.fdt T) (hi : i < sunxiMaxUarts) (hok : UartOk script i)
    (hnew : i ∉ rounds.map Round.index) (hroom : uartRoom ≤ w.fdt.free.length) :
    Runs (fixupUart script i) w fun r w' => r = 0 ∧ ∃ rounds' T', Rounds script T₀ c rounds' T' ∧
      rounds'.map Round.index = (if script.Used i then [i] else []) ++ rounds.map Round.index ∧
      Leaves w uartRoom T' w' := by
  obtain ⟨used, hsingle, hok⟩ := hok
  have hused : script.Used i ↔ used = 1 := by
    unfold Script.Used
    rw [hsingle, Option.some.injEq]
  rw [fixupUart_eq]
  refine (reads_single script (uartPara i) strUartUsed).runs hsingle ?_
  by_cases hone : used = 1
  · have hz : 0 ∉ strStatus := by decide
    obtain ⟨type, ht, hkeys⟩ := hok hone
    obtain ⟨d, hd, hcd⟩ := hu.serial i hi (hused.mpr hone)
    obtain ⟨n, hget⟩ := get?_of_mem ((h.wired.mem d).mpr (Or.inl hcd.mem_right))
    obtain ⟨o, ho⟩ := DeviceTree.offset_isSome (mem_of_get? hget)
    have hres := h.wired.resolve _ (serialPath_mem hi) d hd
    have hw₁ : Repr (w.call .root (.pathOffset (serialPath i)) 0).fdt T := hw
    have hfree : (w.call .root (.pathOffset (serialPath i)) 0).fdt.free.length =
      w.fdt.free.length := rfl
    have hset := setRoom_le n strStatus (strOkay ++ [0]).length
    unfold uartRoom at hroom ⊢
    rw [if_neg (not_not.mpr hone), if_pos (hused.mpr hone)]
    refine Runs.bind (runs_pathOffset hw (serialPath_facts i hi).1 hres ho ?_)
    refine Runs.bind (runs_setprop hw₁ hget ho hz (by rw [hfree]; omega) fun hl => ?_)
    have hleft := hl.2
    rw [hfree] at hleft
    rw [if_neg (not_not.mpr rfl)]
    refine (runs_uartPins h hu hn₀ hw.nodup hw.rooted hi (hused.mpr hone) hd hcd hnew ht hkeys hl.1
      (by omega)).mono ?_
    rintro r w' ⟨rfl, round, T', hindex, hrounds, hl'⟩
    refine ⟨rfl, _, T', hrounds, ?_, hl'.1, ?_⟩
    · rw [List.map_cons, hindex]
      rfl
    · have := hl'.2
      omega
  · rw [if_pos hone, if_neg (hused.not.mpr hone)]
    exact Runs.pure ⟨rfl, rounds, T, h, rfl, hw, Nat.le_add_right _ _⟩

theorem runs_uartLoop (hu : Wirable script T₀ c) (hn₀ : T₀.ids.Nodup) (is : List Nat)
    (h : Rounds script T₀ c rounds T) (hw : Repr w.fdt T)
    (hok : ∀ i ∈ is, i < sunxiMaxUarts ∧ UartOk script i) (hn : is.Nodup)
    (hnew : ∀ i ∈ is, i ∉ rounds.map Round.index)
    (hroom : is.length * uartRoom ≤ w.fdt.free.length) :
    Runs (uartLoop script is) w fun r w' => r = 0 ∧ ∃ rounds' T', Rounds script T₀ c rounds' T' ∧
      rounds'.map Round.index = (is.filter script.Used).reverse ++ rounds.map Round.index ∧
      Leaves w (is.length * uartRoom) T' w' := by
  induction is generalizing w T rounds with
  | nil =>
    unfold uartLoop
    exact Runs.pure ⟨rfl, rounds, T, h, rfl, hw, Nat.le_add_right _ _⟩
  | cons i is ih =>
    obtain ⟨⟨hi, hoki⟩, hok⟩ := List.forall_mem_cons.mp hok
    obtain ⟨hfirst, hn⟩ := List.nodup_cons.mp hn
    obtain ⟨hnewi, hnew⟩ := List.forall_mem_cons.mp hnew
    rw [List.length_cons, Nat.succ_mul] at hroom ⊢
    unfold uartLoop
    refine Runs.bind ((runs_fixupUart h hu hn₀ hw hi hoki hnewi (by omega)).mono ?_)
    rintro r w₁ ⟨rfl, rounds₁, T₁, h₁, hindex₁, hl₁⟩
    rw [if_neg (not_not.mpr rfl)]
    have hleft := hl₁.2
    have hrest : ∀ j ∈ is, j ∉ rounds₁.map Round.index := fun j hj hm => by
      rw [hindex₁, List.mem_append] at hm
      obtain hm | hm := hm
      · split at hm
        · exact hfirst (List.mem_singleton.mp hm ▸ hj)
        · cases hm
      · exact hnew j hj hm
    refine (ih h₁ hl₁.1 hok hn hrest (by omega)).mono ?_
    rintro r w₂ ⟨rfl, rounds₂, T₂, h₂, hindex₂, hl₂⟩
    refine ⟨rfl, rounds₂, T₂, h₂, ?_, Nat.add_comm _ _ ▸ hl₁.trans hl₂⟩
    rw [hindex₂, hindex₁]
    by_cases hused : script.Used i <;> simp [hused]

end

end Babelfish
