import Babelfish.Simulation
import Babelfish.Libfdt.Flatten

/-! When the offsets of `fdt_add_pinctrl_group` go stale, and trees in which the controller and the device
stand in different orders. -/

namespace Babelfish

open Libfdt Bytes Forest DeviceTree

def Libfdt.Stock.addPinctrlGroup (S : Stock) (c d : Nat) (device : Bytes) (gpios : List Gpio) : Int × Ledger :=
  (⟨S, []⟩ : Ledger).groups c d device gpios 0

/-- The controller comes first, or no update changes the size of the device. -/
def Unmoved (S : Stock) (c d : Nat) (device : Bytes) (gpios : List Gpio) : Prop :=
  S.tree.Precedes c d ∨ ∀ u ∈ (S.addPinctrlGroup c d device gpios).2.updates, ¬u.Resizes d

instance (S : Stock) (c d : Nat) (device : Bytes) (gpios : List Gpio) :
    Decidable (Unmoved S c d device gpios) := inferInstanceAs (Decidable (_ ∨ _))

theorem Tracks.start {fdt : Fdt} {T : DeviceTree} (h : Repr fdt T) :
    Tracks ⟨fdt, []⟩ ⟨⟨T, fdt.dtStrings, fdt.free.length⟩, []⟩ :=
  ⟨h.stocked, fun _ hx => absurd hx List.not_mem_nil,
    iff_of_true (fun _ hx => absurd hx List.not_mem_nil) fun _ hu => absurd hu List.not_mem_nil⟩

section Whole

variable {c d : Nat} {pinctrlPath parentPath device : Bytes} {w : World} {S : Stock} {gpios : List Gpio}

theorem Tracks.runs_addPinctrlGroup (h : Tracks w ⟨S, []⟩)
    (hp : Paths pinctrlPath parentPath d (S.tree.lookup strAliases)) (hzd : 0 ∉ device)
    (hat : atSign ∉ device) (hctrl : S.tree.resolve pinctrlPath = some c)
    (hres : S.tree.resolve parentPath = some d) (hcd : c ≠ d) :
    Runs (fdtAddPinctrlGroup pinctrlPath parentPath gpios device) w fun r w' =>
      Unmoved S c d device gpios ∧ r = (S.addPinctrlGroup c d device gpios).1 ∧
          Tracks w' (S.addPinctrlGroup c d device gpios).2 ∧
          (S.addPinctrlGroup c d device gpios).2.stock.tree.resolve pinctrlPath = some c ∧
          (S.addPinctrlGroup c d device gpios).2.stock.tree.resolve parentPath = some d ∨
        ¬Unmoved S c d device gpios ∧ SomeStale w' := by
  have hrepr : Repr w.fdt S.tree := h.stocked.repr
  have hcm := DeviceTree.resolve_mem hrepr hctrl
  have hdm := DeviceTree.resolve_mem hrepr hres
  obtain ⟨po, hpo⟩ := DeviceTree.offset_isSome hcm
  have hpath := hrepr.pathOffset hp.pinctrl_zero hctrl hpo
  have hpos : ¬((po : Int) < 0) := by omega
  have hs : Placed ⟨c, d, po, pinctrlPath, parentPath, S.tree.lookup strAliases, S.tree.Precedes c d⟩
      S.tree := by
    refine ⟨?_, hpo, hctrl, hres, rfl⟩
    by_cases hahead : S.tree.Precedes c d
    · exact Or.inl ⟨hahead, hahead⟩
    · exact Or.inr ⟨hahead, (precedes_total hcm hdm hcd).resolve_left hahead⟩
  unfold fdtAddPinctrlGroup
  refine Runs.bind ((h.runs_read rfl rfl fun _ => ?_).mono ?_)
  · simp only [Op.run, hpath]
    omega
  rintro r w₁ ⟨hr, -, h₁⟩
  simp only [Op.run, hpath] at hr
  subst hr
  rw [if_neg hpos]
  refine (h₁.runs_groupLoop hat hp hzd hs (Or.inr fun u hu => absurd hu List.not_mem_nil) 0).mono ?_
  rintro r w' (⟨held, hr, h', hs'⟩ | hnot)
  · exact Or.inl ⟨held, hr, h', hs'.ctrl_resolve, hs'.resolve⟩
  · exact Or.inr hnot

end Whole

/-- The same nodes with the same children, in any order but for the children of `c`. -/
structure Twins (c : Nat) (T₁ T₂ : DeviceTree) : Prop where
  node : ∀ i, T₁.get? i = T₂.get? i
  kids : ∀ i, (T₁.kids i).Perm (T₂.kids i)
  ctrl : T₁.kids c = T₂.kids c

structure TwinStocks (c : Nat) (S₁ S₂ : Stock) : Prop where
  tree : Twins c S₁.tree S₂.tree
  strings : S₁.strings = S₂.strings
  free : S₁.free = S₂.free
  nodup₁ : S₁.tree.ids.Nodup
  nodup₂ : S₂.tree.ids.Nodup

namespace Twins

variable {c : Nat} {T₁ T₂ : DeviceTree}

theorem mem (h : Twins c T₁ T₂) (i : Nat) : i ∈ T₁.ids ↔ i ∈ T₂.ids := by
  have hiff : ∀ T : DeviceTree, i ∈ T.ids ↔ ∃ n, T.get? i = some n := fun T =>
    ⟨get?_of_mem, fun ⟨_, hn⟩ => mem_of_get? hn⟩
  rw [hiff, hiff, h.node i]

theorem newId (h : Twins c T₁ T₂) : T₁.newId = T₂.newId := by
  have hmax : ∀ l l' : List Nat, (∀ i, i ∈ l → i ∈ l') → l.foldr max 0 ≤ l'.foldr max 0 := by
    intro l l' hsub
    have hle : ∀ m : List Nat, ∀ i ∈ m, i ≤ m.foldr max 0 := fun m => by
      induction m with
      | nil => simp
      | cons k m ih =>
        intro i hi
        rw [List.foldr_cons]
        rcases List.mem_cons.mp hi with rfl | hi
        · exact Nat.le_max_left _ _
        · exact (ih i hi).trans (Nat.le_max_right _ _)
    induction l with
    | nil => exact Nat.zero_le _
    | cons k l ih =>
      rw [List.foldr_cons]
      exact Nat.max_le.mpr ⟨hle l' k (hsub k List.mem_cons_self),
        ih fun i hi => hsub i (List.mem_cons_of_mem _ hi)⟩
  unfold Forest.newId
  rw [Nat.le_antisymm (hmax _ _ fun i hi => (h.mem i).mp hi) (hmax _ _ fun i hi => (h.mem i).mpr hi)]

theorem nextHandle (h : Twins c T₁ T₂) : Babelfish.nextHandle T₁ = Babelfish.nextHandle T₂ := by
  obtain ⟨hle, hmax, hsome⟩ :=
    foldl_max_spec T₂.ids (fun i => toInt32 (((T₂.get? i).map DtNode.phandle).getD 0)) 0
  refine nextHandle_eq hle (fun i n hn => ?_) ?_
  · rw [h.node i] at hn
    have := hmax i (mem_of_get? hn)
    simpa only [hn, Option.map_some, Option.getD_some] using this
  · rcases hsome with he | ⟨i, hi, he⟩
    · exact Or.inl he
    · obtain ⟨n, hn⟩ := get?_of_mem hi
      refine Or.inr ⟨i, n, (h.node i).trans hn, ?_⟩
      rw [← he]
      simp only [hn, Option.map_some, Option.getD_some]

theorem childOf (h : Twins c T₁ T₂) (hn₁ : T₁.ids.Nodup) (hn₂ : T₂.ids.Nodup) (p : DtNode → Bool) :
    T₁.childOf c p = T₂.childOf c p := by
  rw [childOf_eq_find? hn₁, childOf_eq_find? hn₂, h.ctrl]
  simp only [h.node]

theorem modify (h : Twins c T₁ T₂) (hn₁ : T₁.ids.Nodup) (hn₂ : T₂.ids.Nodup) (i : Nat)
    (g : DtNode → DtNode) : Twins c (T₁.modify i g) (T₂.modify i g) where
  node j := by
    by_cases hj : j = i
    · subst hj
      rw [get?_modify_self, get?_modify_self, h.node]
    · rw [get?_modify_of_ne hj hn₁, get?_modify_of_ne hj hn₂, h.node]
  kids j := by
    rw [kids_modify hn₁, kids_modify hn₂]
    exact h.kids j
  ctrl := by rw [kids_modify hn₁, kids_modify hn₂, h.ctrl]

theorem addFirst (h : Twins c T₁ T₂) (hn₁ : T₁.ids.Nodup) (hn₂ : T₂.ids.Nodup) {new : Nat}
    (hfresh : new ∉ T₁.ids) (n : DtNode) : Twins c (T₁.addFirst c new n) (T₂.addFirst c new n) := by
  by_cases hc : c ∈ T₁.ids
  swap
  · rwa [addFirst_of_not_mem hc, addFirst_of_not_mem fun hc₂ => hc ((h.mem c).mpr hc₂)]
  have hc₂ := (h.mem c).mp hc
  have hfresh₂ := fun hm => hfresh ((h.mem new).mpr hm)
  refine ⟨fun j => ?_, fun j => ?_, ?_⟩
  · by_cases hj : j = new
    · subst hj
      rw [get?_addFirst_new hc hfresh, get?_addFirst_new hc₂ hfresh₂]
    · rw [get?_addFirst_of_ne hj hn₁, get?_addFirst_of_ne hj hn₂, h.node]
  · by_cases hj : j = c
    · subst hj
      rw [kids_addFirst_self hc, kids_addFirst_self hc₂]
      exact (h.kids j).cons new
    · by_cases hjn : j = new
      · subst hjn
        rw [kids_addFirst_new hc hfresh, kids_addFirst_new hc₂ hfresh₂]
      · rw [kids_addFirst_of_ne hj hjn hn₁, kids_addFirst_of_ne hj hjn hn₂]
        exact h.kids j
  · rw [kids_addFirst_self hc, kids_addFirst_self hc₂, h.ctrl]

end Twins

namespace TwinStocks

variable {c d : Nat} {S₁ S₂ : Stock} {L₁ L₂ : Ledger} {op : Op}

theorem splice (h : TwinStocks c S₁ S₂) {T₁ T₂ : DeviceTree} (ht : Twins c T₁ T₂)
    (hn₁ : T₁.ids.Nodup) (hn₂ : T₂.ids.Nodup) (name : Bytes) (need give : Nat) :
    (S₁.splice T₁ name need give).1 = (S₂.splice T₂ name need give).1 ∧
      TwinStocks c (S₁.splice T₁ name need give).2 (S₂.splice T₂ name need give).2 := by
  unfold Stock.splice
  rw [h.free, h.strings]
  split
  · exact ⟨rfl, ht, rfl, rfl, hn₁, hn₂⟩
  · split
    · exact ⟨rfl, h.tree, rfl, rfl, h.nodup₁, h.nodup₂⟩
    · exact ⟨rfl, h⟩

theorem value (h : TwinStocks c S₁ S₂) (i : Nat) (name : Bytes) : S₁.value i name = S₂.value i name := by
  rw [Stock.value, Stock.value, h.tree.node]

theorem put (h : TwinStocks c S₁ S₂) (i : Nat) (name : Bytes) (len : Nat) (g : DtNode → DtNode) :
    (S₁.put i name len (S₁.tree.modify i g)).1 = (S₂.put i name len (S₂.tree.modify i g)).1 ∧
      TwinStocks c (S₁.put i name len (S₁.tree.modify i g)).2 (S₂.put i name len (S₂.tree.modify i g)).2 := by
  have ht := h.tree.modify h.nodup₁ h.nodup₂ i g
  have hn₁ : (S₁.tree.modify i g).ids.Nodup := by rw [ids_modify]; exact h.nodup₁
  have hn₂ : (S₂.tree.modify i g).ids.Nodup := by rw [ids_modify]; exact h.nodup₂
  unfold Stock.put
  rw [h.value, h.strings]
  cases S₂.value i name with
  | none => exact h.splice ht hn₁ hn₂ _ _ _
  | some v => exact h.splice ht hn₁ hn₂ _ _ _

theorem update (h : TwinStocks c L₁.stock L₂.stock) (hop : op.Sets) (i : Nat) :
    (L₁.update i op).1 = (L₂.update i op).1 ∧
      TwinStocks c (L₁.update i op).2.stock (L₂.update i op).2.stock := by
  cases hop with
  | setprop hz val => exact h.put i _ _ _
  | appendprop hz val =>
    unfold Ledger.update Stock.update Stock.appendprop
    simp only
    rw [h.value]
    exact h.put i _ _ _

theorem addGroup (h : TwinStocks c L₁.stock L₂.stock) (name : Bytes) :
    (L₁.update c (.addSubnode name)).1 = (L₂.update c (.addSubnode name)).1 ∧
      TwinStocks c (L₁.update c (.addSubnode name)).2.stock (L₂.update c (.addSubnode name)).2.stock := by
  have hfresh := newId_not_mem L₁.stock.tree
  have hid := h.tree.newId
  have hfresh₂ : L₁.stock.tree.newId ∉ L₂.stock.tree.ids := hid ▸ newId_not_mem L₂.stock.tree
  unfold Ledger.update Stock.update Stock.addSubnode
  simp only
  rw [← hid]
  exact h.splice (h.tree.addFirst h.nodup₁ h.nodup₂ hfresh _) (nodup_addFirst h.nodup₁ hfresh _)
    (nodup_addFirst h.nodup₂ hfresh₂ _) _ _ _

theorem createHandle (h : TwinStocks c L₁.stock L₂.stock) (i : Nat) :
    (L₁.createHandle i).1 = (L₂.createHandle i).1 ∧
      TwinStocks c (L₁.createHandle i).2.stock (L₂.createHandle i).2.stock := by
  unfold Ledger.createHandle
  simp only
  rw [h.tree.nextHandle]
  generalize UInt32.ofInt (nextHandle L₂.stock.tree) = v
  obtain ⟨he, h'⟩ := h.update (show (Op.setprop strPhandle (be32 v.toNat)).Sets from .setprop (by decide) _) i
  rw [he]
  split
  · obtain ⟨he', h''⟩ :=
      h'.update (show (Op.setprop strLinuxPhandle (be32 v.toNat)).Sets from .setprop (by decide) _) i
    rw [he']
    exact ⟨rfl, h''⟩
  · exact ⟨rfl, h'⟩

theorem describe (h : TwinStocks c L₁.stock L₂.stock) (new : Nat) (device : Bytes) (a : PinAttr) :
    TwinStocks c (L₁.describe new device a).stock (L₂.describe new device a).stock := by
  have h₁ := (h.update (show (Op.setprop strDrive (be32 a.2.toNat)).Sets from .setprop (by decide) _) new).2
  have h₂ := (h₁.update (show (Op.setprop strPull (be32 a.1.toNat)).Sets from .setprop (by decide) _) new).2
  exact (h₂.update (show (Op.setprop strFunction (device ++ [0])).Sets from .setprop (by decide) _) new).2

theorem refer (h : TwinStocks c L₁.stock L₂.stock) (new d ngroup : Nat) :
    TwinStocks c (L₁.refer new d ngroup).stock (L₂.refer new d ngroup).stock := by
  have h₁ := (h.update
    (show (Op.appendprop strPinctrlNames (strDefault ++ [0])).Sets from .appendprop (by decide) _) d).2
  obtain ⟨he, h₂⟩ := h₁.createHandle new
  unfold Ledger.refer
  simp only
  rw [he]
  exact (h₂.update (.setprop (zero_not_mem_pinctrlProp ngroup) _) d).2

theorem newGroup (h : TwinStocks c L₁.stock L₂.stock) (device : Bytes) (a : PinAttr) (ngroup : Nat) :
    (L₁.newGroup c d device a ngroup).1 = (L₂.newGroup c d device a ngroup).1 ∧
      TwinStocks c (L₁.newGroup c d device a ngroup).2.stock (L₂.newGroup c d device a ngroup).2.stock := by
  obtain ⟨he, h₁⟩ := h.addGroup (attrName device a)
  unfold Ledger.newGroup
  simp only
  rw [he, h.tree.newId]
  split
  · exact ⟨rfl, (h₁.describe _ device a).refer _ d ngroup⟩
  · exact ⟨rfl, h₁⟩

theorem groups (h : TwinStocks c L₁.stock L₂.stock) (device : Bytes) (gpios : List Gpio) (ngroup : Nat) :
    (L₁.groups c d device gpios ngroup).1 = (L₂.groups c d device gpios ngroup).1 ∧
      TwinStocks c (L₁.groups c d device gpios ngroup).2.stock (L₂.groups c d device gpios ngroup).2.stock := by
  have hop : ∀ pin : Gpio, (Op.appendprop strPins (pin.pin ++ [0])).Sets := fun _ => .appendprop (by decide) _
  induction gpios generalizing L₁ L₂ ngroup with
  | nil => exact ⟨rfl, h⟩
  | cons pin gpios ih =>
    obtain ⟨he, h'⟩ := h.newGroup (d := d) device pin.attr ngroup
    unfold Ledger.groups
    rw [h.tree.childOf h.nodup₁ h.nodup₂]
    cases L₂.stock.tree.childOf c (DtNode.isNamed (attrName device pin.attr)) with
    | some id => exact ih (h.update (hop pin) id).2 ngroup
    | none =>
      generalize L₁.newGroup c d device pin.attr ngroup = R₁ at he h'
      generalize L₂.newGroup c d device pin.attr ngroup = R₂ at he h'
      obtain ⟨new, L₁'⟩ := R₁
      obtain ⟨new₂, L₂'⟩ := R₂
      obtain rfl : new = new₂ := he
      cases new with
      | none => exact ⟨rfl, h'⟩
      | some id => exact ih (h'.update (hop pin) id).2 (ngroup + 1)

end TwinStocks

/-- Every offset denotes the node it was computed for just if the device does not move the controller; two
trees that differ in the order of siblings, the controller and the device among them, then become trees
that differ in no more. -/
theorem fdtAddPinctrlGroup_fresh_iff {c d : Nat} {pinctrlPath parentPath device : Bytes} {fdt : Fdt}
    {T : DeviceTree} {gpios : List Gpio} (h : Repr fdt T) (hctrl : T.resolve pinctrlPath = some c)
    (hres : T.resolve parentPath = some d) (hcd : c ≠ d)
    (hp : Paths pinctrlPath parentPath d (T.lookup strAliases)) (hdev : 0 ∉ device ∧ atSign ∉ device) :
    Runs (fdtAddPinctrlGroup pinctrlPath parentPath gpios device) ⟨fdt, []⟩ (fun _ w =>
      (∀ x ∈ w.calls, x.Fresh) ↔ Unmoved ⟨T, fdt.dtStrings, fdt.free.length⟩ c d device gpios) ∧
    ∀ fdt' T', Repr fdt' T' → Twins c T T' → fdt.dtStrings = fdt'.dtStrings →
      fdt.free.length = fdt'.free.length → T'.resolve pinctrlPath = some c →
      T'.resolve parentPath = some d → Paths pinctrlPath parentPath d (T'.lookup strAliases) →
      Unmoved ⟨T, fdt.dtStrings, fdt.free.length⟩ c d device gpios →
      Unmoved ⟨T', fdt'.dtStrings, fdt'.free.length⟩ c d device gpios →
      Runs (fdtAddPinctrlGroup pinctrlPath parentPath gpios device) ⟨fdt, []⟩ fun r w =>
        Runs (fdtAddPinctrlGroup pinctrlPath parentPath gpios device) ⟨fdt', []⟩ fun r' w' =>
          r = r' ∧ ∃ U U', Repr w.fdt U ∧ Repr w'.fdt U' ∧ Twins c U U' ∧
            (U.resolve pinctrlPath = some c ∧ U.resolve parentPath = some d) ∧
            U'.resolve pinctrlPath = some c ∧ U'.resolve parentPath = some d := by
  refine ⟨((Tracks.start h).runs_addPinctrlGroup hp hdev.1 hdev.2 hctrl hres hcd).mono ?_, ?_⟩
  · rintro r w (⟨hheld, -, hw, -⟩ | ⟨hnot, x, hx, hs⟩)
    · exact iff_of_true hw.fresh hheld
    · exact iff_of_false (fun hall => hs (hall x hx)) hnot
  · intro fdt' T' h' ht hstrings hfree hctrl' hres' hp' hheld hheld'
    refine ((Tracks.start h).runs_addPinctrlGroup hp hdev.1 hdev.2 hctrl hres hcd).mono ?_
    rintro r w (⟨-, hr, hw, hlook⟩ | ⟨hnot, -⟩)
    · refine ((Tracks.start h').runs_addPinctrlGroup hp' hdev.1 hdev.2 hctrl' hres' hcd).mono ?_
      rintro r' w' (⟨-, hr', hw', hlook'⟩ | ⟨hnot, -⟩)
      · have htwin : TwinStocks c (⟨⟨T, fdt.dtStrings, fdt.free.length⟩, []⟩ : Ledger).stock
            (⟨⟨T', fdt'.dtStrings, fdt'.free.length⟩, []⟩ : Ledger).stock :=
          ⟨ht, hstrings, hfree, h.nodup, h'.nodup⟩
        obtain ⟨he, hgroups⟩ := htwin.groups (d := d) device gpios 0
        exact ⟨hr.trans (he.trans hr'.symm), _, _, hw.stocked.repr, hw'.stocked.repr, hgroups.tree,
          hlook, hlook'⟩
      · exact absurd hheld' hnot
    · exact absurd hheld hnot

def deviceFirst : DeviceTree :=
  .node 0 ⟨[], []⟩
    (.node 1 ⟨Bytes.ofString "serial", []⟩ .nil (.node 2 ⟨Bytes.ofString "pinctrl", []⟩ .nil .nil))
    .nil

def deviceLast : DeviceTree :=
  .node 0 ⟨[], []⟩
    (.node 2 ⟨Bytes.ofString "pinctrl", []⟩ .nil (.node 1 ⟨Bytes.ofString "serial", []⟩ .nil .nil))
    .nil

theorem deviceFirst_repr : Repr (deviceFirst.blob 64) deviceFirst :=
  DeviceTree.repr_blob (by decide) (by decide) ⟨0, _, _, rfl⟩ (by decide)

theorem deviceFirst_paths : Paths (Bytes.ofString "/pinctrl") (Bytes.ofString "/serial") 1
    (deviceFirst.lookup strAliases) :=
  ⟨by decide, by decide, fun h => absurd rfl h, fun h => absurd rfl h⟩

theorem deviceLast_repr : Repr (deviceLast.blob 64) deviceLast :=
  DeviceTree.repr_blob (by decide) (by decide) ⟨0, _, _, rfl⟩ (by decide)

theorem twins_deviceFirst : Twins 2 deviceFirst deviceLast where
  node i := by
    simp only [deviceFirst, deviceLast, Forest.get?, Forest.find?]
    grind
  kids i := match i with
    | 0 => List.Perm.swap 2 1 []
    | 1 | 2 | _ + 3 => List.Perm.refl []
  ctrl := by decide

theorem fdtAddPinctrlGroup_fresh_iff_deviceFirst :
    Runs (fdtAddPinctrlGroup (Bytes.ofString "/pinctrl") (Bytes.ofString "/serial") [⟨2, 22, 2, 1⟩]
        (Bytes.ofString "uart0")) ⟨deviceFirst.blob 64, []⟩ (fun _ w' => ∀ x ∈ w'.calls, x.Fresh) ∧
      Runs (fdtAddPinctrlGroup (Bytes.ofString "/pinctrl") (Bytes.ofString "/serial") [⟨2, 22, 2, 1⟩]
        (Bytes.ofString "uart0")) ⟨deviceFirst.blob 64, []⟩ fun r w =>
        Runs (fdtAddPinctrlGroup (Bytes.ofString "/pinctrl") (Bytes.ofString "/serial") [⟨2, 22, 2, 1⟩]
          (Bytes.ofString "uart0")) ⟨deviceLast.blob 64, []⟩ fun r' w' =>
          r = r' ∧ ∃ U U', Repr w.fdt U ∧ Repr w'.fdt U' ∧ Twins 2 U U' ∧
            (U.resolve (Bytes.ofString "/pinctrl") = some 2 ∧ U.resolve (Bytes.ofString "/serial") = some 1) ∧
            U'.resolve (Bytes.ofString "/pinctrl") = some 2 ∧ U'.resolve (Bytes.ofString "/serial") = some 1 := by
  have hheld : Unmoved ⟨deviceFirst, (deviceFirst.blob 64).dtStrings, (deviceFirst.blob 64).free.length⟩ 2 1
      (Bytes.ofString "uart0") [⟨2, 22, 2, 1⟩] := by decide +kernel
  obtain ⟨hfresh, htwins⟩ := @fdtAddPinctrlGroup_fresh_iff 2 1 _ _ (Bytes.ofString "uart0") _ _
    [⟨2, 22, 2, 1⟩] deviceFirst_repr (by decide) (by decide) (by decide) deviceFirst_paths (by decide)
  exact ⟨hfresh.mono fun _ _ h => h.mpr hheld, htwins _ deviceLast deviceLast_repr twins_deviceFirst rfl rfl
    (by decide) (by decide) ⟨by decide, by decide, fun h => absurd rfl h, fun h => absurd rfl h⟩ hheld
    (by decide +kernel)⟩

/-- With the device in front the group moves while its offset is kept, and the result is another one. -/
theorem deviceFirst_stale :
    Runs (fdtAddPinctrlGroup (Bytes.ofString "/pinctrl") (Bytes.ofString "/serial") [⟨2, 22, 2, 1⟩]
        (Bytes.ofString "uart0")) ⟨deviceFirst.blob 352, []⟩ fun _ w =>
      (¬∀ x ∈ w.calls, x.Fresh) ∧
        Runs (fdtAddPinctrlGroup (Bytes.ofString "/pinctrl") (Bytes.ofString "/serial") [⟨2, 22, 2, 1⟩]
          (Bytes.ofString "uart0")) ⟨deviceLast.blob 352, []⟩ fun _ w' =>
          w.fdt.free.length ≠ w'.fdt.free.length := by
  decide +kernel

end Babelfish
