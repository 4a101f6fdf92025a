import Babelfish.Bootargs
import Babelfish.Lookups
import Babelfish.Stale

/-! What the fixups ask of a tree with the room that it has, by nodes and without offsets. -/

namespace Babelfish

open Libfdt Bytes Forest DeviceTree

/-- How an update that is asked for can come to nothing. -/
inductive Failure
  /-- Its result is looked at, and the fixup ends. -/
  | reported
  /-- Nobody looks at its result. -/
  | ignored
  /-- The tree does not say what is done: a string without an end is read on behind it, or the controller
  is a device of itself. -/
  | undecided
  deriving DecidableEq

instance (v : Option Bytes) : Decidable (HasNul v) := inferInstanceAs (Decidable (∀ b ∈ v, _))

namespace Libfdt.Stock

/-- An update of a node that has to be there and to have the room. -/
def require (S : Stock) (f : Failure) (i : Option Nat) (op : Op) : Except Failure Stock :=
  match i with
  | none => .error f
  | some i => if (S.update i op).1 then .ok (S.update i op).2 else .error f

def chosen (S : Stock) : Except Failure (Nat × Stock) :=
  match S.tree.lookup strChosenPath with
  | some i => .ok (i, S)
  | none => (S.require .ignored (some S.tree.root) (.addSubnode strChosen)).map (S.tree.newId, ·)

def setBootargs (s : Bytes) (S : Nat × Stock) : Except Failure Stock :=
  if HasNul (S.2.value S.1 strBootargs) then
    S.2.require .ignored (some S.1)
      (.setprop strBootargs (joinArgs (argsOf (S.2.value S.1 strBootargs) ++ [s]) ++ [0]))
  else .error .undecided

def appendBootargs (s : Bytes) (S : Stock) : Except Failure Stock := S.chosen >>= setBootargs s

def tag (tags : List UInt32) (S : Stock) : Except Failure Stock :=
  if tagWord tags 1 = atagCmdline then S.appendBootargs (cstr (tagBytes (tags.drop 2)))
  else if tagWord tags 1 = atagMem then
    if tagWord tags 2 = 0 then .ok S
    else S.require .ignored (S.tree.lookup strMemoryPath)
      (.setprop strReg (memReg (tagWord tags 3) (tagWord tags 2)))
  else if tagWord tags 1 = atagInitrd2 then
    S.require .ignored (S.tree.lookup strChosenPath)
        (.setprop strInitrdStart (be32 (tagWord tags 2).toNat)) >>= fun S =>
      S.require .ignored (S.tree.lookup strChosenPath)
        (.setprop strInitrdEnd (be32 (tagWord tags 2 + tagWord tags 3).toNat))
  else .ok S

def tagLoop : Nat → List UInt32 → Stock → Except Failure Stock
  | 0, _, S => .ok S
  | fuel + 1, tags, S =>
    if tagWord tags 0 = 0 then .ok S
    else S.tag tags >>= tagLoop fuel (tags.drop (tagWord tags 0).toNat)

def fromAtags (tags : List UInt32) (S : Stock) : Except Failure Stock := S.tagLoop tags.length tags

def machine (compatible string : Bytes) (S : Stock) : Except Failure Stock :=
  S.require .reported (some S.tree.root) (.setprop strCompatible (compatible ++ [0])) >>= fun S =>
    S.require .reported (some S.tree.root) (.setprop strModel (cstr string ++ [0]))

/-- An alias stands for a path, if it is there. -/
def AliasClear (T : DeviceTree) (name : Bytes) : Prop :=
  ∀ n ∈ (T.lookup strAliases).bind T.get?, ∀ v ∈ n.getprop name, 0 ∈ v ∧ v.head? = some slash

instance (T : DeviceTree) (name : Bytes) : Decidable (AliasClear T name) :=
  inferInstanceAs (Decidable (∀ _ ∈ _, ∀ _ ∈ _, _))

def enable (serial : Bytes) (S : Stock) : Except Failure Stock :=
  if S.tree.resolve serial = none ∧ ¬AliasClear S.tree serial then .error .undecided
  else S.require .reported (S.tree.resolve serial) (.setprop strStatus (strOkay ++ [0]))

def pinctrl (serial device : Bytes) (gpios : List Gpio) (S : Stock) : Except Failure Stock :=
  match S.tree.resolve strPinctrlPath, S.tree.resolve serial with
  | none, _ => .error .ignored
  | some _, none => .error .undecided
  | some c, some d =>
    if c = d then .error .undecided
    else if Unmoved S c d device gpios ∧ ∀ u ∈ (S.addPinctrlGroup c d device gpios).2.updates, u.Made then
      .ok (S.addPinctrlGroup c d device gpios).2.stock
    else .error .ignored

end Libfdt.Stock

def Script.gpios (script : Script) (i : Nat) : Option (List Gpio) := do
  let type ← script.single (uartPara i) strUartType
  let pins ← script.pins (uartPara i) (uartKeys type)
  if uartKeys type = [] then none else some (pins.map Script.Pin.gpio)

namespace Libfdt.Stock

def uart (script : Script) (i : Nat) (S : Stock) : Except Failure Stock :=
  if script.single (uartPara i) strUartUsed = some 1 then
    S.enable (catChar strSerial (uartIdx i)) >>= fun S =>
      match script.gpios i with
      | none => .ok S
      | some gpios => S.pinctrl (catChar strSerial (uartIdx i)) (catChar strUart (uartIdx i)) gpios
  else .ok S

def uartLoop (script : Script) : List Nat → Stock → Except Failure Stock
  | [], S => .ok S
  | i :: is, S => S.uart script i >>= uartLoop script is

def uarts (script : Script) (S : Stock) : Except Failure Stock :=
  S.appendBootargs (catChar strConsole
      (48 + (script.single strUartPara strUartDebugPort).getD 0).toUInt8 ++ strBaud) >>=
    uartLoop script (List.range sunxiMaxUarts)

def fromFex (compatible : Bytes) (script : Script) (S : Stock) : Except Failure Stock :=
  S.machine compatible ((script.string strProduct strMachine).getD []) >>= uarts script

def boot (tags : List UInt32) (compatible : Bytes) (script : Script) (S : Stock) : Except Failure Stock :=
  S.fromAtags tags >>= fromFex compatible script

end Libfdt.Stock

namespace Call

/-- The call went to another node than it was made for, or did not do its update. -/
def Bad (c : Call) : Prop := ¬c.Fresh ∨ c.Required ∧ ¬c.Succeeds

end Call

/-- Every call so far went to its node, and every update was made. -/
def Clean (w : World) : Prop := ∀ c ∈ w.calls, ¬c.Bad

theorem clean_iff (w : World) : Clean w ↔ AllFresh w ∧ AllMade w := by
  unfold Clean AllFresh AllMade Call.Bad
  simp only [not_or, not_not, not_and]
  exact ⟨fun h => ⟨fun c hc => (h c hc).1, fun c hc => (h c hc).2⟩, fun h c hc => ⟨h.1 c hc, h.2 c hc⟩⟩

/-- Something that is asked for comes to this failure. -/
def FailsWith (f : Failure) : Except Failure Stock → Prop
  | .ok _ => False
  | .error e => e = f

instance (f : Failure) : (e : Except Failure Stock) → Decidable (FailsWith f e)
  | .ok _ => inferInstanceAs (Decidable False)
  | .error e => inferInstanceAs (Decidable (e = f))

/-- How a run ends of which this is asked. -/
def Ends {α : Type} (good : α → Prop) (r : α) (w : World) : Except Failure Stock → Prop
  | .ok S => good r ∧ Stocked w.fdt S ∧ Clean w
  | .error .reported => ¬good r ∧ ∀ c ∈ w.calls.dropLast, ¬c.Bad
  | .error .ignored => ∃ c ∈ w.calls, c.Bad ∧ ¬c.Checked
  | .error .undecided => True

theorem Ends.any {α β : Type} {good : α → Prop} {r : α} {w : World} {e : Except Failure Stock}
    (h : Ends good r w e) (hne : e ≠ .error .reported) (b : β) : Ends (fun _ => True) b w e := by
  cases e with
  | ok S => exact ⟨trivial, h.2⟩
  | error f =>
    cases f with
    | reported => exact absurd rfl hne
    | ignored => exact h
    | undecided => trivial

theorem require_cases {S : Stock} {f : Failure} {i : Option Nat} {op : Op} :
    (∃ j, i = some j ∧ (S.update j op).1 = true ∧ S.require f i op = .ok (S.update j op).2) ∨
      S.require f i op = .error f := by
  unfold Stock.require
  cases i with
  | none => exact Or.inr rfl
  | some j =>
    by_cases hmade : (S.update j op).1 = true
    · exact Or.inl ⟨j, rfl, hmade, if_pos hmade⟩
    · exact Or.inr (if_neg hmade)

theorem require_ne_reported (S : Stock) (i : Option Nat) (op : Op) :
    S.require .ignored i op ≠ .error .reported := by
  rcases @require_cases S .ignored i op with ⟨j, -, -, he⟩ | he
  · rw [he]
    exact fun h => nomatch h
  · rw [he]
    exact fun h => nomatch h

/-- The program does what is asked, or ends as the first failure says. -/
def Follows {α : Type} (m : Fixup α) (good : α → Prop) (p : Stock → Except Failure Stock) : Prop :=
  ∀ w S, Stocked w.fdt S → Clean w → Runs m w fun r w' => Ends good r w' (p S)

namespace Follows

variable {α β : Type} {m : Fixup α} {f : α → Fixup β} {good : α → Prop} {good' : β → Prop}
variable {p q : Stock → Except Failure Stock} {w : World} {S : Stock}

theorem pure {a : α} (h : good a) : Follows (Pure.pure a : Fixup α) good .ok := fun _ _ hs hc =>
  Runs.pure ⟨h, hs, hc⟩

theorem runs_ignored (h : ∃ c ∈ w.calls, c.Bad ∧ ¬c.Checked) (hm : Extends m) :
    Runs m w fun _ w' => ∃ c ∈ w'.calls, c.Bad ∧ ¬c.Checked := by
  obtain ⟨c, hc, hbad⟩ := h
  exact (hm w).mono fun _ _ hpre => ⟨c, hpre.subset hc, hbad⟩

theorem runs_bind {e : Except Failure Stock} (hm : Runs m w fun r w' => Ends good r w' e)
    (hf : ∀ a, good a → Follows (f a) good' q) (hext : ∀ a, Extends (f a))
    (hbad : ∀ a, ¬good a → ∃ b, f a = Pure.pure b ∧ ¬good' b) :
    Runs (m >>= f) w fun r w' => Ends good' r w' (e >>= q) := by
  refine Runs.bind (hm.mono fun a w₁ hends => ?_)
  cases e with
  | ok S' =>
    obtain ⟨ha, hs, hc⟩ := hends
    exact hf a ha w₁ S' hs hc
  | error e =>
    cases e with
    | reported =>
      obtain ⟨ha, hlast⟩ := hends
      obtain ⟨b, hb, hnot⟩ := hbad a ha
      rw [hb]
      exact Runs.pure ⟨hnot, hlast⟩
    | ignored => exact runs_ignored hends (hext a)
    | undecided => exact (hext a w₁).mono fun _ _ _ => trivial

theorem bind (hm : Follows m good p) (hf : ∀ a, good a → Follows (f a) good' q)
    (hext : ∀ a, Extends (f a)) (hbad : ∀ a, ¬good a → ∃ b, f a = Pure.pure b ∧ ¬good' b) :
    Follows (m >>= f) good' fun S => p S >>= q := fun w S hs hc =>
  runs_bind (hm w S hs hc) hf hext hbad

theorem bind_any (hm : Follows m (fun _ => True) p) (hf : ∀ a, Follows (f a) good' q)
    (hext : ∀ a, Extends (f a)) : Follows (m >>= f) good' fun S => p S >>= q :=
  hm.bind (fun a _ => hf a) hext fun _ h => absurd trivial h

theorem ite {c : Prop} [Decidable c] {m' : Fixup α} {p' : Stock → Except Failure Stock}
    (hm : c → Follows m good p) (hm' : ¬c → Follows m' good p') :
    Follows (if c then m else m') good fun S => if c then p S else p' S := by
  split
  · exact hm ‹_›
  · exact hm' ‹_›

theorem of_reads {a : α} (hm : Reads m (some a)) (hf : Follows (f a) good' q) : Follows (m >>= f) good' q :=
  fun w S hs hc => hm.runs rfl (hf w S hs hc)

end Follows

section Steps

variable {w : World} {S : Stock} {f : Failure} {i : Option Nat} {o : Int} {target : Target} {name val : Bytes}

def Found (T : DeviceTree) (i : Option Nat) (o : Int) : Prop :=
  (∀ j ∈ i, ∃ k : Nat, DeviceTree.offset T j = some k ∧ o = k) ∧ (i = none → o < 0)

theorem Found.unique {T : DeviceTree} {o' : Int} {j : Nat} (h : Found T (some j) o)
    (h' : Found T (some j) o') : o = o' := by
  obtain ⟨k, hk, rfl⟩ := h.1 j rfl
  obtain ⟨k', hk', rfl⟩ := h'.1 j rfl
  rw [hk, Option.some.injEq] at hk'
  rw [hk']

theorem found_lookup {fdt : Fdt} {T : DeviceTree} {path : Bytes} (h : Repr fdt T) (hz : 0 ∉ path)
    (habs : path.head? = some slash) : Found T (T.lookup path) (fdtPathOffset fdt path) := by
  obtain ⟨hnone, hsome⟩ := h.pathOffset_abs hz habs
  refine ⟨fun j hj => ?_, fun hn => ?_⟩
  · obtain ⟨k, hk⟩ := DeviceTree.offset_isSome (DeviceTree.lookup_mem h hj)
    exact ⟨k, hk, hsome j hj k hk⟩
  · rw [hnone hn]
    simp [errNotFound]

theorem Clean.call (hc : Clean w) {op : Op} (hfresh : o = target.offset w.fdt)
    (hdone : (⟨target, op, w.fdt, o⟩ : Call).Required → 0 ≤ (op.run w.fdt o).1) :
    Clean (w.call target op o) := by
  intro c hmem
  rcases List.mem_append.mp hmem with hmem | hmem
  · exact hc c hmem
  · rw [List.mem_singleton] at hmem
    subst hmem
    rintro (hstale | ⟨hreq, hfail⟩)
    · exact hstale hfresh
    · exact hfail (hdone hreq)

theorem runs_find {path : Bytes} (hs : Stocked w.fdt S) (hc : Clean w) (hne : path ≠ strPinctrlPath) :
    Runs (pathOffset path) w fun r w' => r = fdtPathOffset w'.fdt path ∧ w'.fdt = w.fdt ∧
      Stocked w'.fdt S ∧ Clean w' := by
  refine runs_call ⟨rfl, rfl, hs, hc.call rfl ?_⟩
  rintro (hu | hpin)
  · cases hu
  · exact absurd (Op.pathOffset.inj hpin) hne

theorem runs_set {good : Int → Prop} (hs : Stocked w.fdt S) (hc : Clean w)
    (hfresh : o = target.offset w.fdt) (hfound : Found S.tree i o) (hz : 0 ∉ name) (hgood : good 0)
    (hf : (f = .reported ∧ ∀ r < 0, ¬good r) ∨
      f = .ignored ∧ name ∉ [strCompatible, strModel, strStatus]) :
    Runs (call target (.setprop name val) o) w fun r w' =>
      Ends good r w' (S.require f i (.setprop name val)) := by
  have hreq : ∀ fdt, (⟨target, .setprop name val, fdt, o⟩ : Call).Required := fun _ =>
    Or.inl (.setprop name val)
  have hun : f = .ignored → ¬(⟨target, .setprop name val, w.fdt, o⟩ : Call).Checked := by
    rintro hi ⟨name', hmem, val', hop⟩
    cases hop
    rcases hf with ⟨hf, -⟩ | ⟨-, hn⟩
    · rw [hi] at hf
      cases hf
    · exact hn hmem
  -- a call that does not succeed
  have hfails : (fdtSetprop w.fdt o name val).1 < 0 →
      Runs (call target (.setprop name val) o) w fun r w' => Ends good r w' (.error f) := by
    intro hneg
    refine runs_call ?_
    rcases hf with ⟨rfl, hr⟩ | ⟨rfl, -⟩
    · refine ⟨hr _ hneg, fun c hmem => ?_⟩
      rw [World.call_calls, List.dropLast_concat] at hmem
      exact hc c hmem
    · refine ⟨_, List.mem_concat_self, Or.inr ⟨hreq _, fun hsucc => ?_⟩, hun rfl⟩
      have : 0 ≤ (fdtSetprop w.fdt o name val).1 := hsucc
      omega
  cases i with
  | none =>
    have hneg := hfound.2 rfl
    exact hfails (by simp [fdtSetprop_of_neg hneg, errBadOffset])
  | some j =>
    obtain ⟨k, hk, rfl⟩ := hfound.1 j rfl
    obtain ⟨n, hn⟩ := get?_of_mem (mem_of_offset hk)
    obtain ⟨hret, hstock⟩ := hs.setprop hn hk hz val
    unfold Stock.require
    have hupd : S.update j (.setprop name val) = S.setprop j name val := rfl
    simp only [hupd]
    by_cases hmade : (S.setprop j name val).1 = true
    · rw [if_pos hmade] at hret ⊢
      refine runs_call ⟨?_, hstock, hc.call hfresh fun _ => ?_⟩
      · simp only [Op.run, hret]
        exact hgood
      · simp only [Op.run, hret]
        exact Int.le_refl 0
    · rw [if_neg hmade] at hret ⊢
      exact hfails (by simp [hret, errNoSpace])

theorem runs_try (hs : Stocked w.fdt S) (hc : Clean w) (hfresh : o = target.offset w.fdt)
    (hfound : Found S.tree i o) (hz : 0 ∉ name) (hname : name ∉ [strCompatible, strModel, strStatus]) :
    Runs (call target (.setprop name val) o) w fun r w' =>
      Ends (fun _ => True) r w' (S.require .ignored i (.setprop name val)) :=
  runs_set hs hc hfresh hfound hz trivial (Or.inr ⟨rfl, hname⟩)

end Steps

end Babelfish
