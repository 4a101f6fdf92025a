import Babelfish.Fixup

/-! What the fixups look up in a script, and when every lookup finds an entry of the type that it is
read as. -/

namespace Babelfish

open Libfdt

namespace Script

def entry (script : Script) (sec key : Bytes) : Option ScriptEntry :=
  (scriptFindSection script sec).bind fun s => findEntryLoop key s.entries

def single (script : Script) (sec key : Bytes) : Option UInt32 :=
  match script.entry sec key with
  | some ⟨_, .single v⟩ => some v
  | _ => none

def string (script : Script) (sec key : Bytes) : Option Bytes :=
  match script.entry sec key with
  | some ⟨_, .string s⟩ => some s
  | _ => none

def pin (script : Script) (sec key : Bytes) : Option Pin :=
  match script.entry sec key with
  | some ⟨_, .gpio port portNum data⟩ => some ⟨port, portNum, data⟩
  | _ => none

end Script

def Script.pins (script : Script) (sec : Bytes) (keys : List Bytes) : Option (List Script.Pin) :=
  keys.mapM (script.pin sec)

def uartPara (i : Nat) : Bytes := catChar strUartPara (uartIdx i)

/-- The keys that are read for a type, in the order of their array slots. -/
def uartKeys (type : UInt32) : List Bytes :=
  if type = 8 then [strTx, strRx, strRts, strCts, strRing, strDcd, strDsr, strDtr]
  else if type = 4 then [strTx, strRx, strRts, strCts]
  else if type = 2 then [strTx, strRx]
  else []

def UartOk (script : Script) (i : Nat) : Prop :=
  ∃ used ∈ script.single (uartPara i) strUartUsed, used = 1 →
    ∃ type ∈ script.single (uartPara i) strUartType,
      ∀ key ∈ uartKeys type, (script.pin (uartPara i) key).isSome

instance (script : Script) (i : Nat) : Decidable (UartOk script i) := by
  unfold UartOk
  infer_instance

/-- Everything that is read is there with the type it is read as. -/
structure ScriptOk (script : Script) : Prop where
  machine : (script.string strProduct strMachine).isSome
  port : (script.single strUartPara strUartDebugPort).isSome
  uarts : ∀ i < sunxiMaxUarts, UartOk script i

theorem scriptOk_iff (script : Script) : ScriptOk script ↔
    (script.string strProduct strMachine).isSome ∧
      (script.single strUartPara strUartDebugPort).isSome ∧ ∀ i < sunxiMaxUarts, UartOk script i :=
  ⟨fun h => ⟨h.machine, h.port, h.uarts⟩, fun h => ⟨h.1, h.2.1, h.2.2⟩⟩

instance (script : Script) : Decidable (ScriptOk script) :=
  decidable_of_iff _ (scriptOk_iff script).symm

/-- The program reads `v` without an effect, and faults where there is nothing to read. -/
def Reads {α : Type} (m : Fixup α) (v : Option α) : Prop :=
  ∀ w, match v with
    | some a => m.run w = .ok (a, w)
    | none => ∃ e, Fails m w e

namespace Reads

variable {α β : Type} {m : Fixup α} {v : Option α} {a : α} {f : α → Fixup β} {w : World}

theorem runs (h : Reads m v) (hv : v = some a) {Q : β → World → Prop} (hQ : Runs (f a) w Q) :
    Runs (m >>= f) w Q := by
  subst hv
  exact Runs.bind ⟨a, w, h w, hQ⟩

theorem fails (h : Reads m v) (hv : v = none) : ∃ e, Fails (m >>= f) w e := by
  subst hv
  obtain ⟨e, he⟩ := h w
  exact ⟨e, he.bind_left⟩

theorem fails_right (h : Reads m v) (hv : v = some a) (hf : ∃ e, Fails (f a) w e) :
    ∃ e, Fails (m >>= f) w e := by
  subst hv
  obtain ⟨e, he⟩ := hf
  exact ⟨e, Fails.bind_right ⟨a, w, h w, he⟩⟩

theorem bind {u : Option β} (h : Reads m v) (hf : ∀ a, v = some a → Reads (f a) u)
    (hu : v = none → u = none) : Reads (m >>= f) u := by
  intro w
  cases hv : v with
  | none =>
    rw [hu hv]
    exact h.fails hv
  | some a =>
    have hfa := hf a hv w
    cases u with
    | none => exact h.fails_right hv hfa
    | some b =>
      subst hv
      have hm := h w
      simp only at hm hfa ⊢
      rw [StateT.run_bind, hm]
      exact hfa

theorem map (h : Reads m v) (g : α → β) : Reads (g <$> m) (v.map g) := by
  intro w
  have hm := h w
  cases v with
  | none =>
    obtain ⟨e, he⟩ := hm
    exact ⟨e, by rw [← bind_pure_comp]; exact he.bind_left⟩
  | some a =>
    simp only at hm
    simp only [Option.map_some, StateT.run_map, hm]
    rfl

end Reads

section

variable (script : Script) (sec key : Bytes)

theorem reads_entry {α : Type} {read : Option ScriptEntry → Fixup α}
    {v : Option ScriptEntry → Option α} (hv : v none = none) (h : ∀ e, Reads (read e) (v e)) :
    Reads (scriptFindEntry (scriptFindSection script sec) key >>= read)
      (v (script.entry sec key)) := by
  unfold Script.entry
  cases scriptFindSection script sec with
  | none =>
    rw [Option.bind_none, hv]
    exact fun w => ⟨.nullDeref, rfl⟩
  | some s => exact h (findEntryLoop key s.entries)

theorem reads_single : Reads (scriptFindEntry (scriptFindSection script sec) key >>= entryValue)
    (script.single sec key) := by
  refine reads_entry script sec key (v := fun
    | some ⟨_, .single v⟩ => some v
    | _ => none) rfl fun e w => ?_
  match e with
  | none => exact ⟨.nullDeref, rfl⟩
  | some ⟨_, .single v⟩ => rfl
  | some ⟨_, .string s⟩ => exact ⟨.wrongType, rfl⟩
  | some ⟨_, .gpio port portNum data⟩ => exact ⟨.wrongType, rfl⟩
  | some ⟨_, .null⟩ => exact ⟨.wrongType, rfl⟩

theorem reads_string : Reads (scriptFindEntry (scriptFindSection script sec) key >>= entryString)
    (script.string sec key) := by
  refine reads_entry script sec key (v := fun
    | some ⟨_, .string s⟩ => some s
    | _ => none) rfl fun e w => ?_
  match e with
  | none => exact ⟨.nullDeref, rfl⟩
  | some ⟨_, .single v⟩ => exact ⟨.wrongType, rfl⟩
  | some ⟨_, .string s⟩ => rfl
  | some ⟨_, .gpio port portNum data⟩ => exact ⟨.wrongType, rfl⟩
  | some ⟨_, .null⟩ => exact ⟨.wrongType, rfl⟩

theorem reads_gpio : Reads (uartGpio (scriptFindSection script sec) key)
    ((script.pin sec key).map Script.Pin.gpio) := by
  refine reads_entry script sec key (v := fun e => (match e with
    | some ⟨_, .gpio port portNum data⟩ => some ⟨port, portNum, data⟩
    | _ => none : Option Script.Pin).map Script.Pin.gpio) rfl fun e w => ?_
  match e with
  | none => exact ⟨.nullDeref, rfl⟩
  | some ⟨_, .single v⟩ => exact ⟨.wrongType, rfl⟩
  | some ⟨_, .string s⟩ => exact ⟨.wrongType, rfl⟩
  | some ⟨_, .gpio port portNum data⟩ => rfl
  | some ⟨_, .null⟩ => exact ⟨.wrongType, rfl⟩

end

section

variable {script : Script} {sec : Bytes}

theorem isSome_pins (keys : List Bytes) :
    (script.pins sec keys).isSome ↔ ∀ key ∈ keys, (script.pin sec key).isSome := by
  unfold Script.pins
  induction keys with
  | nil => simp
  | cons key keys ih =>
    rw [List.mapM_cons, List.forall_mem_cons, ← ih]
    cases script.pin sec key with
    | none => simp
    | some p => cases keys.mapM (script.pin sec) <;> simp

theorem pins_append (keys keys' : List Bytes) : script.pins sec (keys ++ keys') =
    (script.pins sec keys).bind fun ps => (script.pins sec keys').map (ps ++ ·) := by
  unfold Script.pins
  rw [List.mapM_append]
  cases keys.mapM (script.pin sec) with
  | none => rfl
  | some ps => cases keys'.mapM (script.pin sec) <;> rfl

def gpiosOf (script : Script) (sec : Bytes) (keys : List Bytes) (above : List Gpio) :
    Option (List Gpio) :=
  (script.pins sec keys).map fun ps => ps.map Script.Pin.gpio ++ above

theorem gpiosOf_concat (keys : List Bytes) (key : Bytes) (above : List Gpio) :
    gpiosOf script sec (keys ++ [key]) above =
      ((script.pin sec key).map Script.Pin.gpio).bind fun g => gpiosOf script sec keys (g :: above) := by
  have hone : script.pins sec [key] = (script.pin sec key).map fun p => [p] := by
    unfold Script.pins
    cases h : script.pin sec key <;> simp [h]
  unfold gpiosOf
  rw [pins_append, hone]
  cases script.pin sec key with
  | none => cases script.pins sec keys <;> rfl
  | some p => cases script.pins sec keys <;> simp

theorem reads_slot (keys : List Bytes) (key : Bytes) {above : List Gpio}
    {f : Gpio → Fixup (List Gpio)} (h : ∀ g, Reads (f g) (gpiosOf script sec keys (g :: above))) :
    Reads (uartGpio (scriptFindSection script sec) key >>= f)
      (gpiosOf script sec (keys ++ [key]) above) := by
  rw [gpiosOf_concat]
  refine (reads_gpio script sec key).bind (fun g hg => ?_) fun hnone => by rw [hnone, Option.bind_none]
  rw [hg, Option.bind_some]
  exact h g

theorem reads_case2 (above : List Gpio) : Reads (uartCase2 (scriptFindSection script sec) above)
    (gpiosOf script sec [strTx, strRx] above) :=
  reads_slot [strTx] strRx fun _ => reads_slot [] strTx fun _ _ => rfl

theorem reads_case4 (above : List Gpio) : Reads (uartCase4 (scriptFindSection script sec) above)
    (gpiosOf script sec [strTx, strRx, strRts, strCts] above) :=
  reads_slot [strTx, strRx, strRts] strCts fun _ =>
    reads_slot [strTx, strRx] strRts fun _ => reads_case2 _

theorem reads_case8 : Reads (uartCase8 (scriptFindSection script sec))
    (gpiosOf script sec [strTx, strRx, strRts, strCts, strRing, strDcd, strDsr, strDtr] []) :=
  reads_slot [strTx, strRx, strRts, strCts, strRing, strDcd, strDsr] strDtr fun _ =>
    reads_slot [strTx, strRx, strRts, strCts, strRing, strDcd] strDsr fun _ =>
      reads_slot [strTx, strRx, strRts, strCts, strRing] strDcd fun _ =>
        reads_slot [strTx, strRx, strRts, strCts] strRing fun _ => reads_case4 _

/-- The pins that the `switch` gathers; no keys is its `default` case. -/
theorem reads_uartGpios (type : UInt32) : Reads (uartGpios (scriptFindSection script sec) type)
    (if uartKeys type = [] then some none else (gpiosOf script sec (uartKeys type) []).map some) := by
  unfold uartGpios uartKeys
  split
  · rw [if_neg (List.cons_ne_nil _ _)]
    exact reads_case8.map some
  · split
    · rw [if_neg (List.cons_ne_nil _ _)]
      exact (reads_case4 []).map some
    · split
      · rw [if_neg (List.cons_ne_nil _ _)]
        exact (reads_case2 []).map some
      · rw [if_pos rfl]
        exact fun _ => rfl

theorem reads_uartGpios_of_pins {type : UInt32} {pins : List Script.Pin}
    (h : script.pins sec (uartKeys type) = some pins) :
    Reads (uartGpios (scriptFindSection script sec) type)
      (some (if uartKeys type = [] then none else some (pins.map Script.Pin.gpio))) := by
  have hread := @reads_uartGpios script sec type
  split at hread
  · rwa [if_pos ‹_›]
  · rw [if_neg ‹_›]
    simpa only [gpiosOf, h, Option.map_some, List.append_nil] using hread

end

end Babelfish
