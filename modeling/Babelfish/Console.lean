import Babelfish.Bootargs
import Babelfish.Makes
import Babelfish.Spelling

/-! How the number of the console is spelled in `bootargs`. -/

namespace Babelfish

open Libfdt Bytes

def consoleLine (n : Nat) : Bytes := strConsole ++ decimal n ++ strBaud

def argsWith (fdt : Fdt) (offset : Int) (s : Bytes) : Bytes :=
  joinArgs (oldArgs fdt offset ++ [s]) ++ [0]

def Call.AppendsArgs (c : Call) (s : Bytes) : Prop :=
  c.target = .path strChosenPath ∧ c.op = .setprop strBootargs (argsWith c.fdt c.offset s) ∧ c.Succeeds

/-- `bootargs` can take a line: there is room for it in `/chosen`, which is there or can be made. -/
def BootargsFit (fdt : Fdt) (s : Bytes) : Prop :=
  let chosen := fdtPathOffset fdt strChosenPath
  if chosen < 0 then
    let (offset, fdt') := fdtAddSubnode fdt 0 strChosen
    SubnodeFits fdt 0 strChosen ∧ SetFits fdt' offset strBootargs (argsWith fdt' offset s)
  else SetFits fdt chosen strBootargs (argsWith fdt chosen s)

theorem argsWith_inj {fdt : Fdt} {offset : Int} {s s' : Bytes}
    (h : argsWith fdt offset s = argsWith fdt offset s') : s = s' := by
  have hjoin := List.append_cancel_right h
  by_cases hold : oldArgs fdt offset = []
  · simpa [hold, joinArgs] using hjoin
  · rw [joinArgs_concat hold, joinArgs_concat hold] at hjoin
    exact List.append_cancel_left (List.append_cancel_left hjoin)

theorem newBootargs_argsWith (fdt : Fdt) (offset : Int) {s : Bytes} (hs : 0 ∉ s) :
    cstr (newBootargs (fdtGetprop fdt offset strBootargs).2
      (((fdtGetprop fdt offset strBootargs).1.map (cstrAt fdt)).getD []) s) ++ [0] =
      argsWith fdt offset s :=
  congrArg (· ++ [0]) (cstr_newBootargs_oldArgs fdt offset hs)

theorem runs_setArgs {s : Bytes} (hs : 0 ∉ s) {w w₁ : World} {offset : Int} {cs : List Call}
    (hcs : w₁.calls = w.calls ++ cs) (hno : ∀ c ∈ cs, ∀ val, c.op ≠ .setprop strBootargs val) :
    Runs (call (.path strChosenPath) (.getprop strBootargs) offset >>= fun len =>
      (MonadState.get : Fixup World) >>= fun w =>
      setpropString (.path strChosenPath) offset strBootargs (cstr (newBootargs len
        (((fdtGetprop w.fdt offset strBootargs).1.map (cstrAt w.fdt)).getD []) s)) >>= fun ret =>
      if ret < 0 then pure ret else pure 0) w₁ fun _ w' => ∃ cs, w'.calls = w.calls ++ cs ∧
        (∀ c ∈ cs, ∀ val, c.op = .setprop strBootargs val → val = argsWith c.fdt c.offset s) ∧
        ((∃ c ∈ cs, c.AppendsArgs s) ↔ SetFits w₁.fdt offset strBootargs (argsWith w₁.fdt offset s)) := by
  refine Runs.bind (runs_call (Runs.bind (Runs.get (Runs.bind (runs_call ?_)))))
  simp only [World.call_fdt, Op.run, newBootargs_argsWith w₁.fdt offset hs]
  -- both results end the run with the same record
  suffices h : ∃ cs', (w₁.call (.path strChosenPath) (.getprop strBootargs) offset).calls ++
      [⟨.path strChosenPath, .setprop strBootargs (argsWith w₁.fdt offset s), w₁.fdt, offset⟩] =
        w.calls ++ cs' ∧
      (∀ c ∈ cs', ∀ val, c.op = .setprop strBootargs val → val = argsWith c.fdt c.offset s) ∧
      ((∃ c ∈ cs', c.AppendsArgs s) ↔
        SetFits w₁.fdt offset strBootargs (argsWith w₁.fdt offset s)) by
    split
    · exact Runs.pure h
    · exact Runs.pure h
  -- only the last call sets the property
  have hset : ∀ c ∈ cs ++ [⟨.path strChosenPath, .getprop strBootargs, w₁.fdt, offset⟩] ++
      [⟨.path strChosenPath, .setprop strBootargs (argsWith w₁.fdt offset s), w₁.fdt, offset⟩],
      ∀ val, c.op = .setprop strBootargs val →
        c = ⟨.path strChosenPath, .setprop strBootargs (argsWith w₁.fdt offset s), w₁.fdt, offset⟩ := by
    intro c hc val hop
    rcases List.mem_append.mp hc with hc | hc
    · rcases List.mem_append.mp hc with hc | hc
      · exact absurd hop (hno c hc val)
      · rw [List.mem_singleton.mp hc] at hop
        cases hop
    · exact List.mem_singleton.mp hc
  refine ⟨cs ++ [⟨.path strChosenPath, .getprop strBootargs, w₁.fdt, offset⟩] ++
    [⟨.path strChosenPath, .setprop strBootargs (argsWith w₁.fdt offset s), w₁.fdt, offset⟩],
    by rw [World.call_calls, hcs, List.append_assoc, List.append_assoc, List.append_assoc], ?_, ?_⟩
  · intro c hc val hop
    obtain rfl := hset c hc val hop
    cases hop
    rfl
  · have hsucc := @Call.setprop_succeeds
      ⟨.path strChosenPath, .setprop strBootargs (argsWith w₁.fdt offset s), w₁.fdt, offset⟩ _ _ rfl
    have hfits := (fdtSetprop_ok w₁.fdt offset strBootargs (argsWith w₁.fdt offset s)).2
    constructor
    · rintro ⟨c, hc, -, hop, hc'⟩
      obtain rfl := hset c hc _ hop
      exact hfits.mp (hsucc.2.mp hc')
    · intro hfit
      exact ⟨_, List.mem_concat_self, rfl, rfl, hsucc.2.mpr (hfits.mpr hfit)⟩

theorem runs_appendBootargs_calls {s : Bytes} (hs : 0 ∉ s) (w : World) :
    Runs (fdtFixupAppendBootargs s) w fun _ w' => ∃ cs, w'.calls = w.calls ++ cs ∧
      (∀ c ∈ cs, ∀ val, c.op = .setprop strBootargs val → val = argsWith c.fdt c.offset s) ∧
      ((∃ c ∈ cs, c.AppendsArgs s) ↔ BootargsFit w.fdt s) := by
  unfold BootargsFit
  refine Runs.bind (runs_call ?_)
  by_cases hchosen : fdtPathOffset w.fdt strChosenPath < 0
  · simp only [Op.run, if_pos hchosen]
    refine Runs.bind (runs_call ?_)
    have hcalls : ((w.call .root (.pathOffset strChosenPath) 0).call .root
        (.addSubnode strChosen) 0).calls = w.calls ++ ([⟨.root, .pathOffset strChosenPath, w.fdt, 0⟩] ++
          [⟨.root, .addSubnode strChosen, w.fdt, 0⟩]) := List.append_assoc _ _ _
    by_cases hadd : (fdtAddSubnode w.fdt 0 strChosen).1 < 0
    · have hfits : ¬SubnodeFits w.fdt 0 strChosen := fun h => by
        have := fdtAddSubnode_nonneg.mpr h
        omega
      change Runs (if (fdtAddSubnode w.fdt 0 strChosen).1 < 0 then _ else _) _ _
      rw [if_pos hadd]
      refine Runs.pure ⟨_, hcalls, ?_, ?_⟩
      · simp
      · simp [Call.AppendsArgs, hfits]
    · have hfits : SubnodeFits w.fdt 0 strChosen :=
        fdtAddSubnode_nonneg.mp (Int.not_lt.mp hadd)
      change Runs (if (fdtAddSubnode w.fdt 0 strChosen).1 < 0 then _ else _) _ _
      rw [if_neg hadd]
      refine (runs_setArgs hs hcalls (by simp)).mono ?_
      rintro _ w' ⟨cs, hcs, hvals, happ⟩
      exact ⟨cs, hcs, hvals, happ.trans (and_iff_right hfits).symm⟩
  · simp only [Op.run, if_neg hchosen]
    refine Runs.bind (Runs.pure ?_)
    simp only [if_neg hchosen]
    have hcalls : (w.call .root (.pathOffset strChosenPath) 0).calls =
      w.calls ++ [⟨.root, .pathOffset strChosenPath, w.fdt, 0⟩] := rfl
    exact runs_setArgs hs hcalls (by simp)

/-- The number of the console is spelled right in every run: a run that ends reports an error or puts the
line with the numeral at the end of the arguments, and a run faults only where a UART is not described. -/
def ConsoleSpelled (fdt : Fdt) (port : UInt32) : Prop :=
  ∀ (script : Script) (calls : List Call), script.single strUartPara strUartDebugPort = some port →
    match (fdtFixupUarts script).run ⟨fdt, calls⟩ with
    | .ok (r, w') => r ≠ 0 ∨ ∃ cs, w'.calls = calls ++ cs ∧
        ∃ c ∈ cs, c.AppendsArgs (consoleLine port.toNat)
    | .error _ => ¬∀ i < sunxiMaxUarts, UartOk script i

def writtenLine (port : UInt32) : Bytes := catChar strConsole (48 + port).toUInt8 ++ strBaud

theorem zero_not_mem_writtenLine (port : UInt32) : 0 ∉ writtenLine port := by
  have hconsole : 0 ∉ strConsole := by decide
  have hbaud : 0 ∉ strBaud := by decide
  unfold writtenLine catChar
  split
  · simp [hconsole, hbaud]
  · rename_i hzero
    rw [List.mem_append, List.mem_append, List.mem_singleton]
    rintro ((hmem | heq) | hmem)
    · exact hconsole hmem
    · exact hzero heq.symm
    · exact hbaud hmem

theorem writtenLine_eq_iff (port : UInt32) :
    writtenLine port = consoleLine port.toNat ↔ port.toNat < 10 := by
  rw [writtenLine, consoleLine, List.append_cancel_right_eq]
  constructor
  · intro heq
    have hlen := congrArg List.length heq
    have hle : (decimal port.toNat).length ≤ 1 := by
      unfold catChar at hlen
      split at hlen <;> simp only [List.length_append, List.length_singleton] at hlen <;> omega
    exact (length_decimal_le Nat.one_pos).mp hle
  · intro hlt
    have hdigit : (48 + port).toUInt8 = digit port.toNat := by
      rw [← UInt8.toNat_inj, UInt32.toNat_toUInt8, UInt32.toNat_add, toNat_digit hlt]
      simp only [UInt32.reduceToNat]
      omega
    have hzero : digit port.toNat ≠ 0 := fun h0 => by
      have hnat := congrArg UInt8.toNat h0
      rw [toNat_digit hlt] at hnat
      simp at hnat
    rw [hdigit, catChar, if_neg hzero, decimal_of_lt hlt]

theorem run_fixupUarts {script : Script} {port : UInt32}
    (h : script.single strUartPara strUartDebugPort = some port) (w : World) :
    ∃ w₁ cs, (fdtFixupUarts script).run w = (uartLoop script (List.range sunxiMaxUarts)).run w₁ ∧
      w₁.calls = w.calls ++ cs ∧
      (∀ c ∈ cs, ∀ val, c.op = .setprop strBootargs val →
        val = argsWith c.fdt c.offset (writtenLine port)) ∧
      ((∃ c ∈ cs, c.AppendsArgs (writtenLine port)) ↔ BootargsFit w.fdt (writtenLine port)) := by
  obtain ⟨r, w₁, hrun, cs, hcs, hvals, happ⟩ :=
    runs_appendBootargs_calls (zero_not_mem_writtenLine port) w
  have hread := reads_single script strUartPara strUartDebugPort
  rw [h] at hread
  refine ⟨w₁, cs, ?_, hcs, hvals, happ⟩
  unfold fdtFixupUarts
  rw [← bind_assoc, StateT.run_bind, hread w]
  change ((fdtFixupAppendBootargs (writtenLine port) >>= fun _ =>
    uartLoop script (List.range sunxiMaxUarts)).run w) = _
  rw [StateT.run_bind, hrun]
  rfl

def quietWith (port : UInt32) : Script where
  sections := ⟨strUartPara, [⟨strUartDebugPort, .single port⟩]⟩ ::
    (List.range sunxiMaxUarts).map fun i => ⟨uartPara i, [⟨strUartUsed, .single 0⟩]⟩

theorem quietWith_port (port : UInt32) :
    (quietWith port).single strUartPara strUartDebugPort = some port := rfl

theorem quietWith_used (port : UInt32) : ∀ i ∈ List.range sunxiMaxUarts,
    (quietWith port).single (uartPara i) strUartUsed = some 0 := by
  have hall : (List.range sunxiMaxUarts).map (fun i =>
      (quietWith port).single (uartPara i) strUartUsed) = List.replicate 8 (some 0) := rfl
  intro i hi
  have hmem := hall ▸ List.mem_map_of_mem (f := fun i =>
    (quietWith port).single (uartPara i) strUartUsed) hi
  exact List.eq_of_mem_replicate hmem

theorem run_quiet {script : Script} (is : List Nat)
    (h : ∀ i ∈ is, script.single (uartPara i) strUartUsed = some 0) (w : World) :
    (uartLoop script is).run w = .ok (0, w) := by
  induction is with
  | nil => rfl
  | cons i is ih =>
    have hread := reads_single script (uartPara i) strUartUsed
    rw [h i List.mem_cons_self] at hread
    have hround : (fixupUart script i).run w = .ok (0, w) := by
      rw [fixupUart_eq, StateT.run_bind, hread w]
      rfl
    rw [uartLoop, StateT.run_bind, hround]
    exact ih fun j hj => h j (List.mem_cons_of_mem _ hj)

theorem consoleSpelled_iff (fdt : Fdt) (port : UInt32) : ConsoleSpelled fdt port ↔
    port.toNat < 10 ∧ BootargsFit fdt (consoleLine port.toNat) := by
  constructor
  · intro h
    obtain ⟨w₁, cs, hrun, hcs, hvals, happ⟩ := run_fixupUarts (quietWith_port port) ⟨fdt, []⟩
    have hquiet := h (quietWith port) [] (quietWith_port port)
    rw [hrun, run_quiet _ (quietWith_used port)] at hquiet
    obtain ⟨cs', hcs', c, hc, happends⟩ := hquiet.resolve_left fun h0 => h0 rfl
    obtain rfl : cs = cs' := List.append_cancel_left (hcs ▸ hcs')
    have hline := argsWith_inj (hvals c hc _ happends.2.1)
    exact ⟨(writtenLine_eq_iff port).mp hline.symm, hline ▸ happ.mp ⟨c, hc, hline ▸ happends⟩⟩
  · rintro ⟨hlt, hfit⟩ script calls hport
    have hline := (writtenLine_eq_iff port).mpr hlt
    obtain ⟨w₁, cs, hrun, hcs, -, happ⟩ := run_fixupUarts hport ⟨fdt, calls⟩
    rw [hrun]
    cases hloop : (uartLoop script (List.range sunxiMaxUarts)).run w₁ with
    | error e =>
      intro hok
      exact (Reports.uartLoop _ (fun i hi => hok i (List.mem_range.mp hi)) w₁).not_fails e hloop
    | ok p =>
      obtain ⟨more, hmore, -⟩ := Makes.uartLoop _ _ w₁ p.2 p.1 hloop
      obtain ⟨c, hc, happends⟩ := happ.mpr (hline ▸ hfit)
      exact Or.inr ⟨cs ++ more, by rw [hmore, hcs, List.append_assoc], c,
        List.mem_append_left _ hc, hline ▸ happends⟩

/-- Numbers are spelled as the device tree spells them just if the pins have two digits, so that they are
told apart, and the console has one and there is room for its line. -/
theorem numbers_spelled_iff {port port' : UInt32} (h : IsBank port) (h' : IsBank port')
    (portNum portNum' : UInt32) (fdt : Fdt) (debugPort : UInt32) :
    (PinSpelled port portNum ∧ PinSpelled port' portNum' ∧
        ((port, portNum) ≠ (port', portNum') → pinName port portNum ≠ pinName port' portNum') ↔
      (10 ≤ portNum.toNat ∧ portNum.toNat < 100) ∧ 10 ≤ portNum'.toNat ∧ portNum'.toNat < 100) ∧
    (ConsoleSpelled fdt debugPort ↔
      debugPort.toNat < 10 ∧ BootargsFit fdt (consoleLine debugPort.toNat)) := by
  refine ⟨?_, consoleSpelled_iff fdt debugPort⟩
  rw [pinSpelled_iff, pinSpelled_iff, ← pinName_eq_spelling_iff h, ← pinName_eq_spelling_iff h']
  refine ⟨fun ⟨hs, hs', _⟩ => ⟨hs, hs'⟩, fun ⟨hs, hs'⟩ => ⟨hs, hs', fun hne heq => hne ?_⟩⟩
  obtain ⟨rfl, rfl⟩ := pinSpelling_inj h h' (hs ▸ hs' ▸ heq)
  rfl

def chosenTree : DeviceTree :=
  .node 0 ⟨[], []⟩ (.node 1 ⟨strChosen, []⟩ .nil .nil) .nil

theorem chosenTree_fits : BootargsFit (chosenTree.blob 64) (consoleLine 0) ∧
    BootargsFit (chosenTree.blob 64) (consoleLine 10) := by
  have hchosen : ¬fdtPathOffset (chosenTree.blob 64) strChosenPath < 0 := by decide +kernel
  simp only [BootargsFit, if_neg hchosen]
  exact ⟨(fdtSetprop_ok _ _ _ _).2.mp (by decide +kernel), (fdtSetprop_ok _ _ _ _).2.mp (by decide +kernel)⟩

theorem numbers_spelled_iff_chosen :
    (PinSpelled 2 22 ∧ PinSpelled 6 10 ∧
        (((2 : UInt32), (22 : UInt32)) ≠ (6, 10) → pinName 2 22 ≠ pinName 6 10) ↔
      (10 ≤ (22 : UInt32).toNat ∧ (22 : UInt32).toNat < 100) ∧
        10 ≤ (10 : UInt32).toNat ∧ (10 : UInt32).toNat < 100) ∧
    ConsoleSpelled (chosenTree.blob 64) 0 := by
  obtain ⟨hpins, hconsole⟩ := numbers_spelled_iff (show IsBank 2 by decide)
    (show IsBank 6 by decide) 22 10 (chosenTree.blob 64) 0
  exact ⟨hpins, hconsole.mpr ⟨by decide, chosenTree_fits.1⟩⟩

/-- A number below ten gets a zero in front, so that it is spelled as 2562 is, and the tenth console is not
spelled right although there is room for its line. -/
theorem pins_misspelled :
    pinName 6 2 = Bytes.ofString "PF02" ∧ pinSpelling 6 2 = Bytes.ofString "PF2" ∧
      pinName 6 2562 = pinName 6 2 ∧ BootargsFit (chosenTree.blob 64) (consoleLine 10) ∧
      ¬ConsoleSpelled (chosenTree.blob 64) 10 := by
  refine ⟨by decide, by decide, by decide, chosenTree_fits.2, fun h => ?_⟩
  exact absurd ((consoleSpelled_iff _ _).mp h).1 (by decide)

end Babelfish
