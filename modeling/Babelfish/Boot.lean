import Babelfish.Atags
import Babelfish.Libfdt.Opening
import Babelfish.Libfex.Packed
import Babelfish.Main
import Babelfish.Reported

/-! A whole boot: the device tree of the SoC is opened at its place in the memory and has the room that the
fixups need. -/

namespace Babelfish

open Libfdt Strings Bytes

def fdtBaseAddress : Addr := 0x45000000

/-- `2 * fdt_totalsize(abs_fdt)`, as the `int` that `fdt_open_into` takes. -/
def openSize (m : Memory) (fdt : Addr) : Int := (2 * fdtGetHeader m fdt .totalsize).toInt32.toInt

variable {m m' : Memory} {fdt : Addr} {bl : Blocks} {T : DeviceTree}

/-- The kernel is started just if the updates succeed whose results are checked. -/
theorem runs_mainFixups {b : Board} {fdt : Fdt} (soc : Soc) {heapBase : UInt32} {script : Script}
    (hscript : readScript b (heapAfterTags b heapBase ⟨fdt, []⟩) = pure (some script))
    (hok : ScriptOk script) : Runs (mainFixups b soc heapBase) ⟨fdt, []⟩ fun started w =>
      started = true ↔ ∀ c ∈ w.calls, c.Checked → c.Succeeds := by
  unfold mainFixups fdtFixupFromAtags
  refine Runs.bind (Runs.get ?_)
  refine Runs.bind (Runs.bind ((Unchecked.tagLoop _ b.tags ⟨fdt, []⟩).mono ?_))
  rintro - w₁ ⟨cs, hcs, hno⟩
  refine Runs.pure ?_
  rw [if_neg (not_not.mpr rfl), hscript]
  refine Runs.bind (Runs.pure (Runs.bind ((Reports.fromFex hok _ w₁).mono ?_)))
  rintro r w₂ ⟨cs', hcs', -, hr⟩
  have hall : (∀ c ∈ w₂.calls, c.Checked → c.Succeeds) ↔ ∀ c ∈ cs', c.Checked → c.Succeeds := by
    rw [hcs', hcs, List.nil_append]
    simp only [List.mem_append, or_imp, forall_and]
    exact and_iff_right fun c hc hch => absurd hch (hno c hc)
  rw [← hall] at hr
  split
  · rename_i hne
    exact Runs.pure (iff_of_false (by simp) (hne ∘ hr.mpr))
  · rename_i heq
    exact Runs.pure (iff_of_true rfl (hr.mp (not_not.mp heq)))

def bareBlob : Bytes :=
  [0xd00dfeed, 72, 56, 72, 40, 17, 16, 0, 0, 16].flatMap be32 ++ List.replicate 16 0 ++
    (bareTree.blob 0).dtStruct

def nameField (name : Bytes) : Bytes := name ++ List.replicate (32 - name.length) 0

theorem length_nameField : ∀ i : Fin sunxiMaxUarts, (nameField (uartPara i)).length = 32 := by decide

def quietImage : Libfex.Packed where
  version := List.replicate 12 0
  version_length := rfl
  sections :=
    ⟨nameField strProduct, by decide, [⟨nameField strMachine, by decide,
      .string (Bytes.ofString "board" ++ [0, 0, 0]) (by decide) (by decide)⟩], List.cons_ne_nil _ _⟩ ::
    ⟨nameField strUartPara, by decide, [⟨nameField strUartDebugPort, by decide, .word 0⟩],
      List.cons_ne_nil _ _⟩ ::
    (List.finRange sunxiMaxUarts).map fun i : Fin sunxiMaxUarts =>
      ⟨nameField (uartPara i), length_nameField i, [⟨nameField strUartUsed, by decide, .word 0⟩],
        List.cons_ne_nil _ _⟩

theorem length_quietImage : quietImage.bytes.length = 860 := by
  rw [Libfex.Packed.length_bytes]
  decide

def bareBoard : Board where
  registers := ⟨0, fun _ => 0x16230000, 0⟩
  cpt := 1
  fdt := 1
  heapBase := 4096
  mem := fun a => Memory.ofBytes quietImage.bytes (a - scriptBaseAddress)
  strings := fun _ => []
  tags := [0]
  openInto := fun _ =>
    match fdtOpenInto (Memory.ofBytes bareBlob) 0 fdtBaseAddress (openSize (Memory.ofBytes bareBlob) 0) with
    | some (ret, m') => (ret, fdtView m' fdtBaseAddress)
    | none => (errInternal, bareTree.blob 0)

theorem bareBoard_holds : Memory.Holds bareBoard.mem scriptBaseAddress quietImage.bytes := by
  have hfits : quietImage.bytes.length ≤ 2 ^ 32 := by
    rw [length_quietImage]
    decide
  refine (Memory.read_congr fun i _ => ?_).trans (Memory.holds_ofBytes hfits)
  refine congrArg (Memory.ofBytes quietImage.bytes) ?_
  rw [UInt32.add_comm, UInt32.add_sub_cancel, UInt32.zero_add]

theorem bareBoard_script (w : World) :
    readScript bareBoard (heapAfterTags bareBoard 4104 w) = pure (some quietImage.script) := by
  have hbase : heapAfterTags bareBoard 4104 w = 4104 := rfl
  have hall := Libfex.allocates_decompileBin bareBoard.mem scriptBaseAddress ⟨[]⟩
  rw [Libfex.Packed.decoded bareBoard_holds (by rw [length_quietImage]; decide)] at hall
  have hrun := hall.granted 4112 (by decide)
  have hmalloc : Heap.malloc 4104 sizeofScript = (4104, 4112) := by decide
  rw [readScript, hbase, hmalloc]
  simp only [hrun]
  rfl

end Babelfish
