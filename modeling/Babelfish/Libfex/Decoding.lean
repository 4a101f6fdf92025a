import Babelfish.Libfex.ScriptBin

/-! What the decoder makes of an image: each entry of a supported type becomes an entry of the script, and
the others are passed over. -/

namespace Babelfish.Libfex

open Bytes

/-- The program makes the requests and returns `a`, or fails when one of them is not granted. -/
structure Allocates {α : Type} (m : Alloc α) (sizes : List UInt32) (a : α) : Prop where
  granted : ∀ base, Heap.Granted base sizes → m.run base = some (a, Heap.baseAfter base sizes)
  failed : ∀ base, ¬Heap.Granted base sizes → m.run base = none

namespace Allocates

variable {α β : Type} {m : Alloc α} {f : α → Alloc β} {sizes sizes' : List UInt32} {a : α} {b : β}

theorem pure (a : α) : Allocates (Pure.pure a) [] a := ⟨fun _ _ => rfl, fun _ h => absurd trivial h⟩

theorem alloc (size : Nat) : Allocates (Libfex.alloc size) [UInt32.ofNat size] () := by
  constructor
  · intro base h
    exact if_neg h.1
  · intro base h
    exact if_pos (by_contra fun hne => h ⟨hne, trivial⟩)

theorem bind (hm : Allocates m sizes a) (hf : Allocates (f a) sizes' b) :
    Allocates (m >>= f) (sizes ++ sizes') b := by
  constructor
  · intro base h
    obtain ⟨h₁, h₂⟩ := Heap.granted_append.mp h
    rw [StateT.run_bind, hm.granted base h₁, Heap.baseAfter_append]
    exact hf.granted _ h₂
  · intro base h
    rw [StateT.run_bind]
    by_cases h₁ : Heap.Granted base sizes
    · rw [hm.granted base h₁]
      exact hf.failed _ fun h₂ => h (Heap.granted_append.mpr ⟨h₁, h₂⟩)
    · rw [hm.failed base h₁]
      rfl

end Allocates

def decodedEntry (mem : Image) (bin entry : UInt32) : Option ScriptEntry :=
  (decodedValue mem bin entry).map fun value => ⟨fieldName (entryName mem entry), value⟩

def decodedEntries (mem : Image) (bin entry : UInt32) (n : Nat) : List ScriptEntry :=
  (List.range n).filterMap fun j => decodedEntry mem bin (entry + 40 * UInt32.ofNat j)

def decodedSection (mem : Image) (bin sec : UInt32) : ScriptSection :=
  ⟨fieldName (sectionName mem sec),
    decodedEntries mem bin (ptr bin (sectionOffset mem sec)) (sectionLength mem sec).toNat⟩

def decodedSections (mem : Image) (bin : UInt32) : List ScriptSection :=
  (List.range (sectionCount mem bin)).map fun i => decodedSection mem bin (headSection bin i)

def entryRequests (entries : List ScriptEntry) : List UInt32 :=
  entries.map fun e => UInt32.ofNat (sizeofEntry e.value)

def sectionRequests (sections : List ScriptSection) : List UInt32 :=
  sections.flatMap fun s => UInt32.ofNat sizeofSection :: entryRequests s.entries

section

variable (mem : Image) (bin : UInt32)

theorem allocates_entry (entry : UInt32) (s : ScriptSection) :
    Allocates (decompileEntry mem bin entry s) (entryRequests (decodedEntry mem bin entry).toList)
      { s with entries := s.entries ++ (decodedEntry mem bin entry).toList } := by
  have happ : ∀ value, Allocates (appendEntry s (entryName mem entry) value)
      [UInt32.ofNat (sizeofEntry value)]
      { s with entries := s.entries ++ [⟨fieldName (entryName mem entry), value⟩] } :=
    fun value => (Allocates.alloc _).bind (Allocates.pure _)
  unfold decompileEntry decodedEntry decodedValue
  dsimp only
  split
  · apply happ
  · split
    · rw [storedString_eq]
      apply happ
    · split
      · apply happ
      · split
        · apply happ
        · simpa [entryRequests] using Allocates.pure s

/-! Sections and entries are rows of 40 bytes. -/

theorem row_zero (a : UInt32) : a + 40 * UInt32.ofNat 0 = a := UInt32.add_zero a

theorem row_succ (a : UInt32) (i : Nat) :
    a + 40 * UInt32.ofNat (i + 1) = a + 40 + 40 * UInt32.ofNat i := by
  have hone : (40 : UInt32) * UInt32.ofNat 1 = 40 := by decide
  rw [UInt32.ofNat_add, UInt32.mul_add, UInt32.add_comm (40 * UInt32.ofNat i), ← UInt32.add_assoc, hone]

theorem decodedEntries_succ (entry : UInt32) (n : Nat) : decodedEntries mem bin entry (n + 1) =
    (decodedEntry mem bin entry).toList ++ decodedEntries mem bin (entry + 40) n := by
  unfold decodedEntries
  rw [List.range_succ_eq_map, List.filterMap_cons, List.filterMap_map, row_zero]
  have hrest : (List.range n).filterMap ((fun j => decodedEntry mem bin (entry + 40 * UInt32.ofNat j)) ∘
      Nat.succ) = (List.range n).filterMap fun j =>
        decodedEntry mem bin (entry + 40 + 40 * UInt32.ofNat j) :=
    List.filterMap_congr fun j _ => by rw [Function.comp_apply, Nat.succ_eq_add_one, row_succ]
  rw [hrest]
  cases decodedEntry mem bin entry <;> rfl

theorem allocates_entries (n : Nat) (entry : UInt32) (s : ScriptSection) :
    Allocates (entryLoop mem bin n entry s) (entryRequests (decodedEntries mem bin entry n))
      { s with entries := s.entries ++ decodedEntries mem bin entry n } := by
  induction n generalizing entry s with
  | zero => simpa [entryRequests, decodedEntries, entryLoop] using Allocates.pure s
  | succ n ih =>
    rw [decodedEntries_succ, entryLoop, ← List.append_assoc, entryRequests, List.map_append]
    exact (allocates_entry mem bin entry s).bind (ih (entry + 40) _)

theorem allocates_section (sec : UInt32) (script : Script) :
    Allocates (decompileSection mem bin sec script) (sectionRequests [decodedSection mem bin sec])
      ⟨script.sections ++ [decodedSection mem bin sec]⟩ := by
  have hentries := allocates_entries mem bin (sectionLength mem sec).toNat
    (ptr bin (sectionOffset mem sec)) ⟨fieldName (sectionName mem sec), []⟩
  have hrest := hentries.bind (f := fun s => pure (⟨script.sections ++ [s]⟩ : Script))
    (Allocates.pure _)
  rw [List.append_nil] at hrest
  rw [sectionRequests, List.flatMap_singleton]
  exact (Allocates.alloc sizeofSection).bind hrest

theorem allocates_sections (is : List Nat) (script : Script) :
    Allocates (sectionLoop mem bin is script)
      (sectionRequests (is.map fun i => decodedSection mem bin (headSection bin i)))
      ⟨script.sections ++ is.map fun i => decodedSection mem bin (headSection bin i)⟩ := by
  induction is generalizing script with
  | nil => simpa [sectionRequests, sectionLoop] using Allocates.pure script
  | cons i is ih =>
    have hall := (allocates_section mem bin (headSection bin i) script).bind (ih _)
    rw [List.append_assoc, List.singleton_append, sectionRequests, sectionRequests,
      ← List.flatMap_append] at hall
    exact hall

theorem allocates_decompileBin (script : Script) :
    Allocates (scriptDecompileBin mem bin script) (sectionRequests (decodedSections mem bin))
      ⟨script.sections ++ decodedSections mem bin⟩ :=
  allocates_sections mem bin _ script

end

end Babelfish.Libfex
