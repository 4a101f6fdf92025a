import Babelfish.Lib.CExpr
import Babelfish.Lib.Memory

/-! The assertions of libfex whose argument is more than a name. The macro of `assert.h` tests `!expr`,
with the tokens of its argument behind the `!` as they stand. -/

namespace Babelfish.Libfex

open CExpr

inductive Operand
  | words | port | entryType | name
  deriving DecidableEq

/-- What the operands of the assertions may be: the word count of an entry, a port, the type of an entry,
and a pointer to a name with the memory that it points to. -/
structure Operands where
  words : UInt16
  port : Int32
  entryType : UInt32
  name : UInt32
  mem : Memory

def Operands.value (v : Operands) : Operand → Int
  | .words => v.words.toNat
  | .port => v.port.toInt
  | .entryType => v.entryType.toNat
  | .name => v.name.toNat

def Operands.char (v : Operands) (a : Int) : Int := (v.mem (UInt32.ofNat a.toNat)).toNat

/-- The assertions of `decompile_section`, and those of the functions of `script.c`. -/
inductive AssertSite
  | singleWords
  | gpioWords
  | gpioPort
  | sectionNewName
  | entryDeleteType
  | nullEntryNewName
  | singleEntryNewName
  | gpioEntryNewName
  deriving DecidableEq

namespace AssertSite

/-- `name && *name` -/
def nameTokens : List (Token Operand) := [.operand .name, .op .and, .star, .operand .name]

/-- `entry->type == value` -/
def typeTokens (value : Int) : List (Token Operand) := [.operand .entryType, .op .eq, .num value]

def argument : AssertSite → List (Token Operand)
  | singleWords => [.operand .words, .op .eq, .num 1]
  | gpioWords => [.operand .words, .op .eq, .num 6]
  | gpioPort => [.operand .port, .op .gt, .num 0, .op .and, .operand .port, .op .le, .num 13]
  | entryDeleteType => typeTokens 1 ++ .op .or :: typeTokens 2 ++ .op .or :: typeTokens 4 ++
      .op .or :: typeTokens 5
  | sectionNewName => nameTokens
  | nullEntryNewName => nameTokens
  | singleEntryNewName => nameTokens
  | gpioEntryNewName => nameTokens

def isTrue (v : Operands) (ts : List (Token Operand)) : Prop :=
  ∃ e, read ts = some e ∧ e.eval v.value v.char ≠ 0

instance (v : Operands) (ts : List (Token Operand)) : Decidable (isTrue v ts) :=
  decidable_of_iff ((read ts).any fun e => decide (e.eval v.value v.char ≠ 0)) (by
    simp [isTrue, Option.any_eq_true])

/-- `if (!expr)` of the macro: its message is printed. -/
def Prints (site : AssertSite) (v : Operands) : Prop := isTrue v (.bang :: site.argument)

def Asserted (site : AssertSite) (v : Operands) : Prop := isTrue v site.argument

/-- The operands for which what is tested is what is asserted. -/
def Met (v : Operands) : AssertSite → Prop
  | singleWords => v.words.toNat ≤ 1
  | gpioWords => v.words.toNat = 6
  | gpioPort => 0 ≤ v.port.toInt ∧ v.port.toInt ≤ 13
  | entryDeleteType => v.entryType.toNat ≤ 1
  | sectionNewName => v.mem v.name ≠ 0
  | nullEntryNewName => v.mem v.name ≠ 0
  | singleEntryNewName => v.mem v.name ≠ 0
  | gpioEntryNewName => v.mem v.name ≠ 0

variable {v : Operands} {ts : List (Token Operand)} {e : Expr Operand}

theorem isTrue_iff (h : read ts = some e) : isTrue v ts ↔ e.eval v.value v.char ≠ 0 := by
  simp [isTrue, h]

theorem isTrue_bang (h : read ts = some e) :
    isTrue v (.bang :: ts) ↔ e.negateFirst.eval v.value v.char ≠ 0 :=
  isTrue_iff (by rw [negates_read ts, h, Option.map_some])

theorem words_iff (n : Nat) (hn : 0 < n)
    (h : read ts = some (.bin .eq (.operand .words) (.num n))) :
    (isTrue v (.bang :: ts) ↔ ¬isTrue v ts) ↔
      (n = 1 ∧ v.words.toNat = 0 ∨ v.words.toNat = n) := by
  rw [isTrue_iff h, isTrue_bang h]
  simp [Expr.negateFirst, Expr.eval, Operands.value, truth_eq]
  omega

theorem port_iff (h : read ts = some (.bin .and (.bin .gt (.operand .port) (.num 0))
    (.bin .le (.operand .port) (.num 13)))) :
    (isTrue v (.bang :: ts) ↔ ¬isTrue v ts) ↔ 0 ≤ v.port.toInt ∧ v.port.toInt ≤ 13 := by
  rw [isTrue_iff h, isTrue_bang h]
  by_cases h13 : v.port.toInt ≤ 13
  · simp [Expr.negateFirst, Expr.eval, Operands.value, truth_eq, h13]
    omega
  · simp [Expr.negateFirst, Expr.eval, Operands.value, truth_eq, h13]

theorem name_iff (h : read ts = some (.bin .and (.operand .name) (.deref (.operand .name)))) :
    (isTrue v (.bang :: ts) ↔ ¬isTrue v ts) ↔ v.mem v.name ≠ 0 := by
  have hchar : v.char (v.name.toNat : Int) = (v.mem v.name).toNat := by
    rw [Operands.char, Int.toNat_natCast, UInt32.ofNat_toNat]
  have hzero : (v.mem v.name) = 0 ↔ (v.mem v.name).toNat = 0 := by
    rw [← UInt8.toNat_inj]
    rfl
  rw [isTrue_iff h, isTrue_bang h]
  simp [Expr.negateFirst, Expr.eval, Operands.value, truth_eq, hchar, hzero]
  omega

theorem type_iff (h : read ts = some (.bin .or (.bin .or (.bin .or
    (.bin .eq (.operand .entryType) (.num 1)) (.bin .eq (.operand .entryType) (.num 2)))
    (.bin .eq (.operand .entryType) (.num 4))) (.bin .eq (.operand .entryType) (.num 5)))) :
    (isTrue v (.bang :: ts) ↔ ¬isTrue v ts) ↔ v.entryType.toNat ≤ 1 := by
  rw [isTrue_iff h, isTrue_bang h]
  simp [Expr.negateFirst, Expr.eval, Operands.value, truth_eq]
  omega

end AssertSite

/-- An assertion prints its message just if it is violated, for the operands that its test is right
for. -/
theorem assert_prints_iff (site : AssertSite) (v : Operands) :
    (site.Prints v ↔ ¬site.Asserted v) ↔ site.Met v := by
  unfold AssertSite.Prints AssertSite.Asserted
  cases site with
  | singleWords =>
    rw [AssertSite.words_iff 1 Nat.one_pos rfl, AssertSite.Met]
    omega
  | gpioWords =>
    rw [AssertSite.words_iff 6 (by decide) rfl, AssertSite.Met]
    omega
  | gpioPort => exact AssertSite.port_iff rfl
  | entryDeleteType => exact AssertSite.type_iff rfl
  | sectionNewName => exact AssertSite.name_iff rfl
  | nullEntryNewName => exact AssertSite.name_iff rfl
  | singleEntryNewName => exact AssertSite.name_iff rfl
  | gpioEntryNewName => exact AssertSite.name_iff rfl

def stringOperands : Operands := { words := 2, port := 1, entryType := 2, name := 0, mem := fun _ => 0 }

/-- Two words are not one word and are passed silently, and a string is deleted with a message. -/
theorem stringOperands_prints :
    (¬AssertSite.singleWords.Prints stringOperands ∧ ¬AssertSite.singleWords.Asserted stringOperands) ∧
    AssertSite.entryDeleteType.Prints stringOperands ∧
      AssertSite.entryDeleteType.Asserted stringOperands := by
  unfold AssertSite.Prints AssertSite.Asserted
  decide

end Babelfish.Libfex
