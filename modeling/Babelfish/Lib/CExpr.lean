import Mathlib.Data.Option.Basic

/-! C expressions without parentheses: how their tokens are read by precedence, what they evaluate to, and
what a `!` in front of them negates. -/

namespace Babelfish.CExpr

inductive BinOp
  | eq | gt | le | and | or
  deriving DecidableEq

inductive Token (α : Type)
  | operand (a : α)
  | num (n : Int)
  | bang
  | star
  | op (o : BinOp)
  deriving DecidableEq

inductive Expr (α : Type)
  | operand (a : α)
  | num (n : Int)
  | not (e : Expr α)
  | deref (e : Expr α)
  | bin (o : BinOp) (l r : Expr α)
  deriving DecidableEq

variable {α : Type}

/-- The tokens up to the first of some operators, and each of these with the tokens up to the next. -/
def split (ops : List BinOp) : List (Token α) → List (Token α) × List (BinOp × List (Token α))
  | [] => ([], [])
  | t :: ts =>
    let (chunk, chunks) := split ops ts
    match t with
    | .op o => if o ∈ ops then ([], (o, chunk) :: chunks) else (.op o :: chunk, chunks)
    | t => (t :: chunk, chunks)

def readNext (sub : List (Token α) → Option (Expr α)) (e : Expr α) (c : BinOp × List (Token α)) :
    Option (Expr α) :=
  (sub c.2).map (.bin c.1 e)

def readChain (ops : List BinOp) (sub : List (Token α) → Option (Expr α)) (ts : List (Token α)) :
    Option (Expr α) := do
  let e ← sub (split ops ts).1
  (split ops ts).2.foldlM (readNext sub) e

def readUnary : List (Token α) → Option (Expr α)
  | [.operand a] => some (.operand a)
  | [.num n] => some (.num n)
  | .bang :: ts => (readUnary ts).map .not
  | .star :: ts => (readUnary ts).map .deref
  | _ => none

/-- From the operator that binds least to those that bind most. -/
def read : List (Token α) → Option (Expr α) :=
  readChain [.or] (readChain [.and] (readChain [.eq] (readChain [.gt, .le] readUnary)))

def truth (b : Bool) : Int := if b then 1 else 0

def Expr.eval (env : α → Int) (mem : Int → Int) : Expr α → Int
  | .operand a => env a
  | .num n => n
  | .not e => truth (e.eval env mem == 0)
  | .deref e => mem (e.eval env mem)
  | .bin .eq l r => truth (l.eval env mem == r.eval env mem)
  | .bin .gt l r => truth (l.eval env mem > r.eval env mem)
  | .bin .le l r => truth (l.eval env mem ≤ r.eval env mem)
  | .bin .and l r => truth (l.eval env mem != 0 && r.eval env mem != 0)
  | .bin .or l r => truth (l.eval env mem != 0 || r.eval env mem != 0)

theorem truth_eq {b : Bool} {n : Int} : truth b = n ↔ b ∧ n = 1 ∨ ¬b ∧ n = 0 := by
  cases b <;> simp [truth, eq_comm]

@[simp] theorem truth_pos {b : Bool} : truth b > 0 ↔ b := by
  cases b <;> simp [truth]

def Expr.negateFirst : Expr α → Expr α
  | .bin o l r => .bin o l.negateFirst r
  | e => .not e

def Negates (sub : List (Token α) → Option (Expr α)) : Prop :=
  ∀ ts, sub (.bang :: ts) = (sub ts).map Expr.negateFirst

theorem readUnary_not_bin {ts : List (Token α)} {o : BinOp} {l r : Expr α} :
    readUnary ts ≠ some (.bin o l r) := by
  intro h
  unfold readUnary at h
  split at h
  · cases h
  · cases h
  · obtain ⟨e, -, he⟩ := Option.map_eq_some_iff.mp h
    cases he
  · obtain ⟨e, -, he⟩ := Option.map_eq_some_iff.mp h
    cases he
  · cases h

theorem negates_readUnary : Negates (readUnary (α := α)) := by
  intro ts
  rw [readUnary]
  refine Option.map_congr fun e he => ?_
  cases e with
  | bin o l r => exact absurd he readUnary_not_bin
  | _ => rfl

theorem foldlM_negateFirst (sub : List (Token α) → Option (Expr α))
    (cs : List (BinOp × List (Token α))) (e : Expr α) :
    cs.foldlM (readNext sub) e.negateFirst =
      (cs.foldlM (readNext sub) e).map Expr.negateFirst := by
  induction cs generalizing e with
  | nil => rfl
  | cons c cs ih =>
    rw [List.foldlM_cons, List.foldlM_cons, readNext, readNext]
    cases sub c.2 with
    | none => rfl
    | some r => exact ih (.bin c.1 e r)

theorem Negates.readChain {sub : List (Token α) → Option (Expr α)} (h : Negates sub)
    (ops : List BinOp) : Negates (readChain ops sub) := by
  intro ts
  have hsplit : split ops (.bang :: ts) = (.bang :: (split ops ts).1, (split ops ts).2) := rfl
  unfold CExpr.readChain
  rw [hsplit]
  simp only
  rw [h]
  cases sub (split ops ts).1 with
  | none => rfl
  | some e => exact foldlM_negateFirst sub _ e

theorem negates_read : Negates (read (α := α)) :=
  (((negates_readUnary.readChain _).readChain _).readChain _).readChain _

end Babelfish.CExpr
