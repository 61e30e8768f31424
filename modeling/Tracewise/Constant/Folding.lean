import Tracewise.Constant.Basic
import Tracewise.Identity
import Tracewise.Program.Expr

/-! Folding of constant expressions. Results are remembered by the identity of the expression,
failures included. -/

namespace Tracewise

inductive FoldReason
  | kindMismatch
  | notInteger
deriving DecidableEq

inductive FoldError
  | notConstant (expr : String)
  | unsupported (expr : String) (reason : FoldReason)
deriving DecidableEq

def FoldReason.text : FoldReason → String
  | kindMismatch => "operand kind mismatch"
  | notInteger => "not an integer"

def FoldError.message : FoldError → String
  | notConstant e => Text.cited e ++ " is not a constant expression"
  | unsupported e reason => "Cannot evaluate " ++ Text.cited e ++ " statically: " ++ reason.text

abbrev Folded := Except FoldError Constant

abbrev FoldCache := IdMap Folded

namespace Folded

def ofUnary (e : Expr) (op : UnOp) (x : Constant) : Folded :=
  match Constant.applyUnary? op x with
  | some c => .ok c
  | none => .error (.unsupported e.text .kindMismatch)

def ofBinary (e : Expr) (op : BinOp) (l r : Constant) : Folded :=
  match Constant.applyBinary? op l r with
  | some c => .ok c
  | none => .error (.unsupported e.text .kindMismatch)

def toInt (e : Expr) : Folded → Except FoldError Int
  | .ok (.int n) => .ok n
  | .ok _ => .error (.unsupported e.text .notInteger)
  | .error err => .error err

end Folded

namespace Expr

def remember (e : Expr) (compute : StateM FoldCache Folded) : StateM FoldCache Folded := do
  match (← get).get? e.id.val with
  | some known => return known
  | none =>
    let result ← compute
    modify (·.insert e.id.val result)
    return result

/-- The constant that an expression folds to. The right operand is folded only if the left one
folds. -/
def fold : Expr → StateM FoldCache Folded
  | e@(ident ..) => e.remember (return .error (.notConstant e.text))
  | e@(lit _ t) => e.remember (return .ok (.parse t))
  | e@(unary _ op x) => e.remember do
    match ← x.fold with
    | .ok c => return .ofUnary e op c
    | .error err => return .error err
  | e@(binary _ op l r) => e.remember do
    match ← l.fold with
    | .error err => return .error err
    | .ok a =>
      match ← r.fold with
      | .error err => return .error err
      | .ok b => return .ofBinary e op a b

def foldInt (e : Expr) : StateM FoldCache (Except FoldError Int) := do
  return (← e.fold).toInt e

end Expr

end Tracewise
