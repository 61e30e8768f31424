import Tracewise.Identity
import Tracewise.Operator.Basic

namespace Tracewise

abbrev TypeHint := String

structure Ident where
  var : VarId
  name : String
deriving DecidableEq

structure ExprInfo where
  id : ExprId
  hint : Option TypeHint
deriving DecidableEq

inductive Expr
  | ident (info : ExprInfo) (v : Ident)
  | lit (info : ExprInfo) (text : String)
  | unary (info : ExprInfo) (op : UnOp) (x : Expr)
  | binary (info : ExprInfo) (op : BinOp) (l r : Expr)
deriving DecidableEq

namespace Expr

def info : Expr → ExprInfo
  | ident i _ => i
  | lit i _ => i
  | unary i _ _ => i
  | binary i _ _ _ => i

def id (e : Expr) : ExprId := e.info.id

def hint (e : Expr) : Option TypeHint := e.info.hint

def ident? : Expr → Option Ident
  | ident _ v => some v
  | _ => none

def operands : Expr → List Expr
  | ident .. => []
  | lit .. => []
  | unary _ _ x => [x]
  | binary _ _ l r => [l, r]

def size : Expr → Nat
  | ident .. => 1
  | lit .. => 1
  | unary _ _ x => x.size + 1
  | binary _ _ l r => l.size + r.size + 1

def visit : Nat → List Expr → List Expr
  | 0, _ => []
  | _ + 1, [] => []
  | fuel + 1, e :: stack => e :: visit fuel (e.operands ++ stack)

def nodes (e : Expr) : List Expr := visit e.size [e]

def isCompound : Expr → Bool
  | binary .. => true
  | _ => false

def enclosed (compound : Bool) (text : String) : String :=
  if compound then "(" ++ text ++ ")" else text

def text : Expr → String
  | ident _ v => v.name
  | lit _ t => t
  | unary _ op x => op.symbol ++ enclosed x.isCompound x.text
  | binary _ op l r =>
    enclosed l.isCompound l.text ++ " " ++ op.symbol ++ " " ++ enclosed r.isCompound r.text

end Expr

end Tracewise
