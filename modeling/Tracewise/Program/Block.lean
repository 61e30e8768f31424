import Tracewise.Program.Expr

namespace Tracewise

inductive Purpose
  | derefCheck (e : Expr)
  | existCheck (accessed : Expr) (field discriminant : String)
  | syntheticVariable
  | fieldAssignment (index : Nat) (hint : TypeHint)
deriving DecidableEq

inductive PurposeKind
  | derefCheck
  | existCheck
  | syntheticVariable
  | fieldAssignment
deriving DecidableEq

namespace Purpose

def kind : Purpose → PurposeKind
  | derefCheck _ => .derefCheck
  | existCheck .. => .existCheck
  | syntheticVariable => .syntheticVariable
  | fieldAssignment .. => .fieldAssignment

def text : Purpose → String
  | derefCheck e => "DerefCheck(" ++ e.text ++ ")"
  | existCheck e field discriminant =>
    "ExistCheck(" ++ e.text ++ "." ++ field ++ " by " ++ discriminant ++ ")"
  | syntheticVariable => "SyntheticVariable"
  | fieldAssignment index hint => "FieldAssignment(" ++ toString index ++ ": " ++ hint ++ ")"

end Purpose

inductive Atom
  | assign (target : Ident) (value : Expr)
  | read (target : Ident)
  | use (v : Ident)
  | assume (cond : Expr) (purpose : Option Purpose)
deriving DecidableEq

/-- A sequence of statements: its first one, and the statements that come after. -/
inductive Block
  | done
  | atom (a : Atom) (next : Block)
  | split (fst snd next : Block)
  | loop (body next : Block)
deriving DecidableEq

inductive Stmt
  | atom (a : Atom)
  | split (fst snd : Block)
  | loop (body : Block)
deriving DecidableEq

namespace Atom

def purpose? : Atom → Option Purpose
  | assume _ purpose => purpose
  | _ => none

def exprs : Atom → List Expr
  | assign _ e => [e]
  | assume e _ => [e]
  | read _ => []
  | use _ => []

def text : Atom → String
  | assign x e => x.name ++ " = " ++ e.text
  | read x => "read(" ++ x.name ++ ")"
  | use x => "use(" ++ x.name ++ ")"
  | assume e _ => "assume(" ++ e.text ++ ")"

end Atom

namespace Block

def cons : Stmt → Block → Block
  | .atom a, next => atom a next
  | .split fst snd, next => split fst snd next
  | .loop body, next => loop body next

def ofList (stmts : List Stmt) : Block := stmts.foldr cons done

def toList : Block → List Stmt
  | done => []
  | atom a next => .atom a :: next.toList
  | split fst snd next => .split fst snd :: next.toList
  | loop body next => .loop body :: next.toList

def length : Block → Nat
  | done => 0
  | atom _ next => next.length + 1
  | split _ _ next => next.length + 1
  | loop _ next => next.length + 1

def atoms : Block → List Atom
  | done => []
  | atom a next => a :: next.atoms
  | split fst snd next => fst.atoms ++ (snd.atoms ++ next.atoms)
  | loop body next => body.atoms ++ next.atoms

def exprs : Block → List Expr
  | done => []
  | atom a next => a.exprs.flatMap Expr.nodes ++ next.exprs
  | split fst snd next => fst.exprs ++ (snd.exprs ++ next.exprs)
  | loop body next => body.exprs ++ next.exprs

end Block

namespace Stmt

def isAtomic : Stmt → Bool
  | atom _ => true
  | _ => false

def purpose? : Stmt → Option Purpose
  | atom a => a.purpose?
  | _ => none

def exprs : Stmt → List Expr
  | atom a => a.exprs
  | _ => []

def blocks : Stmt → List Block
  | atom _ => []
  | split fst snd => [fst, snd]
  | loop body => [body]

def text : Stmt → String
  | atom a => a.text
  | split fst snd => "split [" ++ toString fst.length ++ " | " ++ toString snd.length ++ "]"
  | loop body => "loop [" ++ toString body.length ++ "]"

end Stmt

end Tracewise
