import Tracewise.Fault
import Tracewise.Program.Block

namespace Tracewise

structure Decl where
  id : VarId
  name : String
  hint : Option TypeHint
  purpose : Option Purpose
deriving DecidableEq

namespace Decl

/-- Halves the positions from `lo` up to `hi` that may still hold the identity. -/
def bisect (decls : Array Decl) (id : VarId) : Nat → Nat → Nat → Option Decl
  | 0, _, _ => none
  | fuel + 1, lo, hi =>
    if lo < hi then
      let mid := (lo + hi) / 2
      match decls[mid]? with
      | none => none
      | some d =>
        if d.id = id then some d
        else if d.id.val < id.val then bisect decls id fuel (mid + 1) hi
        else bisect decls id fuel lo mid
    else none

def find? (decls : Array Decl) (id : VarId) : Option Decl :=
  bisect decls id decls.size 0 decls.size

end Decl

structure Program where
  name : String
  decls : Array Decl
  body : Block

namespace Program

def var (p : Program) (id : VarId) : Except Fault Decl :=
  match Decl.find? p.decls id with
  | some d => .ok d
  | none => .error (.undeclared id p.name)

def varNamed? (p : Program) (name : String) : Option Decl := p.decls.find? (·.name == name)

def exprs (p : Program) : List Expr := p.body.exprs

end Program

end Tracewise
