import Tracewise.Graph.Basic
import Tracewise.State.Env

/-! What a program must satisfy before it is analysed: every expression and variable in use has a
meaning, assumptions are boolean, assigned values fit, and initial values lie in their domains. -/

namespace Tracewise

inductive Rejection
  | untyped (expr : String)
  | untypedVariable (var : String)
  | nonBooleanAssumption (expr : String)
  | domainMismatch (var expr : String)
  | invalidInitialValue (var : String) (value : Value)

def Rejection.message : Rejection → String
  | untyped e => "Expression " ++ Text.cited e ++ " has no meaning in the model"
  | untypedVariable x => "Variable " ++ Text.cited x ++ " is not tracked by the model"
  | nonBooleanAssumption e => "Assumption " ++ Text.cited e ++ " is not boolean"
  | domainMismatch x e => "Variable " ++ Text.cited x ++ " cannot hold the values of " ++ Text.cited e
  | invalidInitialValue x v =>
    "Initial value " ++ v.text ++ " is not in the domain of variable " ++ Text.cited x

inductive Failure
  | rejected (r : Rejection)
  | fault (f : Fault)
  | unfinished

namespace Failure

def ofFault {α : Type} : Except Fault α → Except Failure α
  | .ok a => .ok a
  | .error f => .error (.fault f)

end Failure

namespace Model

def checkVar (m : Model) (v : Ident) : Except Rejection Unit :=
  match m.varDomain? v.var with
  | some _ => .ok ()
  | none => .error (.untypedVariable v.name)

def checkNode (m : Model) (e : Expr) : Except Rejection Unit :=
  match m.entry? e with
  | none => .error (.untyped e.text)
  | some _ =>
    match e.ident? with
    | some v => m.checkVar v
    | none => .ok ()

def checkExpr (m : Model) (e : Expr) : Except Rejection Unit := e.nodes.forM m.checkNode

def checkAtom (m : Model) : Atom → Except Rejection Unit
  | .assign x e => do
    m.checkVar x
    m.checkExpr e
    match m.varDomain? x.var, m.exprDomain? e with
    | some target, some source =>
      if target.canHold source then return () else throw (.domainMismatch x.name e.text)
    | _, _ => return ()
  | .read x => m.checkVar x
  | .use _ => return ()
  | .assume e _ => do
    m.checkExpr e
    match m.exprDomain? e with
    | some .bool => return ()
    | _ => throw (.nonBooleanAssumption e.text)

def checkGraph (m : Model) (g : Graph) : Except Rejection Unit :=
  g.nodes.toList.forM fun n =>
    match n.atom with
    | some a => m.checkAtom a
    | none => .ok ()

def nameIn (p : Program) (v : VarId) : String :=
  match p.decls.find? (·.id == v) with
  | some d => d.name
  | none => v.text

def checkInitialValue (m : Model) (p : Program) (v : VarId) (value : Value) :
    Except Failure Unit := do
  match m.varDomain? v with
  | none => throw (.rejected (.untypedVariable (nameIn p v)))
  | some domain =>
    let rejection := Failure.rejected (.invalidInitialValue (nameIn p v) value)
    if domain.accepts value then
      if ← Failure.ofFault (domain.le value domain.top) then return () else throw rejection
    else throw rejection

def check (m : Model) (g : Graph) (initial : Env) : Except Failure Unit := do
  match m.checkGraph g with
  | .error r => throw (.rejected r)
  | .ok () => initial.toList.forM fun p => m.checkInitialValue g.program p.1 p.2

end Model

end Tracewise
