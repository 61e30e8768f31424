import Tracewise.Model.Basic

namespace Tracewise

structure Env where
  values : IdMap Value
deriving DecidableEq

namespace Env

def empty : Env := ⟨.empty⟩

def get? (env : Env) (v : VarId) : Option Value := env.values.get? v.val

def set (env : Env) (v : VarId) (value : Value) : Env := ⟨env.values.insert v.val value⟩

def toList (env : Env) : List (VarId × Value) := env.values.entries.map fun p => (⟨p.1⟩, p.2)

def ofList (bindings : List (VarId × Value)) : Env :=
  bindings.foldl (fun env p => env.set p.1 p.2) empty

def size (env : Env) : Nat := env.values.size

def isEmpty (env : Env) : Bool := env.values.isEmpty

def top (p : Program) (m : Model) : Env :=
  .ofList (p.decls.toList.filterMap fun d => (m.varDomain? d.id).map fun dom => (d.id, dom.top))

def isBottom (env : Env) : Bool := env.toList.any (·.2.isEmpty)

/-- Combines the values that both environments have for a tracked variable; of any other variable
of `other` the value is taken over. -/
def combine (f : Domain → Value → Value → Except Fault Value) (env other : Env) (m : Model) :
    Except Fault Env :=
  other.toList.foldlM (fun acc p => do
    match env.get? p.1, m.varDomain? p.1 with
    | some a, some d => return acc.set p.1 (← f d a p.2)
    | _, _ => return acc.set p.1 p.2) env

def join (env other : Env) (m : Model) : Except Fault Env := combine Domain.join env other m

def widen (env other : Env) (m : Model) : Except Fault Env := combine Domain.widen env other m

/-- Inclusion, variable by variable. A variable that `other` does not bind must have no value. -/
def le (env other : Env) (m : Model) : Except Fault Bool :=
  env.toList.allM fun p =>
    match other.get? p.1, m.varDomain? p.1 with
    | some b, some d => d.le p.2 b
    | some b, none => .ok (p.2 == b)
    | none, _ => .ok p.2.isEmpty

def bindingText (p : Program) (m : Model) (v : VarId) (value : Value) : Except Fault String := do
  let d ← p.var v
  let text := match m.varDomain? v with
    | some domain => domain.valueText value
    | none => value.text
  return d.name ++ " = " ++ text

def text (env : Env) (p : Program) (m : Model) : Except Fault String := do
  return Text.commas (← env.toList.mapM fun b => bindingText p m b.1 b.2)

end Env

end Tracewise
