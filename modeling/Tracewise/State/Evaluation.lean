import Tracewise.State.Env

namespace Tracewise.Model

def meaningless {α : Type} (e : Expr) : Except Fault α := .error (.meaningless e.text e.id)

/-- The value of an expression. Identifiers need no entry in the model, every other node does. -/
def eval (m : Model) (env : Env) : Expr → Except Fault Value
  | .ident _ v =>
    match env.get? v.var with
    | some value => .ok value
    | none => .error (.unbound v.name)
  | e@(.lit ..) =>
    match m.entry? e with
    | some (.lit _ value) => .ok value
    | _ => meaningless e
  | e@(.unary _ _ x) =>
    match m.entry? e with
    | some (.op _ _ definition _) => do definition [← m.eval env x]
    | _ => meaningless e
  | e@(.binary _ _ l r) =>
    match m.entry? e with
    | some (.op _ _ definition _) => do
      let a ← m.eval env l
      let b ← m.eval env r
      definition [a, b]
    | _ => meaningless e

/-- Narrows operands by the inverse of an operation; an empty operand makes it infeasible. -/
def invert (entry : Entry) (expected : Value) (operands : List Value) :
    Except Fault (Option (List Value)) :=
  match entry with
  | .op _ _ _ inverse =>
    if operands.any Value.isEmpty then .ok none
    else do
      match ← inverse expected operands with
      | none => return none
      | some narrowed =>
        if narrowed.length = operands.length then return some narrowed
        else throw (.operandCount narrowed.length operands.length)
  | _ => .error .notOperation

def refine (m : Model) : Expr → Env → Value → Except Fault (Option Env)
  | e@(.ident _ v), env, expected =>
    match m.entry? e with
    | none => meaningless e
    | some entry => do
      let current ← m.eval env e
      let narrowed ← entry.domain.meet current expected
      return if narrowed.isEmpty then none else some (env.set v.var narrowed)
  | e@(.lit ..), env, expected =>
    match m.entry? e with
    | none => meaningless e
    | some entry => do
      let value ← m.eval env e
      let narrowed ← entry.domain.meet value expected
      return if narrowed.isEmpty then none else some env
  | e@(.unary _ _ x), env, expected =>
    match m.entry? e with
    | none => meaningless e
    | some entry => do
      let a ← m.eval env x
      match ← invert entry expected [a] with
      | some [a] => m.refine x env a
      | _ => return none
  | e@(.binary _ _ l r), env, expected =>
    match m.entry? e with
    | none => meaningless e
    | some entry => do
      let a ← m.eval env l
      let b ← m.eval env r
      match ← invert entry expected [a, b] with
      | some [a, b] =>
        match ← m.refine l env a with
        | some env => m.refine r env b
        | none => return none
      | _ => return none

def assume (m : Model) (cond : Expr) (env : Env) : Except Fault (Option Env) :=
  m.refine cond env (.bools (.singleton true))

end Tracewise.Model
