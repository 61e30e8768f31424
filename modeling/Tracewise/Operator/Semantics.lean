import Tracewise.Domain.Order
import Tracewise.Operator.Basic

/-! What operators mean. A definition computes the abstract result from abstract operands; an
inverse narrows the operands to those that may give an expected result, and answers `none` when
there are none. -/

namespace Tracewise

structure Signature where
  operands : List Domain
  result : Domain

def Signature.text (s : Signature) : String :=
  Text.parenthesised (s.operands.map Domain.text) ++ " -> " ++ s.result.text

abbrev Definition := List Value → Except Fault Value

abbrev Inverse := Value → List Value → Except Fault (Option (List Value))

structure Semantics where
  definition? : Op → Signature → Option Definition
  inverse? : Op → Signature → Option Inverse

def operand (args : List Value) (i : Nat) : Except Fault Value :=
  match args[i]? with
  | some v => .ok v
  | none => .error (.missingOperand args.length i)

namespace Value

def toBools : Value → Except Fault BoolSet
  | bools s => .ok s
  | v => .error (.notBoolean v)

def toInts : Value → Except Fault Interval
  | ints i => .ok i
  | v => .error (.notInteger v)

def toElems : Value → Except Fault ElemSet
  | elems s => .ok s
  | v => .error (.notFiniteSet v)

end Value

end Tracewise
