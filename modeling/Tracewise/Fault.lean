import Tracewise.Domain.Basic
import Tracewise.Identity

namespace Tracewise

inductive Fault
  | emptyRange (min max : Int64)
  | tooManyLiterals
  | literalIndex (index : Nat)
  | notElements (a b : Value) (domain : Domain)
  | notBoolean (v : Value)
  | notInteger (v : Value)
  | notFiniteSet (v : Value)
  | missingOperand (count index : Nat)
  | operandCount (found expected : Nat)
  | unbound (name : String)
  | meaningless (expr : String) (id : ExprId)
  | notOperation
  | undeclared (var : VarId) (program : String)

namespace Fault

def message : Fault → String
  | emptyRange min max =>
    "Empty integer range [" ++ Saturating.text min ++ ", " ++ Saturating.text max ++ "]"
  | tooManyLiterals => "Finite domains hold at most " ++ toString maxLiterals ++ " literals"
  | literalIndex _ => "assertion failed: index < MAX_LITERALS"
  | notElements a b d =>
    "Values " ++ a.text ++ " and " ++ b.text ++ " are not both elements of domain " ++ d.text
  | notBoolean v => "Expected a boolean value, got " ++ v.text
  | notInteger v => "Expected an integer value, got " ++ v.text
  | notFiniteSet v => "Expected a finite set value, got " ++ v.text
  | missingOperand count index =>
    "index out of bounds: the len is " ++ toString count ++ " but the index is " ++ toString index
  | operandCount found expected =>
    "assertion `left == right` failed\n  left: " ++ toString found ++
      "\n right: " ++ toString expected
  | unbound name => "Variable " ++ Text.cited name ++ " is not bound in the environment"
  | meaningless expr id =>
    "Expression " ++ Text.cited expr ++ " (" ++ id.text ++ ") has no meaning in the model"
  | notOperation => "Operation node has a non-operation model entry"
  | undeclared var program =>
    "Variable " ++ var.text ++ " is not declared in program " ++ Text.cited program

end Fault

end Tracewise
