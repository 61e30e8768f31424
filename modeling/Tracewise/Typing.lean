import Tracewise.Constant.Folding
import Tracewise.Operator.Backward

/-! Semantic types, which typers give to hints, and what they mean to the analysis: a domain, the
semantics of the operators on it, and the values of its literals. -/

namespace Tracewise

inductive SemType
  | bool
  | int (min max : Int64)
  | enum (name : String) (literals : List String)
  | access (name : String)
deriving DecidableEq

namespace SemType

def text : SemType → String
  | bool => "bool"
  | int min max => "range " ++ Saturating.text min ++ " .. " ++ Saturating.text max
  | enum name _ => "enum " ++ name
  | access name => "access " ++ name

/-- The integer type between two constant expressions. A bound that is no 64-bit integer becomes
the limit of the words on its side. -/
def intRange (lo hi : Expr) : Except FoldError SemType :=
  let fold : ExceptT FoldError (StateM FoldCache) SemType := do
    let min ← ExceptT.mk lo.foldInt
    let max ← ExceptT.mk hi.foldInt
    return int ((Saturating.ofInt? min).getD Int64.minValue)
      ((Saturating.ofInt? max).getD Int64.maxValue)
  (fold.run.run .empty).1

end SemType

abbrev Typer := TypeHint → Option SemType

def Typer.ofList (entries : List (TypeHint × SemType)) : Typer := fun h => entries.reverse.lookup h

structure Interpretation where
  domain : Domain
  semantics : Semantics
  literal? : String → Option Value

abbrev Interpreter := SemType → Option Interpretation

namespace Interpretation

def boolLiteral? (text : String) : Option Value :=
  if text = "true" then some (.bools (.singleton true))
  else if text = "false" then some (.bools (.singleton false))
  else none

def intLiteral? (range : Range) (text : String) : Option Value := do
  let n ← Text.Numeral.parse? text
  let n ← Saturating.ofInt? n
  if range.min ≤ n ∧ n ≤ range.max then some (.ints (.constant n)) else none

def bool : Interpretation := ⟨.bool, .standard, boolLiteral?⟩

def int (range : Range) : Interpretation := ⟨.int range, .standard, intLiteral? range⟩

def finite (e : Enumeration) : Interpretation :=
  ⟨.finite e, .standard, fun text => (e.literal? text).map .elems⟩

end Interpretation

/-- Ranges whose bounds cross and enumerations with too many literals have no interpretation. -/
def Interpreter.standard : Interpreter
  | .bool => some .bool
  | .int min max => if h : min ≤ max then some (.int ⟨min, max, h⟩) else none
  | .enum name literals =>
    if h : literals.length ≤ maxLiterals then some (.finite ⟨name, literals, h⟩) else none
  | .access name => some (.finite ⟨name, ["null", "valid"], by decide⟩)

end Tracewise
