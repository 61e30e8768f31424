import Tracewise.Operator.Basic
import Tracewise.Text

namespace Tracewise

inductive Constant
  | int (n : Int)
  | bool (b : Bool)
  | symbol (s : String)
deriving DecidableEq

namespace Constant

def int? : Constant → Option Int
  | int n => some n
  | _ => none

def bool? : Constant → Option Bool
  | bool b => some b
  | _ => none

def parse (text : String) : Constant :=
  if text = "true" then bool true
  else if text = "false" then bool false
  else match Text.Numeral.parse? text with
    | some n => int n
    | none => symbol text

def text : Constant → String
  | int n => toString n
  | bool b => toString b
  | symbol s => s

def applyUnary? : UnOp → Constant → Option Constant
  | .not, bool b => some (bool !b)
  | .neg, int n => some (int (-n))
  | _, _ => none

/-- Equality compares constants of any kinds, every other operator fixes the kinds. -/
def applyBinary? : BinOp → Constant → Constant → Option Constant
  | .eq, a, b => some (bool (a == b))
  | .ne, a, b => some (bool (a != b))
  | .and, bool a, bool b => some (bool (a && b))
  | .or, bool a, bool b => some (bool (a || b))
  | .lt, int a, int b => some (bool (a < b))
  | .le, int a, int b => some (bool (a ≤ b))
  | .gt, int a, int b => some (bool (a > b))
  | .ge, int a, int b => some (bool (a ≥ b))
  | .add, int a, int b => some (int (a + b))
  | .sub, int a, int b => some (int (a - b))
  | .mul, int a, int b => some (int (a * b))
  | _, _, _ => none

end Constant

end Tracewise
