import Tracewise.Domain.Value
import Tracewise.Lattice.Enumeration
import Tracewise.Lattice.Interval

namespace Tracewise

inductive Domain
  | bool
  | int (range : Range)
  | finite (literals : Enumeration)
deriving DecidableEq

namespace Domain

def text : Domain → String
  | bool => "bool"
  | int r => "int[" ++ Saturating.text r.min ++ ", " ++ Saturating.text r.max ++ "]"
  | finite e => e.name

def accepts : Domain → Value → Bool
  | bool, .bools _ => true
  | int _, .ints _ => true
  | finite _, .elems _ => true
  | _, _ => false

def canHold : Domain → Domain → Bool
  | bool, bool => true
  | int _, int _ => true
  | finite a, finite b => a == b
  | _, _ => false

def clamp : Domain → Value → Value
  | int r, .ints i => .ints (r.clamp i)
  | _, v => v

def valueText : Domain → Value → String
  | finite e, .elems s => e.text s
  | _, v => v.text

def bottom : Domain → Value
  | bool => .bools BoolSet.ops.bottom
  | int r => .ints r.ops.bottom
  | finite e => .elems e.ops.bottom

def top : Domain → Value
  | bool => .bools BoolSet.ops.top
  | int r => .ints r.ops.top
  | finite e => .elems e.ops.top

end Domain

end Tracewise
