import Tracewise.Lattice.Basic
import Tracewise.Lattice.Enumeration
import Tracewise.Lattice.Interval

namespace Tracewise

inductive Value
  | bools (s : BoolSet)
  | ints (i : Interval)
  | elems (s : ElemSet)
deriving DecidableEq

namespace Value

def bools? : Value → Option BoolSet
  | bools s => some s
  | _ => none

def ints? : Value → Option Interval
  | ints i => some i
  | _ => none

def elems? : Value → Option ElemSet
  | elems s => some s
  | _ => none

def size : Value → Nat
  | bools s => s.size
  | ints i => i.size
  | elems s => s.size

def isEmpty (v : Value) : Bool := v.size == 0

def isSingleton (v : Value) : Bool := v.size == 1

def mayBeFalse (v : Value) : Bool := v.bools?.any (·.contains false)

def text : Value → String
  | bools s => s.text
  | ints i => i.text
  | elems s => Text.braced (s.toList.map fun i => "#" ++ toString i)

end Value

end Tracewise
