import Tracewise.Fault

/-! Lattice operations on abstract values. Each asks that its operands are elements of the domain,
and answers with a fault otherwise. -/

namespace Tracewise

def Range.ofBounds (min max : Int64) : Except Fault Range :=
  if h : min ≤ max then .ok ⟨min, max, h⟩ else .error (.emptyRange min max)

def Enumeration.ofLiterals (name : String) (literals : List String) : Except Fault Enumeration :=
  if h : literals.length ≤ maxLiterals then .ok ⟨name, literals, h⟩ else .error .tooManyLiterals

def ElemSet.ofIndex (i : Nat) : Except Fault ElemSet :=
  if h : i < maxLiterals then .ok (.singleton ⟨i, h⟩) else .error (.literalIndex i)

namespace Domain

def dispatch {β : Type} (d : Domain) (a b : Value)
    (f : {α : Type} → (α → Value) → LatticeOps α → α → α → β) : Except Fault β :=
  match d, a, b with
  | bool, .bools x, .bools y => .ok (f .bools BoolSet.ops x y)
  | int r, .ints x, .ints y => .ok (f .ints r.ops x y)
  | finite e, .elems x, .elems y => .ok (f .elems e.ops x y)
  | _, _, _ => .error (.notElements a b d)

def isBottom (_ : Domain) (a : Value) : Bool := a.isEmpty

def isTop (d : Domain) (a : Value) : Except Fault Bool := d.dispatch a a fun _ L x _ => L.isTop x

def le (d : Domain) (a b : Value) : Except Fault Bool := d.dispatch a b fun _ L x y => L.le x y

def join (d : Domain) (a b : Value) : Except Fault Value :=
  d.dispatch a b fun value L x y => value (L.join x y)

def meet (d : Domain) (a b : Value) : Except Fault Value :=
  d.dispatch a b fun value L x y => value (L.meet x y)

def widen (d : Domain) (a b : Value) : Except Fault Value :=
  d.dispatch a b fun value L x y => value (L.widen x y)

/-- Mutual inclusion; the second inclusion is tried only if the first holds. -/
def eq (d : Domain) (a b : Value) : Except Fault Bool := do
  if ← d.le a b then d.le b a else return false

def joinMany (d : Domain) (values : List Value) : Except Fault Value :=
  values.foldlM d.join d.bottom

end Domain

end Tracewise
