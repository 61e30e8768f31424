import Tracewise.Operator.Semantics

namespace Tracewise.Forward

def boolOp? : BinOp → Option (Bool → Bool → Bool)
  | .and => some (· && ·)
  | .or => some (· || ·)
  | .eq => some (· == ·)
  | .ne => some (· != ·)
  | _ => none

def liftBool (f : Bool → Bool → Bool) (l r : BoolSet) : BoolSet :=
  .ofList (l.toList.flatMap fun a => r.toList.map (f a))

def intArith? : BinOp → Option (Interval → Interval → Interval)
  | .add => some .add
  | .sub => some .sub
  | .mul => some .mul
  | _ => none

def lt : Interval → Interval → BoolSet
  | .range l₁ h₁ _, .range l₂ h₂ _ => .ofFlags (l₁ < h₂) (l₂ ≤ h₁)
  | _, _ => .empty

def le : Interval → Interval → BoolSet
  | .range l₁ h₁ _, .range l₂ h₂ _ => .ofFlags (l₁ ≤ h₂) (l₂ < h₁)
  | _, _ => .empty

def eqInts (l r : Interval) : BoolSet :=
  if l.isEmpty || r.isEmpty then .empty
  else .ofFlags (!(l.meet r).isEmpty) (!(l.constant?.isSome && l == r))

def intCompare? : BinOp → Option (Interval → Interval → BoolSet)
  | .lt => some lt
  | .le => some le
  | .gt => some fun l r => lt r l
  | .ge => some fun l r => le r l
  | .eq => some eqInts
  | .ne => some fun l r => (eqInts l r).map not
  | _ => none

def eqElems (l r : ElemSet) : BoolSet :=
  if l.isEmpty || r.isEmpty then .empty
  else .ofFlags (!(l.inter r).isEmpty) (!(l.size == 1 && l == r))

def setCompare? : BinOp → Option (ElemSet → ElemSet → BoolSet)
  | .eq => some eqElems
  | .ne => some fun l r => (eqElems l r).map not
  | _ => none

/-- Operands are read left to right; integer results are cut to the range of the result. -/
def definition? : Op → Signature → Option Definition
  | .unary .not, ⟨[.bool], .bool⟩ => some fun args => do
    return .bools ((← (← operand args 0).toBools).map not)
  | .unary .neg, ⟨[.int _], .int range⟩ => some fun args => do
    return .ints (range.clamp (← (← operand args 0).toInts).neg)
  | .binary op, ⟨[.bool, .bool], .bool⟩ => (boolOp? op).map fun f args => do
    return .bools (liftBool f (← (← operand args 0).toBools) (← (← operand args 1).toBools))
  | .binary op, ⟨[.int _, .int _], .int range⟩ => (intArith? op).map fun f args => do
    return .ints (range.clamp (f (← (← operand args 0).toInts) (← (← operand args 1).toInts)))
  | .binary op, ⟨[.int _, .int _], .bool⟩ => (intCompare? op).map fun f args => do
    return .bools (f (← (← operand args 0).toInts) (← (← operand args 1).toInts))
  | .binary op, ⟨[.finite _, .finite _], .bool⟩ => (setCompare? op).map fun f args => do
    return .bools (f (← (← operand args 0).toElems) (← (← operand args 1).toElems))
  | _, _ => none

end Tracewise.Forward
