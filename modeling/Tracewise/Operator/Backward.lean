import Tracewise.Operator.Forward

namespace Tracewise.Backward

def nonempty (l r : Interval) : Option (Interval × Interval) :=
  if l.isEmpty || r.isEmpty then none else some (l, r)

def nonemptySets (l r : ElemSet) : Option (ElemSet × ElemSet) :=
  if l.isEmpty || r.isEmpty then none else some (l, r)

def invertBool (f : Bool → Bool → Bool) (expected l r : BoolSet) : Option (BoolSet × BoolSet) :=
  let pairs := (l.toList.flatMap fun a => r.toList.map fun b => (a, b)).filter
    fun p => expected.contains (f p.1 p.2)
  let left := BoolSet.ofList (pairs.map Prod.fst)
  let right := BoolSet.ofList (pairs.map Prod.snd)
  if left.isEmpty then none else some (left, right)

/-- Inverts a comparison from its narrowings to operands where it may hold and where it may fail. -/
def invertRelation {α : Type} (join : α → α → α) (whenTrue whenFalse : α → α → Option (α × α))
    (expected : BoolSet) (l r : α) : Option (α × α) :=
  let t := if expected.contains true then whenTrue l r else none
  let f := if expected.contains false then whenFalse l r else none
  match t, f with
  | some t, some f => some (join t.1 f.1, join t.2 f.2)
  | some t, none => some t
  | none, f => f

/-- Intervals are not closed under division, so a product only tells whether it is feasible. -/
def invertArith? : BinOp → Option (Interval → Interval → Interval → Option (Interval × Interval))
  | .add => some fun e l r => nonempty (l.meet (e.sub r)) (r.meet (e.sub l))
  | .sub => some fun e l r => nonempty (l.meet (e.add r)) (r.meet (l.sub e))
  | .mul => some fun e l r => if (e.meet (l.mul r)).isEmpty then none else nonempty l r
  | _ => none

def narrowLt (l r : Interval) : Option (Interval × Interval) :=
  match r.high?, l.low? with
  | some h, some low =>
    nonempty (l.meet (.atMost (Saturating.sub h 1))) (r.meet (.atLeast (Saturating.add low 1)))
  | _, _ => none

def narrowLe (l r : Interval) : Option (Interval × Interval) :=
  match r.high?, l.low? with
  | some h, some low => nonempty (l.meet (.atMost h)) (r.meet (.atLeast low))
  | _, _ => none

def narrowGt (l r : Interval) : Option (Interval × Interval) := (narrowLt r l).map Prod.swap

def narrowGe (l r : Interval) : Option (Interval × Interval) := (narrowLe r l).map Prod.swap

def narrowEq (l r : Interval) : Option (Interval × Interval) := nonempty (l.meet r) (l.meet r)

/-- An interval can only lose an end, and only when the other side is a constant. -/
def narrowNe (l r : Interval) : Option (Interval × Interval) :=
  nonempty (r.constant?.elim l l.removeEnd) (l.constant?.elim r r.removeEnd)

def compareCases? : BinOp → Option
    ((Interval → Interval → Option (Interval × Interval)) ×
      (Interval → Interval → Option (Interval × Interval)))
  | .lt => some (narrowLt, narrowGe)
  | .le => some (narrowLe, narrowGt)
  | .gt => some (narrowGt, narrowLe)
  | .ge => some (narrowGe, narrowLt)
  | .eq => some (narrowEq, narrowNe)
  | .ne => some (narrowNe, narrowEq)
  | _ => none

def narrowEqElems (l r : ElemSet) : Option (ElemSet × ElemSet) :=
  nonemptySets (l.inter r) (l.inter r)

def narrowNeElems (l r : ElemSet) : Option (ElemSet × ElemSet) :=
  nonemptySets (if r.size == 1 then l.diff r else l) (if l.size == 1 then r.diff l else r)

def setCompareCases? : BinOp → Option
    ((ElemSet → ElemSet → Option (ElemSet × ElemSet)) ×
      (ElemSet → ElemSet → Option (ElemSet × ElemSet)))
  | .eq => some (narrowEqElems, narrowNeElems)
  | .ne => some (narrowNeElems, narrowEqElems)
  | _ => none

def pair {α : Type} (value : α → Value) (operands : Option (α × α)) : Option (List Value) :=
  operands.map fun p => [value p.1, value p.2]

/-- Of a unary operator the operand is read first, of a binary one the expected result. -/
def inverse? : Op → Signature → Option Inverse
  | .unary .not, ⟨[.bool], .bool⟩ => some fun expected args => do
    let x ← (← operand args 0).toBools
    let x := x.inter ((← expected.toBools).map not)
    return if x.isEmpty then none else some [.bools x]
  | .unary .neg, ⟨[.int _], .int _⟩ => some fun expected args => do
    let x ← (← operand args 0).toInts
    let x := x.meet (← expected.toInts).neg
    return if x.isEmpty then none else some [.ints x]
  | .binary op, ⟨[.bool, .bool], .bool⟩ => (Forward.boolOp? op).map fun f expected args => do
    let e ← expected.toBools
    let l ← (← operand args 0).toBools
    let r ← (← operand args 1).toBools
    return pair .bools (invertBool f e l r)
  | .binary op, ⟨[.int _, .int _], .int _⟩ => (invertArith? op).map fun f expected args => do
    let e ← expected.toInts
    let l ← (← operand args 0).toInts
    let r ← (← operand args 1).toInts
    return pair .ints (f e l r)
  | .binary op, ⟨[.int _, .int _], .bool⟩ => (compareCases? op).map fun cases expected args => do
    let e ← expected.toBools
    let l ← (← operand args 0).toInts
    let r ← (← operand args 1).toInts
    return pair .ints (invertRelation .join cases.1 cases.2 e l r)
  | .binary op, ⟨[.finite _, .finite _], .bool⟩ =>
    (setCompareCases? op).map fun cases expected args => do
      let e ← expected.toBools
      let l ← (← operand args 0).toElems
      let r ← (← operand args 1).toElems
      return pair .elems (invertRelation .union cases.1 cases.2 e l r)
  | _, _ => none

end Tracewise.Backward

namespace Tracewise

def Semantics.standard : Semantics := ⟨Forward.definition?, Backward.inverse?⟩

end Tracewise
