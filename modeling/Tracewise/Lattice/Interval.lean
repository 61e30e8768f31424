import Tracewise.Lattice.Basic

/-! Intervals of 64-bit words, and the lattice of those of a bounded integer type. Arithmetic stops
at the ends of the words instead of wrapping; widening sends a bound that moves straight to the
limit of the type. -/

namespace Tracewise

namespace Saturating

def add (a b : Int64) : Int64 := Int64.ofIntClamp (a.toInt + b.toInt)

def sub (a b : Int64) : Int64 := Int64.ofIntClamp (a.toInt - b.toInt)

def mul (a b : Int64) : Int64 := Int64.ofIntClamp (a.toInt * b.toInt)

def neg (a : Int64) : Int64 := Int64.ofIntClamp (-a.toInt)

def ofInt? (n : Int) : Option Int64 :=
  if Int64.minValue.toInt ≤ n ∧ n ≤ Int64.maxValue.toInt then some (Int64.ofInt n) else none

def text (a : Int64) : String := toString a.toInt

end Saturating

inductive Interval
  | empty
  | range (low high : Int64) (le : low ≤ high)
deriving DecidableEq

namespace Interval

def between (low high : Int64) : Interval :=
  if h : low ≤ high then range low high h else empty

def constant (n : Int64) : Interval := between n n

def atMost (n : Int64) : Interval := between Int64.minValue n

def atLeast (n : Int64) : Interval := between n Int64.maxValue

def isEmpty : Interval → Bool
  | empty => true
  | range .. => false

def bounds? : Interval → Option (Int64 × Int64)
  | empty => none
  | range l h _ => some (l, h)

def low? (i : Interval) : Option Int64 := i.bounds?.map Prod.fst

def high? (i : Interval) : Option Int64 := i.bounds?.map Prod.snd

def constant? : Interval → Option Int64
  | empty => none
  | range l h _ => if l = h then some l else none

def size : Interval → Nat
  | empty => 0
  | range l h _ => (h.toInt - l.toInt + 1).toNat

def contains : Interval → Int64 → Bool
  | empty, _ => false
  | range l h _, n => l ≤ n && n ≤ h

instance : Membership Int64 Interval := ⟨fun i n => i.contains n = true⟩

instance (n : Int64) (i : Interval) : Decidable (n ∈ i) :=
  inferInstanceAs (Decidable (i.contains n = true))

def subset : Interval → Interval → Bool
  | empty, _ => true
  | range .., empty => false
  | range l₁ h₁ _, range l₂ h₂ _ => l₂ ≤ l₁ && h₁ ≤ h₂

def join : Interval → Interval → Interval
  | empty, j => j
  | range l h le, empty => range l h le
  | range l₁ h₁ _, range l₂ h₂ _ => between (min l₁ l₂) (max h₁ h₂)

def meet : Interval → Interval → Interval
  | empty, _ => empty
  | range .., empty => empty
  | range l₁ h₁ _, range l₂ h₂ _ => between (max l₁ l₂) (min h₁ h₂)

def add : Interval → Interval → Interval
  | empty, _ => empty
  | range .., empty => empty
  | range l₁ h₁ _, range l₂ h₂ _ => between (Saturating.add l₁ l₂) (Saturating.add h₁ h₂)

def sub : Interval → Interval → Interval
  | empty, _ => empty
  | range .., empty => empty
  | range l₁ h₁ _, range l₂ h₂ _ => between (Saturating.sub l₁ h₂) (Saturating.sub h₁ l₂)

def mul : Interval → Interval → Interval
  | empty, _ => empty
  | range .., empty => empty
  | range l₁ h₁ _, range l₂ h₂ _ =>
    let a := Saturating.mul l₁ l₂
    let b := Saturating.mul l₁ h₂
    let c := Saturating.mul h₁ l₂
    let d := Saturating.mul h₁ h₂
    between (min (min a b) (min c d)) (max (max a b) (max c d))

def neg : Interval → Interval
  | empty => empty
  | range l h _ => between (Saturating.neg h) (Saturating.neg l)

/-- Drops `n` if it is an end. The step inwards saturates, so the constant at the upper limit of the
words stays. -/
def removeEnd : Interval → Int64 → Interval
  | empty, _ => empty
  | range l h le, n =>
    if l = n then between (Saturating.add l 1) h
    else if h = n then between l (Saturating.sub h 1)
    else range l h le

def text : Interval → String
  | empty => "∅"
  | range l h _ => "[" ++ Saturating.text l ++ ", " ++ Saturating.text h ++ "]"

end Interval

@[ext] structure Range where
  min : Int64
  max : Int64
  le : min ≤ max

namespace Range

instance : DecidableEq Range := fun r s =>
  decidable_of_iff (r.min = s.min ∧ r.max = s.max) Range.ext_iff.symm

def top (r : Range) : Interval := Interval.between r.min r.max

def isTop (r : Range) (i : Interval) : Bool := r.top.subset i

def clamp (r : Range) (i : Interval) : Interval := i.meet r.top

def widen (r : Range) : Interval → Interval → Interval
  | .range l₁ h₁ _, .range l₂ h₂ _ =>
    .between (if l₂ < l₁ then Min.min r.min l₂ else l₁) (if h₁ < h₂ then Max.max r.max h₂ else h₁)
  | i, j => i.join j

def ops (r : Range) : LatticeOps Interval where
  bottom := .empty
  top := r.top
  isBottom := Interval.isEmpty
  isTop := r.isTop
  le := Interval.subset
  join := Interval.join
  meet := Interval.meet
  widen := r.widen

end Range

end Tracewise
