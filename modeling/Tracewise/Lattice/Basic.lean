import Tracewise.Text

namespace Tracewise

structure LatticeOps (α : Type) where
  bottom : α
  top : α
  isBottom : α → Bool
  isTop : α → Bool
  le : α → α → Bool
  join : α → α → α
  meet : α → α → α
  widen : α → α → α

namespace LatticeOps

variable {α : Type}

def eq (L : LatticeOps α) (a b : α) : Bool := L.le a b && L.le b a

def joinMany (L : LatticeOps α) (elems : List α) : α := elems.foldl L.join L.bottom

end LatticeOps

structure BoolSet where
  hasFalse : Bool
  hasTrue : Bool
deriving DecidableEq

namespace BoolSet

def empty : BoolSet := ⟨false, false⟩

def both : BoolSet := ⟨true, true⟩

def singleton (b : Bool) : BoolSet := ⟨!b, b⟩

def contains (s : BoolSet) : Bool → Bool
  | false => s.hasFalse
  | true => s.hasTrue

instance : Membership Bool BoolSet := ⟨fun s b => s.contains b = true⟩

instance (b : Bool) (s : BoolSet) : Decidable (b ∈ s) :=
  inferInstanceAs (Decidable (s.contains b = true))

def toList (s : BoolSet) : List Bool := [false, true].filter s.contains

def isEmpty (s : BoolSet) : Bool := !s.hasFalse && !s.hasTrue

def size (s : BoolSet) : Nat := s.hasFalse.toNat + s.hasTrue.toNat

def union (s t : BoolSet) : BoolSet := ⟨s.hasFalse || t.hasFalse, s.hasTrue || t.hasTrue⟩

def inter (s t : BoolSet) : BoolSet := ⟨s.hasFalse && t.hasFalse, s.hasTrue && t.hasTrue⟩

def subset (s t : BoolSet) : Bool := (!s.hasFalse || t.hasFalse) && (!s.hasTrue || t.hasTrue)

def ofList (bs : List Bool) : BoolSet := bs.foldl (fun s b => s.union (singleton b)) empty

def map (f : Bool → Bool) (s : BoolSet) : BoolSet := ofList (s.toList.map f)

def ofFlags (mayBeTrue mayBeFalse : Bool) : BoolSet := ⟨mayBeFalse, mayBeTrue⟩

def text (s : BoolSet) : String := Text.braced (s.toList.map toString)

def ops : LatticeOps BoolSet where
  bottom := empty
  top := both
  isBottom := isEmpty
  isTop s := s == both
  le := subset
  join := union
  meet := inter
  widen := union

end BoolSet

end Tracewise
