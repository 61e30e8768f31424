import Tracewise.Lattice.Basic

namespace Tracewise

def maxLiterals : Nat := 64

structure ElemSet where
  mask : BitVec 64
deriving DecidableEq

namespace ElemSet

def empty : ElemSet := ⟨0#64⟩

def singleton (i : Fin maxLiterals) : ElemSet := ⟨1#64 <<< i.val⟩

def full (n : Nat) : ElemSet := if maxLiterals ≤ n then ⟨BitVec.allOnes 64⟩ else ⟨(1#64 <<< n) - 1#64⟩

def contains (s : ElemSet) (i : Nat) : Bool :=
  decide (i < maxLiterals) && s.mask &&& (1#64 <<< i) != 0#64

instance : Membership Nat ElemSet := ⟨fun s i => s.contains i = true⟩

instance (i : Nat) (s : ElemSet) : Decidable (i ∈ s) :=
  inferInstanceAs (Decidable (s.contains i = true))

def isEmpty (s : ElemSet) : Bool := s.mask == 0#64

def size (s : ElemSet) : Nat := s.mask.cpop.toNat

def union (s t : ElemSet) : ElemSet := ⟨s.mask ||| t.mask⟩

def inter (s t : ElemSet) : ElemSet := ⟨s.mask &&& t.mask⟩

def diff (s t : ElemSet) : ElemSet := ⟨s.mask &&& ~~~t.mask⟩

def subset (s t : ElemSet) : Bool := s.mask &&& ~~~t.mask == 0#64

def toList (s : ElemSet) : List Nat := (List.range maxLiterals).filter s.contains

end ElemSet

structure Enumeration where
  name : String
  literals : List String
  fits : literals.length ≤ maxLiterals
deriving DecidableEq

namespace Enumeration

def indexOf? (e : Enumeration) (literal : String) : Option (Fin e.literals.length) :=
  e.literals.findFinIdx? (· == literal)

def literal? (e : Enumeration) (literal : String) : Option ElemSet :=
  (e.indexOf? literal).map fun i => ElemSet.singleton (i.castLE e.fits)

def top (e : Enumeration) : ElemSet := ElemSet.full e.literals.length

def isTop (e : Enumeration) (s : ElemSet) : Bool := e.top.subset s

def text (e : Enumeration) (s : ElemSet) : String :=
  Text.braced (s.toList.filterMap (e.literals[·]?))

def ops (e : Enumeration) : LatticeOps ElemSet where
  bottom := .empty
  top := e.top
  isBottom := ElemSet.isEmpty
  isTop := e.isTop
  le := ElemSet.subset
  join := ElemSet.union
  meet := ElemSet.inter
  widen := ElemSet.union

end Enumeration

end Tracewise
