import Tracewise.Identity
import Tracewise.Program.Basic
import Tracewise.Typing

namespace Tracewise

structure TypedDomain where
  type : SemType
  domain : Domain

inductive Entry
  | ident (typed : TypedDomain)
  | lit (typed : TypedDomain) (value : Value)
  | op (typed : TypedDomain) (op : Op) (definition : Definition) (inverse : Inverse)

namespace Entry

def typed : Entry → TypedDomain
  | ident t => t
  | lit t _ => t
  | op t .. => t

def domain (e : Entry) : Domain := e.typed.domain

end Entry

structure Model where
  entries : IdMap Entry
  vars : IdMap TypedDomain

namespace Model

def empty : Model := ⟨.empty, .empty⟩

def entry? (m : Model) (e : Expr) : Option Entry := m.entries.get? e.id.val

def exprDomain? (m : Model) (e : Expr) : Option Domain := (m.entry? e).map Entry.domain

def varDomain? (m : Model) (v : VarId) : Option Domain := (m.vars.get? v.val).map TypedDomain.domain

def size (m : Model) : Nat := m.entries.size

def isEmpty (m : Model) : Bool := m.entries.isEmpty

end Model

end Tracewise
