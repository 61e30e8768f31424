import Tracewise.Program.Basic

/-! Building programs. All builders draw identities from one supply, so programs built side by side
never share any. -/

namespace Tracewise

structure Supply where
  nextExpr : UInt32
  nextVar : UInt32

abbrev Building := StateM Supply

namespace Supply

def start : Supply := ⟨0, 0⟩

def freshExpr : Building ExprId := fun s => (⟨s.nextExpr⟩, { s with nextExpr := s.nextExpr + 1 })

def freshVar : Building VarId := fun s => (⟨s.nextVar⟩, { s with nextVar := s.nextVar + 1 })

end Supply

namespace Expr

def newLit (text : String) (hint : Option TypeHint) : Building Expr := do
  return lit ⟨← Supply.freshExpr, hint⟩ text

def newUnary (op : UnOp) (x : Expr) (hint : Option TypeHint) : Building Expr := do
  return unary ⟨← Supply.freshExpr, hint⟩ op x

def newBinary (op : BinOp) (l r : Expr) (hint : Option TypeHint) : Building Expr := do
  return binary ⟨← Supply.freshExpr, hint⟩ op l r

def newNot (cond : Expr) : Building Expr := newUnary .not cond cond.hint

end Expr

namespace Stmt

def ifThenElse (cond : Expr) (fst snd : Block) : Building Stmt := do
  let negated ← Expr.newNot cond
  return split (.atom (.assume cond none) fst) (.atom (.assume negated none) snd)

def whileLoop (cond : Expr) (body : Block) : Building (List Stmt) := do
  let negated ← Expr.newNot cond
  return [loop (.atom (.assume cond none) body), atom (.assume negated none)]

end Stmt

structure Builder where
  name : String
  decls : Array Decl

namespace Builder

def new (name : String) : Builder := ⟨name, #[]⟩

def declare (b : Builder) (name : String) (hint : Option TypeHint) (purpose : Option Purpose) :
    Building (Ident × Builder) := do
  let id ← Supply.freshVar
  return (⟨id, name⟩, { b with decls := b.decls.push ⟨id, name, hint, purpose⟩ })

def declareTyped (b : Builder) (name : String) (hint : TypeHint) : Building (Ident × Builder) :=
  b.declare name (some hint) none

def declareUntyped (b : Builder) (name : String) : Building (Ident × Builder) :=
  b.declare name none none

def declareSynthetic (b : Builder) (name : String) (hint : TypeHint) :
    Building (Ident × Builder) :=
  b.declare name (some hint) (some .syntheticVariable)

def hintOf (b : Builder) (v : Ident) : Option TypeHint :=
  (Decl.find? b.decls v.var).bind Decl.hint

def ident (b : Builder) (v : Ident) : Building Expr := do
  return .ident ⟨← Supply.freshExpr, b.hintOf v⟩ v

def build (b : Builder) (body : Block) : Program := ⟨b.name, b.decls, body⟩

end Builder

end Tracewise
