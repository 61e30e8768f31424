import Tracewise.Model.Basic

/-! Building models from a typer and an interpreter. Both are asked once for each hint and each
type; the answers, negative ones too, are remembered from one model to the next. -/

namespace Tracewise

inductive ModelError
  | missingInterpretation (hint : TypeHint) (type : SemType)
  | missingDefinition (op : Op) (signature : Signature) (expr : Expr)
  | missingInverse (op : Op) (signature : Signature) (expr : Expr)
  | invalidLiteral (text : String) (domain : Domain) (expr : Expr)

namespace ModelError

def within (e : Expr) : String := " (in " ++ Text.cited e.text ++ ")"

def message : ModelError → String
  | missingInterpretation hint type =>
    "No interpretation for type " ++ Text.cited type.text ++ " (hint " ++ Text.cited hint ++ ")"
  | missingDefinition op signature e =>
    "No definition of " ++ op.text ++ " for " ++ signature.text ++ within e
  | missingInverse op signature e =>
    "No inverse of " ++ op.text ++ " for " ++ signature.text ++ within e
  | invalidLiteral text domain e =>
    "Literal " ++ Text.cited text ++ " is not a value of " ++ domain.text ++ within e

end ModelError

structure ModelCache where
  hints : List (TypeHint × Option SemType)
  types : List (SemType × Option Interpretation)

def ModelCache.empty : ModelCache := ⟨[], []⟩

structure ModelBuilder where
  typer : Typer
  interpreter : Interpreter
  /-- Whether a literal that is no value of its domain stands for any value of it. -/
  lenient : Bool

structure Meaning where
  type : SemType
  interpretation : Interpretation

def Meaning.typed (m : Meaning) : TypedDomain := ⟨m.type, m.interpretation.domain⟩

structure Interpreted where
  vars : IdMap TypedDomain
  meanings : IdMap Meaning
  exprs : List Expr
  semantics : List Semantics

def Interpreted.empty : Interpreted := ⟨.empty, .empty, [], []⟩

namespace ModelBuilder

abbrev Asking := ExceptT ModelError (StateM ModelCache)

def typeOf (b : ModelBuilder) (hint : TypeHint) : Asking (Option SemType) := do
  match (← get).hints.lookup hint with
  | some known => return known
  | none =>
    let answer := b.typer hint
    modify fun c => { c with hints := c.hints ++ [(hint, answer)] }
    return answer

def interpretationOf (b : ModelBuilder) (type : SemType) : Asking (Option Interpretation) := do
  match (← get).types.lookup type with
  | some known => return known
  | none =>
    let answer := b.interpreter type
    modify fun c => { c with types := c.types ++ [(type, answer)] }
    return answer

def meaningOf (b : ModelBuilder) (hint : TypeHint) : Asking (Option Meaning) := do
  match ← b.typeOf hint with
  | none => return none
  | some type =>
    match ← b.interpretationOf type with
    | some interpretation => return some ⟨type, interpretation⟩
    | none => throw (.missingInterpretation hint type)

def hintMeaning (b : ModelBuilder) : Option TypeHint → Asking (Option Meaning)
  | some hint => b.meaningOf hint
  | none => return none

def interpretVar (b : ModelBuilder) (acc : Interpreted) (d : Decl) : Asking Interpreted := do
  match ← b.hintMeaning d.hint with
  | none => return acc
  | some m =>
    return { acc with
      vars := acc.vars.insert d.id.val m.typed
      semantics := acc.semantics ++ [m.interpretation.semantics] }

def interpretExpr (b : ModelBuilder) (acc : Interpreted) (e : Expr) : Asking Interpreted := do
  match ← b.hintMeaning e.hint with
  | none => return acc
  | some m =>
    return { acc with
      meanings := acc.meanings.insert e.id.val m
      exprs := acc.exprs ++ [e]
      semantics := acc.semantics ++ [m.interpretation.semantics] }

def interpretProgram (b : ModelBuilder) (acc : Interpreted) (p : Program) : Asking Interpreted := do
  let acc ← p.decls.toList.foldlM b.interpretVar acc
  p.exprs.foldlM b.interpretExpr acc

def literalEntry (b : ModelBuilder) (e : Expr) (text : String) (m : Meaning) :
    Except ModelError Entry :=
  let domain := m.interpretation.domain
  match (m.interpretation.literal? text).filter domain.accepts with
  | some value => .ok (.lit m.typed value)
  | none =>
    if b.lenient then .ok (.lit m.typed domain.top) else .error (.invalidLiteral text domain e)

/-- The entry of an operation: none if an operand has no meaning. The first semantics that knows
the operator on these domains counts. -/
def operationEntry (known : Interpreted) (e : Expr) (op : Op) (m : Meaning) :
    Except ModelError (Option Entry) :=
  match e.operands.mapM (fun x => known.meanings.get? x.id.val) with
  | none => .ok none
  | some operands =>
    let signature : Signature :=
      ⟨operands.map (·.interpretation.domain), m.interpretation.domain⟩
    match known.semantics.findSome? (·.definition? op signature) with
    | none => .error (.missingDefinition op signature e)
    | some definition =>
      match known.semantics.findSome? (·.inverse? op signature) with
      | none => .error (.missingInverse op signature e)
      | some inverse => .ok (some (.op m.typed op definition inverse))

def entry (b : ModelBuilder) (known : Interpreted) (e : Expr) (m : Meaning) :
    Except ModelError (Option Entry) :=
  match e with
  | .ident .. => .ok (some (.ident m.typed))
  | .lit _ text => (b.literalEntry e text m).map some
  | .unary _ op _ => operationEntry known e (.unary op) m
  | .binary _ op _ _ => operationEntry known e (.binary op) m

def addEntry (b : ModelBuilder) (known : Interpreted) (entries : IdMap Entry) (e : Expr) :
    Except ModelError (IdMap Entry) := do
  match known.meanings.get? e.id.val with
  | none => return entries
  | some m =>
    match ← b.entry known e m with
    | none => return entries
    | some entry => return entries.insert e.id.val entry

def entries (b : ModelBuilder) (known : Interpreted) : Except ModelError (IdMap Entry) :=
  known.exprs.foldlM (b.addEntry known) .empty

def model (b : ModelBuilder) (programs : List Program) : Asking Model := do
  let known ← programs.foldlM b.interpretProgram .empty
  let entries ← MonadExcept.ofExcept (b.entries known)
  return ⟨entries, known.vars⟩

/-- Builds a model and keeps what was asked on the way, also when it fails. -/
def run (b : ModelBuilder) (cache : ModelCache) (programs : List Program) :
    Except ModelError Model × ModelCache :=
  (b.model programs).run.run cache

end ModelBuilder

end Tracewise
