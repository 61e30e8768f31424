import Tracewise.Analysis.Basic
import Tracewise.Proofs.Environments

/-! Concrete executions. An assignment of a value that its variable cannot have stops, as does an
operation whose exact result is outside the domain of its node. -/

namespace Tracewise

namespace Model

/-- Whether an expression may have a datum as its value. A literal stands for any datum of its
value in the model. -/
def Yields (m : Model) (σ : Store) : Expr → Datum → Prop
  | .ident _ v, d => σ v.var = d
  | e@(.lit ..), d => ∃ t value, m.entry? e = some (.lit t value) ∧ d ∈ value
  | e@(.unary _ op x), d =>
    (∃ a, m.Yields σ x a ∧ op.compute? a = some d) ∧ ∃ dom, m.exprDomain? e = some dom ∧ dom.Has d
  | e@(.binary _ op l r), d =>
    (∃ a b, m.Yields σ l a ∧ m.Yields σ r b ∧ op.compute? a b = some d) ∧
      ∃ dom, m.exprDomain? e = some dom ∧ dom.Has d

inductive Steps (m : Model) : Option Atom → Store → Store → Prop
  | assign {x e σ d dom} : m.Yields σ e d → m.varDomain? x.var = some dom → dom.Has d →
      Steps m (some (.assign x e)) σ (Function.update σ x.var d)
  | read {x σ d dom} : m.varDomain? x.var = some dom → dom.Has d →
      Steps m (some (.read x)) σ (Function.update σ x.var d)
  | use {x σ} : Steps m (some (.use x)) σ σ
  | assume {cond purpose σ} : m.Yields σ cond (.bool true) →
      Steps m (some (.assume cond purpose)) σ σ
  | skip {σ} : Steps m none σ σ

end Model

/-- An execution along a path from the entry: the nodes of the path in order, the last of them, and
the store after it. -/
inductive Graph.Executes (g : Graph) (m : Model) (σ₀ : Store) : List NodeId → NodeId → Store → Prop
  | entry {node σ} : g.nodes[Graph.entry]? = some node → m.Steps node.atom σ₀ σ →
      Executes g m σ₀ [Graph.entry] Graph.entry σ
  | next {path n n' node σ σ'} : Executes g m σ₀ path n σ → (n, n') ∈ g.edges →
      g.nodes[n']? = some node → m.Steps node.atom σ σ' → Executes g m σ₀ (path ++ [n']) n' σ'

lemma Graph.Executes.step {g : Graph} {m : Model} {σ₀ σ σ' : Store} {path : List NodeId}
    {n n' : NodeId} {atom : Option Atom} (h : g.Executes m σ₀ path n σ) (hedge : (n, n') ∈ g.edges)
    (hatom : g.nodes[n']?.map Node.atom = some atom) (hstep : m.Steps atom σ σ') :
    g.Executes m σ₀ (path ++ [n']) n' σ' := by
  obtain ⟨node, hnode, rfl⟩ := Option.map_eq_some_iff.mp hatom
  exact .next h hedge hnode hstep

/-- An execution that has come before a node, and the nodes that it went through. -/
def Graph.Arrives (g : Graph) (m : Model) (σ₀ : Store) (path : List NodeId) (n : NodeId)
    (σ : Store) : Prop :=
  (path = [] ∧ n = Graph.entry ∧ σ = σ₀) ∨ ∃ n', g.Executes m σ₀ path n' σ ∧ (n', n) ∈ g.edges

end Tracewise
