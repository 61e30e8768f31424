import Tracewise.Program.Basic

/-! Control-flow graphs. Every atomic statement is a node; splits rejoin at a node of their own, and
loops have a head, the only widening points, and an exit. -/

namespace Tracewise

structure Node where
  id : NodeId
  name : String
  widening : Bool
  atom : Option Atom

abbrev Edge := NodeId × NodeId

structure Graph where
  program : Program
  nodes : Array Node
  edges : Array Edge
  succs : Array (List NodeId)
  preds : Array (List NodeId)

structure Check where
  node : NodeId
  cond : Expr
  purpose : Purpose

namespace Node

def heading (n : Node) : String :=
  match n.atom with
  | some a => n.name ++ ": " ++ a.text
  | none => n.name

def check? (kind : PurposeKind) (n : Node) : Option Check :=
  match n.atom with
  | some (.assume cond (some purpose)) =>
    if purpose.kind = kind then some ⟨n.id, cond, purpose⟩ else none
  | _ => none

end Node

namespace Graph

def entry : NodeId := 0

def size (g : Graph) : Nat := g.nodes.size

def succsOf (g : Graph) (n : NodeId) : List NodeId := g.succs.getD n []

def predsOf (g : Graph) (n : NodeId) : List NodeId := g.preds.getD n []

def nodeName (g : Graph) (n : NodeId) : String := (g.nodes[n]?.map Node.name).getD ""

def nodeNamed? (g : Graph) (name : String) : Option Node := g.nodes.find? (·.name == name)

def checks (g : Graph) (kind : PurposeKind) : List Check :=
  g.nodes.toList.filterMap (Node.check? kind)

def nodeLine (g : Graph) (n : Node) : String :=
  "  " ++ n.heading ++ (if n.widening then " [widening]" else "") ++ " -> " ++
    Text.commas ((g.succsOf n.id).map g.nodeName) ++ "\n"

def text (g : Graph) : String :=
  "cfg of " ++ Text.cited g.program.name ++ " (" ++ toString g.size ++ " nodes)\n" ++
    String.join (g.nodes.toList.map g.nodeLine)

end Graph

end Tracewise
