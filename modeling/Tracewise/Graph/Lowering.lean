import Tracewise.Graph.Basic

namespace Tracewise

structure NameSupply where
  counts : List (String × Nat)

namespace NameSupply

def empty : NameSupply := ⟨[]⟩

def count (s : NameSupply) (key : String) : Nat := (s.counts.lookup key).getD 0

def draw (s : NameSupply) (key : String) : Nat × NameSupply :=
  (s.count key, ⟨(key, s.count key + 1) :: s.counts⟩)

def fresh (s : NameSupply) (key : String) : String × NameSupply :=
  (key ++ toString (s.count key), (s.draw key).2)

end NameSupply

structure Draft where
  nodes : Array Node
  edges : Array Edge
  names : NameSupply

structure Placed where
  node : NodeId
  draft : Draft

def Atom.nodeKind : Atom → String
  | assign .. => "assign"
  | read _ => "read"
  | use _ => "use"
  | assume .. => "assume"

namespace Draft

def empty : Draft := ⟨#[], #[], .empty⟩

def addNode (d : Draft) (kind : String) (widening : Bool) (atom : Option Atom) : Placed :=
  let name := d.names.fresh kind
  let node : Node := ⟨d.nodes.size, name.1, widening, atom⟩
  ⟨d.nodes.size, { d with nodes := d.nodes.push node, names := name.2 }⟩

def link (d : Draft) (source target : NodeId) : Draft :=
  if d.edges.contains (source, target) then d
  else { d with edges := d.edges.push (source, target) }

/-- Lowers a block that control enters from a node, and tells where control leaves it. -/
def lower : Block → NodeId → Draft → Placed
  | .done, cur, d => ⟨cur, d⟩
  | .atom a next, cur, d =>
    let n := d.addNode a.nodeKind false (some a)
    lower next n.node (n.draft.link cur n.node)
  | .split fst snd next, cur, d =>
    let endFst := lower fst cur d
    let endSnd := lower snd cur endFst.draft
    let join := endSnd.draft.addNode "split_join" false none
    lower next join.node ((join.draft.link endFst.node join.node).link endSnd.node join.node)
  | .loop body next, cur, d =>
    let head := d.addNode "loop_start" true none
    let endBody := lower body head.node (head.draft.link cur head.node)
    let join := (endBody.draft.link endBody.node head.node).addNode "loop_join" false none
    lower next join.node (join.draft.link head.node join.node)

def ofBlock (b : Block) : Draft :=
  let start := empty.addNode "start" false none
  (lower b start.node start.draft).draft

end Draft

namespace Graph

def adjacency (n : Nat) (edges : List Edge) : Array (List NodeId) :=
  edges.foldl (fun table e => table.modify e.1 (· ++ [e.2])) (Array.replicate n [])

def ofProgram (p : Program) : Graph :=
  let d := Draft.ofBlock p.body
  { program := p
    nodes := d.nodes
    edges := d.edges
    succs := adjacency d.nodes.size d.edges.toList
    preds := adjacency d.nodes.size (d.edges.toList.map Prod.swap) }

end Graph

end Tracewise
