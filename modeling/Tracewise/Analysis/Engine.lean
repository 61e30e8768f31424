import Tracewise.Analysis.Admission
import Tracewise.Graph.Lowering
import Tracewise.State.MergeRule
import Tracewise.State.Evaluation

/-! The fixpoint engine. It keeps, for each node, the partitions that reach the point after it, and
a worklist of nodes to recompute, the smallest first. -/

namespace Tracewise

/-- The effect of a node on an environment: none when no execution goes on. -/
def Model.transfer (m : Model) : Option Atom → Env → Except Fault (Option Env)
  | some (.assign x e), env => do
    let value ← m.eval env e
    let value := match m.varDomain? x.var with
      | some domain => domain.clamp value
      | none => value
    return if value.isEmpty then none else some (env.set x.var value)
  | some (.read x), env => return (m.varDomain? x.var).map fun domain => env.set x.var domain.top
  | some (.assume cond _), env => m.assume cond env
  | some (.use _), env => return some env
  | none, env => return some env

structure Engine where
  graph : Graph
  model : Model
  rule : MergeRule
  startEnv : Env

structure Progress where
  states : Array (List Partition)
  visits : Array Nat
  worklist : List NodeId

namespace Progress

def stateOf (s : Progress) (n : NodeId) : List Partition := s.states.getD n []

def visitsOf (s : Progress) (n : NodeId) : Nat := s.visits.getD n 0

def schedule (worklist : List NodeId) (n : NodeId) : List NodeId :=
  match worklist with
  | [] => [n]
  | k :: rest => if n < k then n :: k :: rest else if n = k then k :: rest else k :: schedule rest n

end Progress

namespace Engine

/-- The partitions stored before a node; the entry also has the start environment. -/
def incoming (E : Engine) (s : Progress) (n : NodeId) : List Partition :=
  let stored := (E.graph.predsOf n).flatMap s.stateOf
  if n = Graph.entry then ⟨.empty, E.startEnv⟩ :: stored else stored

def pass (E : Engine) (node : Node) (part : Partition) : Except Fault (Option Partition) := do
  return (← E.model.transfer node.atom part.env).map fun env => ⟨part.trace.extend node.id, env⟩

/-- Widens a new partition by the old one with the same nodes. -/
def widenPart (m : Model) (old : List Partition) (p : Partition) : Except Fault Partition :=
  match old.find? (·.trace.sameNodes p.trace) with
  | some o => do return ⟨p.trace, ← o.env.widen p.env m⟩
  | none => .ok p

def covers (m : Model) (o p : Partition) : Except Fault Bool :=
  if p.trace.sameNodes o.trace then .ok true
  else if o.trace.subset p.trace then o.env.le p.env m
  else .ok false

def keep (m : Model) (present : List Partition) (o : Partition) : Except Fault (List Partition) := do
  return if ← present.anyM (covers m o) then present else present ++ [o]

def widenState (m : Model) (old new : List Partition) : Except Fault (List Partition) := do
  old.foldlM (keep m) (← new.mapM (widenPart m old))

def recompute (E : Engine) (s : Progress) (node : Node) : Except Fault (List Partition) := do
  let outgoing ← (E.incoming s node.id).filterMapM (E.pass node)
  let merged ← E.rule.mergeAll E.model outgoing
  if node.widening then widenState E.model (s.stateOf node.id) merged else return merged

def store (E : Engine) (s : Progress) (n : NodeId) (state : List Partition) : Progress :=
  if state = s.stateOf n then s
  else
    { s with
      states := s.states.setIfInBounds n state
      worklist := (E.graph.succsOf n).foldl Progress.schedule s.worklist }

def visit (E : Engine) (s : Progress) (n : NodeId) : Except Fault Progress :=
  let s := { s with visits := s.visits.modify n (· + 1) }
  match E.graph.nodes[n]? with
  | none => .ok s
  | some node => do return E.store s n (← E.recompute s node)

def step (E : Engine) (s : Progress) : Except Fault (Option Progress) :=
  match s.worklist with
  | [] => .ok none
  | n :: rest => do return some (← E.visit { s with worklist := rest } n)

def initial (E : Engine) : Progress where
  states := Array.replicate E.graph.size []
  visits := Array.replicate E.graph.size 0
  worklist := [Graph.entry]

/-- Steps until the worklist is empty, or until the fuel is used up: some merge rules make a run go
on for ever. -/
def iterate (E : Engine) : Nat → Progress → Except Fault Progress
  | 0, s => .ok s
  | fuel + 1, s => do
    match ← E.step s with
    | none => return s
    | some s => E.iterate fuel s

end Engine

end Tracewise
