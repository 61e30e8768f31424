import Tracewise.Analysis.Engine

namespace Tracewise

structure Analysis where
  graph : Graph
  model : Model
  states : Array (List Partition)
  visits : Array Nat

structure Config where
  rule : MergeRule
  initial : Env

namespace Config

def default : Config := ⟨.default, .empty⟩

/-- The environment at the start: the values given, and any value for the other variables. -/
def startEnv (c : Config) (p : Program) (m : Model) : Env :=
  c.initial.toList.foldl (fun env b => env.set b.1 b.2) (.top p m)

def engine (c : Config) (g : Graph) (m : Model) : Engine := ⟨g, m, c.rule, c.startEnv g.program m⟩

end Config

namespace Analysis

def run (c : Config) (m : Model) (g : Graph) (fuel : Nat) : Except Failure Analysis := do
  m.check g c.initial
  let E := c.engine g m
  let s ← Failure.ofFault (E.iterate fuel E.initial)
  if s.worklist.isEmpty then return ⟨g, m, s.states, s.visits⟩ else throw .unfinished

def ofProgram (c : Config) (m : Model) (p : Program) (fuel : Nat) : Except Failure Analysis :=
  run c m (.ofProgram p) fuel

def stateOf (a : Analysis) (n : NodeId) : List Partition := a.states.getD n []

def visitsOf (a : Analysis) (n : NodeId) : Nat := a.visits.getD n 0

def isReachable (a : Analysis) (n : NodeId) : Bool := !(a.stateOf n).isEmpty

def totalVisits (a : Analysis) : Nat := a.visits.foldr (· + ·) 0

def valueAt (a : Analysis) (n : NodeId) (v : VarId) : Except Fault (Option Value) :=
  match a.model.varDomain? v with
  | none => .ok none
  | some d => some <$> d.joinMany ((a.stateOf n).filterMap (·.env.get? v))

def evalAt (a : Analysis) (n : NodeId) (e : Expr) : Except Fault (List (Trace × Value)) :=
  ((a.graph.predsOf n).flatMap a.stateOf).mapM fun part => do
    return (part.trace.extend n, ← a.model.eval part.env e)

def partitionLine (a : Analysis) (part : Partition) : Except Fault String := do
  return "  " ++ part.trace.text ++ " => " ++ (← part.env.text a.graph.program a.model) ++ "\n"

def nodeText (a : Analysis) (n : Node) : Except Fault String := do
  let parts ← (a.stateOf n.id).mapM a.partitionLine
  return n.heading ++ " (visited " ++ toString (a.visitsOf n.id) ++ " times)\n" ++ String.join parts

def text (a : Analysis) : Except Fault String := do
  let nodes ← a.graph.nodes.toList.mapM a.nodeText
  return "analysis of " ++ Text.cited a.graph.program.name ++ "\n" ++ String.join nodes

end Analysis

end Tracewise
