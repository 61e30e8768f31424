import Tracewise.Analysis.Basic

namespace Tracewise

structure Finding where
  node : NodeId
  trace : Trace
  purpose : Purpose
  /-- Whether the check is known to fail, and not only suspected to. -/
  precise : Bool

namespace Finding

def describe : Purpose → String
  | .derefCheck e => "null dereference of " ++ Text.cited e.text
  | .existCheck _ field _ => "invalid field " ++ Text.cited field
  | purpose => "failed check " ++ purpose.text

def message (f : Finding) : String :=
  (if f.precise then "" else "(potential) ") ++ describe f.purpose

def text (f : Finding) : String :=
  f.message ++ " at " ++ NodeId.text f.node ++ " along " ++ f.trace.text

def ofValue? (c : Check) (trace : Trace) (value : Value) : Option Finding :=
  if value.mayBeFalse then
    some ⟨c.node, trace, c.purpose, value == .bools (.singleton false)⟩
  else none

end Finding

namespace Analysis

def failuresOf (a : Analysis) (c : Check) : Except Fault (List Finding) := do
  return (← a.evalAt c.node c.cond).filterMap fun p => Finding.ofValue? c p.1 p.2

def findings (a : Analysis) (kind : PurposeKind) : Except Fault (List Finding) := do
  return (← (a.graph.checks kind).mapM a.failuresOf).flatten

end Analysis

end Tracewise
