import Tracewise.State.Env
import Tracewise.State.Trace

namespace Tracewise

structure Partition where
  trace : Trace
  env : Env
deriving DecidableEq

def Partition.merge (p q : Partition) (m : Model) : Except Fault Partition := do
  return ⟨p.trace.union q.trace, ← p.env.join q.env m⟩

inductive MergeRule
  | always
  | never
  | traceIncluded
  | traceEqual
  | envEqual
  | envIncluded
  | longerThan (n : Nat)
  | and (p q : MergeRule)
  | or (p q : MergeRule)
  | custom (f : Partition → Partition → Model → Bool)

namespace MergeRule

def default : MergeRule := traceIncluded

def text : MergeRule → String
  | always => "Always"
  | never => "Never"
  | traceIncluded => "TraceIncluded"
  | traceEqual => "TraceEqual"
  | envEqual => "EnvEqual"
  | envIncluded => "EnvIncluded"
  | longerThan n => "LongerThan(" ++ toString n ++ ")"
  | and p q => "And(" ++ p.text ++ ", " ++ q.text ++ ")"
  | or p q => "Or(" ++ p.text ++ ", " ++ q.text ++ ")"
  | custom _ => "Custom(..)"

/-- Whether the rule folds two partitions. Connectives look at the second rule only if they must. -/
def applies (m : Model) (a b : Partition) : MergeRule → Except Fault Bool
  | always => .ok true
  | never => .ok false
  | traceIncluded => .ok (a.trace.subset b.trace || b.trace.subset a.trace)
  | traceEqual => .ok (a.trace.sameNodes b.trace)
  | envEqual => .ok (a.env == b.env)
  | envIncluded => do if ← a.env.le b.env m then return true else b.env.le a.env m
  | longerThan n => .ok (n < a.trace.length || n < b.trace.length)
  | and p q => do if ← p.applies m a b then q.applies m a b else return false
  | or p q => do if ← p.applies m a b then return true else q.applies m a b
  | custom f => .ok (f a b m)

def folds (rule : MergeRule) (m : Model) (a b : Partition) : Except Fault Bool :=
  if a.trace.sameNodes b.trace then .ok true else rule.applies m a b

def extract? (test : Partition → Except Fault Bool) :
    List Partition → Except Fault (Option (Partition × List Partition))
  | [] => .ok none
  | q :: rest => do
    if ← test q then return some (q, rest)
    else return (← extract? test rest).map fun found => (found.1, q :: found.2)

/-- Folds kept partitions into `part` as long as one of them is to be folded; it then comes last. -/
def absorb (rule : MergeRule) (m : Model) :
    Nat → List Partition → Partition → Except Fault (List Partition)
  | 0, kept, part => return kept ++ [part]
  | fuel + 1, kept, part => do
    match ← extract? (fun q => rule.folds m q part) kept with
    | none => return kept ++ [part]
    | some (q, kept) => rule.absorb m fuel kept (← q.merge part m)

def insert (rule : MergeRule) (m : Model) (kept : List Partition) (part : Partition) :
    Except Fault (List Partition) :=
  rule.absorb m kept.length kept part

def mergeAll (rule : MergeRule) (m : Model) (parts : List Partition) :
    Except Fault (List Partition) :=
  parts.foldlM (rule.insert m) []

end MergeRule

end Tracewise
