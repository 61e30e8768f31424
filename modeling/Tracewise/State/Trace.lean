import Tracewise.Identity
import Tracewise.Text

/-! Traces: the graph nodes that an execution went through, in the order of the first visits. Traces
are compared as sets. -/

namespace Tracewise

structure Trace where
  nodes : List NodeId
deriving DecidableEq

namespace Trace

def empty : Trace := ⟨[]⟩

def length (t : Trace) : Nat := t.nodes.length

def isEmpty (t : Trace) : Bool := t.nodes.isEmpty

def contains (t : Trace) (n : NodeId) : Bool := t.nodes.contains n

def extend (t : Trace) (n : NodeId) : Trace := if t.contains n then t else ⟨t.nodes ++ [n]⟩

def union (t u : Trace) : Trace := u.nodes.foldl extend t

def ofList (nodes : List NodeId) : Trace := nodes.foldl extend empty

def subset (t u : Trace) : Bool := t.nodes.all u.contains

/-- For traces without repetition: whether they visit the same nodes. -/
def sameNodes (t u : Trace) : Bool := t.length == u.length && t.subset u

def text (t : Trace) : String := Text.bracketed (t.nodes.map NodeId.text)

end Trace

end Tracewise
