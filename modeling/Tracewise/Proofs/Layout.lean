import Tracewise.Proofs.Graphs

namespace Tracewise

def Node.cell (n : Node) : Bool × Option Atom := (n.widening, n.atom)

namespace Block

def cells : Block → List (Bool × Option Atom)
  | done => []
  | atom a next => (false, some a) :: next.cells
  | split fst snd next => fst.cells ++ (snd.cells ++ (false, none) :: next.cells)
  | loop body next => (true, none) :: (body.cells ++ (false, none) :: next.cells)

def count : Block → Nat
  | done => 0
  | atom _ next => next.count + 1
  | split fst snd next => fst.count + snd.count + next.count + 1
  | loop body next => body.count + next.count + 2

/-- The node at which control leaves a block that it enters from `cur` and that is numbered on from
`n`. -/
def exit : Block → Nat → Nat → Nat
  | done, cur, _ => cur
  | atom _ next, _, n => next.exit n (n + 1)
  | split fst snd next, _, n =>
    next.exit (n + fst.count + snd.count) (n + fst.count + snd.count + 1)
  | loop body next, _, n => next.exit (n + body.count + 1) (n + body.count + 2)

def Edge : Block → Nat → Nat → Nat → Nat → Prop
  | done, _, _, _, _ => False
  | atom _ next, cur, n, x, y => (x = cur ∧ y = n) ∨ next.Edge n (n + 1) x y
  | split fst snd next, cur, n, x, y =>
    (fst.Edge cur n x y ∨ snd.Edge cur (n + fst.count) x y) ∨
      ((x = fst.exit cur n ∨ x = snd.exit cur (n + fst.count)) ∧ y = n + fst.count + snd.count) ∨
        next.Edge (n + fst.count + snd.count) (n + fst.count + snd.count + 1) x y
  | loop body next, cur, n, x, y =>
    (x = cur ∧ y = n) ∨
      (body.Edge n (n + 1) x y ∨ (x = body.exit n (n + 1) ∧ y = n)) ∨
        (x = n ∧ y = n + body.count + 1) ∨
          next.Edge (n + body.count + 1) (n + body.count + 2) x y

@[simp] lemma length_cells (b : Block) : b.cells.length = b.count := by
  induction b with
  | done => rfl
  | atom a next ih => simp [cells, count, ih]
  | split fst snd next ihf ihs ihn => simp [cells, count, ihf, ihs, ihn]; omega
  | loop body next ihb ihn => simp [cells, count, ihb, ihn]; omega

lemma cells_of_atom (b : Block) : ∀ cell ∈ b.cells, cell.2.isSome → cell.1 = false := by
  induction b with
  | done => simp [cells]
  | atom a next ih => simpa [cells] using ih
  | split fst snd next ihf ihs ihn =>
    simp only [cells, List.forall_mem_append, List.forall_mem_cons]
    exact ⟨ihf, ihs, fun _ => trivial, ihn⟩
  | loop body next ihb ihn =>
    simp only [cells, List.forall_mem_append, List.forall_mem_cons]
    exact ⟨by simp, ihb, fun _ => trivial, ihn⟩

lemma exit_bounds (b : Block) (cur n : Nat) :
    b.exit cur n = cur ∧ b.count = 0 ∨ n ≤ b.exit cur n ∧ b.exit cur n + 1 = n + b.count := by
  induction b generalizing cur n with
  | done => exact Or.inl ⟨rfl, rfl⟩
  | atom a next ih =>
    have := ih n (n + 1)
    simp only [exit, count]
    omega
  | split fst snd next _ _ ihn =>
    have := ihn (n + fst.count + snd.count) (n + fst.count + snd.count + 1)
    simp only [exit, count]
    omega
  | loop body next _ ihn =>
    have := ihn (n + body.count + 1) (n + body.count + 2)
    simp only [exit, count]
    omega

end Block

namespace Draft

@[simp] lemma nodes_link (d : Draft) (source target : NodeId) :
    (d.link source target).nodes = d.nodes := by
  rw [link]
  split <;> rfl

lemma mem_link {d : Draft} {source target x y : NodeId} :
    (x, y) ∈ (d.link source target).edges ↔ (x, y) ∈ d.edges ∨ x = source ∧ y = target := by
  rw [link]
  split
  · rename_i h
    rw [Array.contains_iff_mem] at h
    constructor
    · exact Or.inl
    · rintro (hxy | ⟨rfl, rfl⟩)
      · exact hxy
      · exact h
  · rw [Array.mem_push, Prod.mk.injEq]

lemma nodup_link {d : Draft} (h : d.edges.toList.Nodup) (source target : NodeId) :
    (d.link source target).edges.toList.Nodup := by
  rw [link]
  split
  · exact h
  · rename_i hnew
    rw [Array.contains_iff_mem, ← Array.mem_toList_iff] at hnew
    rw [Array.toList_push, ← List.concat_eq_append]
    exact h.concat hnew

lemma cells_addNode (d : Draft) (kind : String) (widening : Bool) (atom : Option Atom) :
    (d.addNode kind widening atom).draft.nodes.toList.map Node.cell =
      d.nodes.toList.map Node.cell ++ [(widening, atom)] := by
  simp [addNode, Node.cell]

@[simp] lemma edges_addNode (d : Draft) (kind : String) (widening : Bool) (atom : Option Atom) :
    (d.addNode kind widening atom).draft.edges = d.edges := rfl

structure Places (b : Block) (cur : NodeId) (d : Draft) (result : Placed) : Prop where
  node : result.node = b.exit cur d.nodes.size
  cells : result.draft.nodes.toList.map Node.cell = d.nodes.toList.map Node.cell ++ b.cells
  edges : ∀ x y, (x, y) ∈ result.draft.edges ↔ (x, y) ∈ d.edges ∨ b.Edge cur d.nodes.size x y
  nodup : d.edges.toList.Nodup → result.draft.edges.toList.Nodup

lemma Places.size {b : Block} {cur : NodeId} {d : Draft} {result : Placed}
    (h : Places b cur d result) : result.draft.nodes.size = d.nodes.size + b.count := by
  simpa using congrArg List.length h.cells

lemma lower_places (b : Block) (cur : NodeId) (d : Draft) : Places b cur d (lower b cur d) := by
  induction b generalizing cur d with
  | done => exact ⟨rfl, (List.append_nil _).symm, fun x y => (or_iff_left id).symm, id⟩
  | atom a next ih =>
    let n := d.addNode a.nodeKind false (some a)
    have hnext := ih n.node (n.draft.link cur n.node)
    change Places _ cur d (lower next n.node (n.draft.link cur n.node))
    refine ⟨hnext.node.trans ?_, hnext.cells.trans ?_, fun x y => (hnext.edges x y).trans ?_,
      fun h => hnext.nodup ?_⟩
    · simp [n, Block.exit]
    · simp [n, cells_addNode, Block.cells]
    · simp only [n, node_addNode, nodes_link, size_addNode, mem_link, edges_addNode, Block.Edge,
        or_assoc]
    · have hn : n.draft.edges.toList.Nodup := h
      exact nodup_link hn cur n.node
  | split fst snd next ihf ihs ihn =>
    let endFst := lower fst cur d
    let endSnd := lower snd cur endFst.draft
    let join := endSnd.draft.addNode "split_join" false none
    let joined := (join.draft.link endFst.node join.node).link endSnd.node join.node
    have hfst : Places fst cur d endFst := ihf cur d
    have hsnd : Places snd cur endFst.draft endSnd := ihs cur endFst.draft
    have hnext := ihn join.node joined
    have hsize : endSnd.draft.nodes.size = d.nodes.size + fst.count + snd.count := by
      rw [hsnd.size, hfst.size]
    change Places _ cur d (lower next join.node joined)
    refine ⟨hnext.node.trans ?_, hnext.cells.trans ?_, fun x y => (hnext.edges x y).trans ?_,
      fun h => hnext.nodup ?_⟩
    · simp [join, joined, hsize, Block.exit]
    · simp [join, joined, cells_addNode, hsnd.cells, hfst.cells, Block.cells]
    · simp only [join, joined, node_addNode, nodes_link, size_addNode, hsize, mem_link,
        edges_addNode, hsnd.edges, hfst.edges, hfst.size, hfst.node, hsnd.node, Block.Edge]
      tauto
    · have hjoin : join.draft.edges.toList.Nodup := hsnd.nodup (hfst.nodup h)
      exact nodup_link (nodup_link hjoin endFst.node join.node) endSnd.node join.node
  | loop body next ihb ihn =>
    let head := d.addNode "loop_start" true none
    let endBody := lower body head.node (head.draft.link cur head.node)
    let join := (endBody.draft.link endBody.node head.node).addNode "loop_join" false none
    have hbody : Places body head.node (head.draft.link cur head.node) endBody := ihb _ _
    have hnext := ihn join.node (join.draft.link head.node join.node)
    have hsize : endBody.draft.nodes.size = d.nodes.size + body.count + 1 := by
      rw [hbody.size, nodes_link, size_addNode]
      omega
    change Places _ cur d (lower next join.node (join.draft.link head.node join.node))
    refine ⟨hnext.node.trans ?_, hnext.cells.trans ?_, fun x y => (hnext.edges x y).trans ?_,
      fun h => hnext.nodup ?_⟩
    · simp [join, hsize, Block.exit]
    · simp [join, head, cells_addNode, hbody.cells, Block.cells]
    · simp only [join, head, node_addNode, nodes_link, size_addNode, hsize, mem_link,
        edges_addNode, hbody.edges, hbody.node, Block.Edge]
      tauto
    · have hhead : head.draft.edges.toList.Nodup := h
      have hbodyEnd := hbody.nodup (nodup_link hhead cur head.node)
      have hjoin : join.draft.edges.toList.Nodup := nodup_link hbodyEnd endBody.node head.node
      exact nodup_link hjoin head.node join.node

end Draft

namespace Block

lemma Edge.bounds {b : Block} {cur n x y : Nat} (h : b.Edge cur n x y) :
    (x = cur ∨ n ≤ x ∧ x < n + b.count) ∧ n ≤ y ∧ y < n + b.count := by
  induction b generalizing cur n with
  | done => exact h.elim
  | atom a next ih =>
    rw [count]
    rcases h with h | h
    · omega
    · have := ih h
      omega
  | split fst snd next ihf ihs ihn =>
    have hf := fst.exit_bounds cur n
    have hs := snd.exit_bounds cur (n + fst.count)
    rw [count]
    rcases h with (h | h) | h | h
    · have := ihf h
      omega
    · have := ihs h
      omega
    · omega
    · have := ihn h
      omega
  | loop body next ihb ihn =>
    have hb := body.exit_bounds n (n + 1)
    rw [count]
    rcases h with h | (h | h) | h | h
    · omega
    · have := ihb h
      omega
    · omega
    · omega
    · have := ihn h
      omega

end Block

namespace Graph

lemma places_ofProgram (p : Program) :
    Draft.Places p.body entry (Draft.empty.addNode "start" false none).draft
      (Draft.lower p.body entry (Draft.empty.addNode "start" false none).draft) :=
  Draft.lower_places ..

lemma size_ofProgram (p : Program) : (ofProgram p).size = p.body.count + 1 := by
  have := (places_ofProgram p).size
  rw [Nat.add_comm]
  exact this

lemma exit_ofProgram (p : Program) : p.body.exit 0 1 = (ofProgram p).size - 1 := by
  have := p.body.exit_bounds 0 1
  rw [size_ofProgram]
  omega

lemma cells_ofProgram (p : Program) :
    (ofProgram p).nodes.toList.map Node.cell = (false, none) :: p.body.cells :=
  (places_ofProgram p).cells

lemma cell_mem {p : Program} {n : NodeId} {node : Node}
    (hnode : (ofProgram p).nodes[n]? = some node) :
    node.cell = (false, none) ∨ node.cell ∈ p.body.cells := by
  rw [← List.mem_cons, ← cells_ofProgram]
  exact List.mem_map_of_mem (Array.mem_toList_iff.mpr (Array.mem_of_getElem? hnode))

lemma widening_of_atom {p : Program} {n : NodeId} {node : Node} {a : Atom}
    (hnode : (ofProgram p).nodes[n]? = some node) (hatom : node.atom = some a) :
    node.widening = false := by
  rcases cell_mem hnode with hcell | hcell
  · exact congrArg Prod.fst hcell
  · exact p.body.cells_of_atom _ hcell (by rw [Node.cell, hatom]; rfl)

lemma mem_edges_ofProgram {p : Program} {x y : NodeId} :
    (x, y) ∈ (ofProgram p).edges ↔ p.body.Edge 0 1 x y := by
  have hempty : (x, y) ∉ (Draft.empty.addNode "start" false none).draft.edges :=
    Array.not_mem_empty _
  have := (places_ofProgram p).edges x y
  rw [or_iff_right hempty] at this
  exact this

lemma nodup_edges_ofProgram (p : Program) : (ofProgram p).edges.toList.Nodup :=
  (places_ofProgram p).nodup List.nodup_nil

lemma nodup_predsOf_ofProgram (p : Program) (n : NodeId) : ((ofProgram p).predsOf n).Nodup := by
  refine nodup_adjacency ?_ ((nodup_edges_ofProgram p).map Prod.swap_injective) n
  intro e he
  obtain ⟨e', he', rfl⟩ := List.mem_map.mp he
  exact ((sound_ofProgram p).edges e' (Array.mem_toList_iff.mp he')).2

end Graph

end Tracewise
