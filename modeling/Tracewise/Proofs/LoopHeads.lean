import Tracewise.Proofs.Nesting

namespace Tracewise

namespace Draft

inductive IsKind : String → Bool → Prop
  | start : IsKind "start" false
  | atom (a : Atom) : IsKind a.nodeKind false
  | splitJoin : IsKind "split_join" false
  | loopStart : IsKind "loop_start" true
  | loopJoin : IsKind "loop_join" false

lemma lower_induction {P : Draft → Prop}
    (hnode : ∀ d kind widening atom, P d → IsKind kind widening →
      P (d.addNode kind widening atom).draft)
    (hlink : ∀ d source target, P d → P (d.link source target)) (b : Block) (cur : NodeId)
    {d : Draft} (h : P d) : P (lower b cur d).draft := by
  induction b generalizing cur d with
  | done => exact h
  | atom a next ih =>
    apply ih
    apply hlink
    exact hnode _ _ _ _ h (.atom a)
  | split fst snd next ihf ihs ihn =>
    apply ihn
    apply hlink
    apply hlink
    exact hnode _ _ _ _ (ihs cur (ihf cur h)) .splitJoin
  | loop body next ihb ihn =>
    apply ihn
    apply hlink
    refine hnode _ _ _ _ ?_ .loopJoin
    apply hlink
    apply ihb
    apply hlink
    exact hnode _ _ _ _ h .loopStart

def Labelled (d : Draft) : Prop :=
  ∀ node ∈ d.nodes, ∃ kind i, IsKind kind node.widening ∧ node.name = kind ++ toString (i : Nat)

lemma Labelled.addNode {d : Draft} (h : d.Labelled) {kind : String} {widening : Bool}
    (hkind : IsKind kind widening) (atom : Option Atom) :
    (d.addNode kind widening atom).draft.Labelled := by
  intro node hnode
  rcases Array.mem_push.mp hnode with hnode | rfl
  · exact h node hnode
  · exact ⟨kind, d.names.count kind, hkind, rfl⟩

lemma labelled_ofBlock (b : Block) : (ofBlock b).Labelled := by
  refine lower_induction (P := Labelled) ?_ ?_ b _ ?_
  · intro d kind widening atom h hkind
    exact h.addNode hkind atom
  · intro d source target h
    simpa [Labelled] using h
  · exact Labelled.addNode (d := empty) (by simp [Labelled, empty]) .start none

lemma IsKind.widening_of_name {kind : String} {widening : Bool} (h : IsKind kind widening)
    {i j : Nat} (hname : kind ++ toString i = "loop_start" ++ toString j) : widening = true := by
  have hchars := congrArg String.toList hname
  simp only [String.toList_append] at hchars
  cases h with
  | start => simp at hchars
  | atom a => cases a <;> simp [Atom.nodeKind] at hchars
  | splitJoin => simp at hchars
  | loopStart => rfl
  | loopJoin => simp at hchars

end Draft

namespace Block

variable {b : Block} {n : Nat}

lemma heads_eq (b : Block) (n : Nat) :
    ((b.cells.zipIdx n).filter (·.1.1)).map Prod.snd = (b.loops n).map Prod.fst := by
  induction b generalizing n with
  | done => rfl
  | atom a next ih => simp [cells, loops, ih]
  | split fst snd next ihf ihs ihn =>
    simp [cells, loops, List.zipIdx_append, List.filter_append, ihf, ihs, ihn]
  | loop body next ihb ihn =>
    have hjoin : n + 1 + body.count + 1 = n + body.count + 2 := by omega
    simp [cells, loops, List.zipIdx_append, List.filter_append, ihb, ihn, hjoin]

lemma cells_body {head : Nat} {body : Block} (h : (head, body) ∈ b.loops n) :
    ∃ before after, b.cells = before ++ (true, none) :: (body.cells ++ after) ∧
      head = n + before.length := by
  induction b generalizing n with
  | done => cases h
  | atom a next ih =>
    obtain ⟨before, after, hcells, hhead⟩ := ih h
    refine ⟨(false, some a) :: before, after, by simp [cells, hcells], ?_⟩
    rw [hhead, List.length_cons]
    omega
  | split fst snd next ihf ihs ihn =>
    rcases mem_loops_split.mp h with h | h | h
    · obtain ⟨before, after, hcells, hhead⟩ := ihf h
      exact ⟨before, after ++ (snd.cells ++ (false, none) :: next.cells), by simp [cells, hcells],
        hhead⟩
    · obtain ⟨before, after, hcells, hhead⟩ := ihs h
      refine ⟨fst.cells ++ before, after ++ (false, none) :: next.cells,
        by simp [cells, hcells], ?_⟩
      simp [hhead, Nat.add_assoc]
    · obtain ⟨before, after, hcells, hhead⟩ := ihn h
      refine ⟨fst.cells ++ (snd.cells ++ (false, none) :: before), after,
        by simp [cells, hcells], ?_⟩
      simp only [hhead, List.length_append, List.length_cons, length_cells]
      omega
  | loop body' next ihb ihn =>
    rcases mem_loops_loop.mp h with ⟨rfl, rfl⟩ | h | h
    · exact ⟨[], (false, none) :: next.cells, rfl, rfl⟩
    · obtain ⟨before, after, hcells, hhead⟩ := ihb h
      refine ⟨(true, none) :: before, after ++ (false, none) :: next.cells,
        by simp [cells, hcells], ?_⟩
      rw [hhead, List.length_cons]
      omega
    · obtain ⟨before, after, hcells, hhead⟩ := ihn h
      refine ⟨(true, none) :: (body'.cells ++ (false, none) :: before), after,
        by simp [cells, hcells], ?_⟩
      simp only [hhead, List.length_append, List.length_cons, length_cells]
      omega

end Block

namespace Graph

lemma cells_zipIdx (p : Program) :
    (ofProgram p).nodes.toList.map (fun node => (node.cell, node.id)) =
      ((false, none) :: p.body.cells).zipIdx := by
  rw [← cells_ofProgram]
  apply List.ext_getElem?
  intro i
  rw [List.getElem?_map, List.getElem?_zipIdx, List.getElem?_map, Array.getElem?_toList]
  cases hnode : (ofProgram p).nodes[i]? with
  | none => rfl
  | some node => simp [(sound_ofProgram p).ids i node hnode]

lemma heads_ofProgram (p : Program) :
    ((ofProgram p).nodes.toList.filter Node.widening).map Node.id =
      (p.body.loops 1).map Prod.fst := by
  have hzip := congrArg (fun l => (l.filter (·.1.1)).map Prod.snd) (cells_zipIdx p)
  simpa [List.filter_map, Function.comp_def, Node.cell, Block.heads_eq] using hzip

lemma cells_behind_head {p : Program} {head : NodeId} {body : Block}
    (h : (head, body) ∈ p.body.loops 1) :
    (((ofProgram p).nodes.toList.map Node.cell).drop (head + 1)).take body.count = body.cells := by
  obtain ⟨before, after, hcells, rfl⟩ := Block.cells_body h
  have hsplit : (ofProgram p).nodes.toList.map Node.cell =
      ((false, none) :: before ++ [(true, none)]) ++ (body.cells ++ after) := by
    simp [cells_ofProgram, hcells]
  rw [hsplit, List.drop_left' (by simp [Nat.add_comm]), List.take_left' body.length_cells]

lemma widening_iff_name {p : Program} {node : Node} (hnode : node ∈ (ofProgram p).nodes) :
    node.widening = true ↔ ∃ i : Nat, node.name = "loop_start" ++ toString i := by
  obtain ⟨kind, i, hkind, hname⟩ := Draft.labelled_ofBlock p.body node hnode
  constructor
  · intro hwidening
    rw [hwidening] at hkind
    cases hkind
    exact ⟨i, hname⟩
  · rintro ⟨j, hj⟩
    exact hkind.widening_of_name (hname.symm.trans hj)

lemma lt_or_loop {p : Program} {u v : Nat} (h : (u, v) ∈ (ofProgram p).edges) :
    u < v ∨ ∃ body, (v, body) ∈ p.body.loops 1 ∧ u = v + body.count :=
  (mem_edges_ofProgram.mp h).lt_or_mem_loops Nat.zero_lt_one

lemma lt_or_widening {p : Program} {u v : Nat} (h : (u, v) ∈ (ofProgram p).edges) :
    u < v ∨ ∃ node ∈ (ofProgram p).nodes, node.widening = true ∧ node.id = v := by
  refine (lt_or_loop h).imp_right ?_
  rintro ⟨body, hbody, _⟩
  have hv : v ∈ ((ofProgram p).nodes.toList.filter Node.widening).map Node.id := by
    rw [heads_ofProgram]
    exact List.mem_map_of_mem hbody
  obtain ⟨node, hnode, rfl⟩ := List.mem_map.mp hv
  obtain ⟨hnode, hwidening⟩ := List.mem_filter.mp hnode
  exact ⟨node, Array.mem_toList_iff.mp hnode, hwidening, rfl⟩

lemma exists_widening_of_cycle {p : Program} {n : Nat} {path : List Nat}
    (h : (n :: (path ++ [n])).IsChain fun u v => (u, v) ∈ (ofProgram p).edges) :
    ∃ node ∈ (ofProgram p).nodes, node.widening = true ∧ node.id ∈ n :: path := by
  by_contra hnone
  have hasc : (n :: (path ++ [n])).IsChain (· < ·) := by
    refine h.imp_of_mem_tail_imp fun u v _ hv huv => ?_
    apply (lt_or_widening huv).resolve_right
    rintro ⟨node, hnode, hwidening, rfl⟩
    refine hnone ⟨node, hnode, hwidening, ?_⟩
    simpa [or_comm] using hv
  have hlt := (List.pairwise_cons.mp (List.isChain_iff_pairwise.mp hasc)).1 n
  exact lt_irrefl n (hlt (List.mem_append_right _ (List.mem_singleton_self n)))

/-- The loops have their heads at the widening points, each with the nodes of its body behind it. An
edge that does not go on in the numbering comes to such a head, from the last node of the body, or
from the head itself if the body is empty; so every cycle passes a widening point. -/
theorem cycles_pass_loop_heads (p : Program) :
    (∀ u v, (u, v) ∈ (ofProgram p).edges → u < v ∨
      ∃ body, (v, body) ∈ p.body.loops 1 ∧ u = v + body.count) ∧
    (∀ head body, (head, body) ∈ p.body.loops 1 →
      (((ofProgram p).nodes.toList.map Node.cell).drop (head + 1)).take body.count = body.cells) ∧
    ((ofProgram p).nodes.toList.filter Node.widening).map Node.id =
      (p.body.loops 1).map Prod.fst ∧
    (∀ node ∈ (ofProgram p).nodes,
      node.widening = true ↔ ∃ i : Nat, node.name = "loop_start" ++ toString i) ∧
    ∀ n path, (n :: (path ++ [n])).IsChain (fun u v => (u, v) ∈ (ofProgram p).edges) →
      ∃ node ∈ (ofProgram p).nodes, node.widening = true ∧ node.id ∈ n :: path :=
  ⟨fun _ _ => lt_or_loop, fun _ _ => cells_behind_head, heads_ofProgram p,
    fun _ => widening_iff_name, fun _ _ => exists_widening_of_cycle⟩

end Graph

end Tracewise
