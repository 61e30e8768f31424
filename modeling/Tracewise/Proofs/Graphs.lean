import Mathlib.Tactic
import Tracewise.Graph.Lowering

namespace Tracewise

namespace Graph

lemma getD_foldl_adjacency {edges : List Edge} {table : Array (List NodeId)} {a : NodeId}
    (ha : a < table.size) :
    (edges.foldl (fun table e => table.modify e.1 (· ++ [e.2])) table).getD a [] =
      table.getD a [] ++ (edges.filter (·.1 = a)).map Prod.snd := by
  induction edges generalizing table with
  | nil => simp
  | cons e edges ih =>
    have hmodify : (table.modify e.1 (· ++ [e.2])).getD a [] =
        if e.1 = a then table.getD a [] ++ [e.2] else table.getD a [] := by
      simp only [Array.getD_eq_getD_getElem?, Array.getElem?_modify]
      split
      · rw [Array.getElem?_eq_getElem ha]
        rfl
      · rfl
    rw [List.foldl_cons, ih (by rwa [Array.size_modify]), hmodify]
    by_cases he : e.1 = a
    · simp [he]
    · simp [he]

lemma size_adjacency (n : Nat) (edges : List Edge) : (adjacency n edges).size = n := by
  rw [adjacency]
  refine List.foldlRecOn edges _ (motive := fun table => Array.size table = n)
    Array.size_replicate ?_
  intro table htable e _
  rwa [Array.size_modify]

lemma getD_adjacency {n : Nat} {edges : List Edge} (hedges : ∀ e ∈ edges, e.1 < n) (a : NodeId) :
    (adjacency n edges).getD a [] = (edges.filter (·.1 = a)).map Prod.snd := by
  by_cases ha : a < n
  · rw [adjacency, getD_foldl_adjacency (by rwa [Array.size_replicate])]
    simp [Array.getD_eq_getD_getElem?, ha]
  · have hnone : edges.filter (·.1 = a) = [] := by
      rw [List.filter_eq_nil_iff]
      intro e he hea
      exact ha (of_decide_eq_true hea ▸ hedges e he)
    have hge : (adjacency n edges).size ≤ a := by
      rw [size_adjacency]
      exact Nat.le_of_not_lt ha
    rw [hnone, Array.getD_eq_getD_getElem?, Array.getElem?_eq_none hge]
    rfl

lemma mem_adjacency {n : Nat} {edges : List Edge} (hedges : ∀ e ∈ edges, e.1 < n) {a b : NodeId} :
    b ∈ (adjacency n edges).getD a [] ↔ (a, b) ∈ edges := by
  simp [getD_adjacency hedges]

lemma nodup_adjacency {n : Nat} {edges : List Edge} (hedges : ∀ e ∈ edges, e.1 < n)
    (hnodup : edges.Nodup) (a : NodeId) : ((adjacency n edges).getD a []).Nodup := by
  rw [getD_adjacency hedges]
  refine (hnodup.filter _).map_on ?_
  intro e he e' he' heq
  have h : e.1 = a := of_decide_eq_true (List.mem_filter.mp he).2
  have h' : e'.1 = a := of_decide_eq_true (List.mem_filter.mp he').2
  exact Prod.ext (h.trans h'.symm) heq

end Graph

namespace Draft

structure Sound (atoms : List Atom) (d : Draft) : Prop where
  start : ∃ node, d.nodes[Graph.entry]? = some node ∧ node.atom = none
  ids : ∀ (n : NodeId) (node : Node), d.nodes[n]? = some node → node.id = n
  edges : ∀ e ∈ d.edges, e.1 < d.nodes.size ∧ e.2 < d.nodes.size
  atoms : ∀ (n : NodeId) (node : Node) (a : Atom), d.nodes[n]? = some node → node.atom = some a → a ∈ atoms

variable {atoms : List Atom} {d : Draft}

@[simp] lemma size_addNode (d : Draft) (kind : String) (widening : Bool) (atom : Option Atom) :
    (d.addNode kind widening atom).draft.nodes.size = d.nodes.size + 1 := Array.size_push _

@[simp] lemma node_addNode (d : Draft) (kind : String) (widening : Bool) (atom : Option Atom) :
    (d.addNode kind widening atom).node = d.nodes.size := rfl

lemma getElem?_addNode (d : Draft) (kind : String) (widening : Bool) (atom : Option Atom)
    (n : NodeId) :
    (d.addNode kind widening atom).draft.nodes[n]? =
      if n = d.nodes.size then some ⟨d.nodes.size, (d.names.fresh kind).1, widening, atom⟩
      else d.nodes[n]? := Array.getElem?_push

lemma sound_start (atoms : List Atom) : (empty.addNode "start" false none).draft.Sound atoms := by
  refine ⟨⟨_, rfl, rfl⟩, fun n node hnode => ?_, nofun, fun n node a hnode ha => ?_⟩
  · rw [getElem?_addNode] at hnode
    split at hnode
    · rename_i hn
      cases hnode
      exact hn.symm
    · cases hnode
  · rw [getElem?_addNode] at hnode
    split at hnode
    · cases hnode
      cases ha
    · cases hnode

lemma Sound.addNode (h : d.Sound atoms) (kind : String) (widening : Bool) (atom : Option Atom)
    (hatom : ∀ a, atom = some a → a ∈ atoms) : (d.addNode kind widening atom).draft.Sound atoms := by
  refine ⟨?_, fun n node hnode => ?_, fun e he => ?_, fun n node a hnode ha => ?_⟩
  · obtain ⟨node, hnode, hnone⟩ := h.start
    obtain ⟨hlt, _⟩ := Array.getElem?_eq_some_iff.mp hnode
    refine ⟨node, ?_, hnone⟩
    rw [getElem?_addNode, if_neg hlt.ne]
    exact hnode
  · rw [getElem?_addNode] at hnode
    split at hnode
    · rename_i hn
      cases hnode
      exact hn.symm
    · exact h.ids n node hnode
  · rw [size_addNode]
    exact (h.edges e he).imp Nat.lt_succ_of_lt Nat.lt_succ_of_lt
  · rw [getElem?_addNode] at hnode
    split at hnode
    · cases hnode
      exact hatom a ha
    · exact h.atoms n node a hnode ha

@[simp] lemma size_link (d : Draft) (source target : NodeId) :
    (d.link source target).nodes.size = d.nodes.size := by
  rw [link]
  split <;> rfl

lemma Sound.link (h : d.Sound atoms) (source target : NodeId) (hs : source < d.nodes.size)
    (ht : target < d.nodes.size) : (d.link source target).Sound atoms := by
  rw [Draft.link]
  split
  · exact h
  · refine ⟨h.start, h.ids, fun e he => ?_, h.atoms⟩
    rcases Array.mem_push.mp he with he | rfl
    · exact h.edges e he
    · exact ⟨hs, ht⟩

lemma Sound.lower {b : Block} {cur : NodeId} (hb : b.atoms ⊆ atoms) (h : d.Sound atoms)
    (hcur : cur < d.nodes.size) :
    (lower b cur d).draft.Sound atoms ∧
      (lower b cur d).node < (lower b cur d).draft.nodes.size ∧
      d.nodes.size ≤ (lower b cur d).draft.nodes.size := by
  induction b generalizing cur d with
  | done => exact ⟨h, hcur, le_rfl⟩
  | atom a next ih =>
    let n := d.addNode a.nodeKind false (some a)
    have hn : n.draft.Sound atoms := h.addNode _ _ _ fun a' ha' =>
      hb (Option.some.inj ha' ▸ List.mem_cons_self)
    have hnode : n.node < n.draft.nodes.size := by simp [n]
    have hlink := hn.link cur n.node (hcur.trans hnode) hnode
    obtain ⟨hsound, hlast, hle⟩ := ih (fun a' ha' => hb (List.mem_cons_of_mem _ ha')) hlink
      (show n.node < _ by rwa [size_link])
    rw [size_link] at hle
    exact ⟨hsound, hlast, hnode.le.trans hle⟩
  | split fst snd next ihf ihs ihn =>
    let endFst := lower fst cur d
    let endSnd := lower snd cur endFst.draft
    let join := endSnd.draft.addNode "split_join" false none
    obtain ⟨hf, hlastf, hlef⟩ : endFst.draft.Sound atoms ∧ _ ∧ d.nodes.size ≤ _ :=
      ihf (fun a ha => hb (List.mem_append_left _ ha)) h hcur
    obtain ⟨hs, hlasts, hles⟩ : endSnd.draft.Sound atoms ∧ _ ∧ endFst.draft.nodes.size ≤ _ :=
      ihs (fun a ha => hb (List.mem_append_right _ (List.mem_append_left _ ha))) hf
        (hcur.trans_le hlef)
    have hjoin : join.draft.Sound atoms := hs.addNode _ _ _ nofun
    have hnode : join.node < join.draft.nodes.size := by simp [join]
    have hlinkf := hjoin.link endFst.node join.node ((hlastf.trans_le hles).trans hnode) hnode
    have hlinks := hlinkf.link endSnd.node join.node
      (by rw [size_link]; exact hlasts.trans hnode) (by rwa [size_link])
    obtain ⟨hsound, hlast, hle⟩ := ihn
      (fun a ha => hb (List.mem_append_right _ (List.mem_append_right _ ha))) hlinks
      (show join.node < _ by rwa [size_link, size_link])
    rw [size_link, size_link] at hle
    exact ⟨hsound, hlast, ((hlef.trans hles).trans hnode.le).trans hle⟩
  | loop body next ihb ihn =>
    let head := d.addNode "loop_start" true none
    let endBody := lower body head.node (head.draft.link cur head.node)
    let join := (endBody.draft.link endBody.node head.node).addNode "loop_join" false none
    have hhead : head.draft.Sound atoms := h.addNode _ _ _ nofun
    have hnode : head.node < head.draft.nodes.size := by simp [head]
    have henter := hhead.link cur head.node (hcur.trans hnode) hnode
    obtain ⟨hbody, hlastb, hleb⟩ : endBody.draft.Sound atoms ∧ _ ∧ _ ≤ endBody.draft.nodes.size :=
      ihb (fun a ha => hb (List.mem_append_left _ ha)) henter (by rwa [size_link])
    rw [size_link] at hleb
    have hback := hbody.link endBody.node head.node hlastb (hnode.trans_le hleb)
    have hjoin : join.draft.Sound atoms := hback.addNode _ _ _ nofun
    have hlastj : join.node < join.draft.nodes.size := by simp [join]
    have hlej : endBody.draft.nodes.size ≤ join.draft.nodes.size := by simp [join]
    have hexit := hjoin.link head.node join.node ((hnode.trans_le hleb).trans_le hlej) hlastj
    obtain ⟨hsound, hlast, hle⟩ := ihn (fun a ha => hb (List.mem_append_right _ ha)) hexit
      (show join.node < _ by rwa [size_link])
    rw [size_link] at hle
    exact ⟨hsound, hlast, ((hnode.le.trans hleb).trans hlej).trans hle⟩

lemma sound_ofBlock (b : Block) : (ofBlock b).Sound b.atoms :=
  ((sound_start b.atoms).lower (List.Subset.refl _)
    (show (empty.addNode "start" false none).node < _ by simp)).1

end Draft

namespace Graph

structure Sound (g : Graph) : Prop where
  start : ∃ node, g.nodes[entry]? = some node ∧ node.atom = none
  edges : ∀ e ∈ g.edges, e.1 < g.size ∧ e.2 < g.size
  ids : ∀ (n : NodeId) (node : Node), g.nodes[n]? = some node → node.id = n
  succs : ∀ a b, b ∈ g.succsOf a ↔ (a, b) ∈ g.edges
  preds : ∀ a b, a ∈ g.predsOf b ↔ (a, b) ∈ g.edges
  atoms : ∀ (n : NodeId) (node : Node) (a : Atom), g.nodes[n]? = some node →
    node.atom = some a → a ∈ g.program.body.atoms

theorem sound_ofProgram (p : Program) : (ofProgram p).Sound := by
  have hdraft := Draft.sound_ofBlock p.body
  refine ⟨hdraft.start, hdraft.edges, hdraft.ids, fun a b => ?_, fun a b => ?_, hdraft.atoms⟩
  · rw [← Array.mem_toList_iff]
    exact mem_adjacency fun e he => (hdraft.edges e (Array.mem_toList_iff.mp he)).1
  · have hswap : (b, a) ∈ (ofProgram p).edges.toList.map Prod.swap ↔ (a, b) ∈ (ofProgram p).edges := by
      rw [List.mem_map, ← Array.mem_toList_iff]
      constructor
      · rintro ⟨e, he, heq⟩
        rw [← Prod.swap_swap e, heq] at he
        exact he
      · intro he
        exact ⟨(a, b), he, rfl⟩
    rw [← hswap]
    refine mem_adjacency fun e he => ?_
    obtain ⟨e', he', rfl⟩ := List.mem_map.mp he
    exact (hdraft.edges e' (Array.mem_toList_iff.mp he')).2

end Graph

end Tracewise
