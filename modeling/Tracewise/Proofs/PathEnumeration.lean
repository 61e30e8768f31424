import Tracewise.Proofs.Behaviours
import Tracewise.Proofs.Fixpoint

/-! Programs without loops. If partitions are merged only when their traces visit the same nodes,
each partition after a node belongs to one of the paths to the node. -/

namespace Tracewise

open Fallible Tracewise.Partition

namespace Block

def LoopFree : Block → Prop
  | done => True
  | atom _ next => next.LoopFree
  | split fst snd next => fst.LoopFree ∧ snd.LoopFree ∧ next.LoopFree
  | loop _ _ => False

lemma LoopFree.edge_lt {b : Block} {cur n x y : Nat} (hb : b.LoopFree) (hcur : cur < n)
    (h : b.Edge cur n x y) : x < y := by
  induction b generalizing cur n with
  | done => exact h.elim
  | atom a next ih =>
    rcases h with h | h
    · omega
    · exact ih hb n.lt_succ_self h
  | split fst snd next ihf ihs ihn =>
    have hf := fst.exit_bounds cur n
    have hs := snd.exit_bounds cur (n + fst.count)
    rcases h with (h | h) | h | h
    · exact ihf hb.1 hcur h
    · exact ihs hb.2.1 (hcur.trans_le (Nat.le_add_right _ _)) h
    · omega
    · exact ihn hb.2.2 (Nat.lt_succ_self _) h
  | loop body next _ _ => exact hb.elim

lemma LoopFree.ascending {p : Program} (hp : p.body.LoopFree) {x y : NodeId}
    (h : (x, y) ∈ (Graph.ofProgram p).edges) : x < y :=
  hp.edge_lt Nat.zero_lt_one (Graph.mem_edges_ofProgram.mp h)

lemma LoopFree.cells {b : Block} (hb : b.LoopFree) : ∀ cell ∈ b.cells, cell.1 = false := by
  induction b with
  | done => exact nofun
  | atom a next ih => exact List.forall_mem_cons.mpr ⟨rfl, ih hb⟩
  | split fst snd next ihf ihs ihn =>
    simp only [Block.cells, List.forall_mem_append, List.forall_mem_cons]
    exact ⟨ihf hb.1, ihs hb.2.1, trivial, ihn hb.2.2⟩
  | loop body next _ _ => exact hb.elim

end Block

namespace Trace

lemma nodes_eq_of_sameNodes {t u : Trace} (ht : t.nodes.Pairwise (· < ·))
    (hu : u.nodes.Pairwise (· < ·)) (h : t.sameNodes u = true) : t.nodes = u.nodes :=
  (perm_of_sameNodes ht.nodup h).eq_of_pairwise' ht hu

end Trace

namespace MergeRule

variable {m : Model} {rule : MergeRule}

lemma folds_eq_sameNodes (hrule : rule = never ∨ rule = traceEqual) (p q : Partition) :
    rule.folds m p q = .ok (p.trace.sameNodes q.trace) := by
  rw [folds]
  rcases hrule with rfl | rfl
  · split
    · rename_i h
      rw [h]
    · rename_i h
      rw [Bool.eq_false_of_not_eq_true h]
      rfl
  · split
    · rename_i h
      rw [h]
    · rfl

lemma mergeAll_of_apart (hrule : rule = never ∨ rule = traceEqual) {parts : List Partition}
    (h : Apart parts) : rule.mergeAll m parts = .ok parts := by
  refine mergeAll_of_settled (h.imp fun hsame => ?_)
  rw [folds_eq_sameNodes hrule, hsame]

end MergeRule

namespace Graph

/-- The environment after a path, from the one before it: none if the path cannot be followed. -/
def carry (g : Graph) (m : Model) (path : List NodeId) (env : Env) : Except Fault (Option Env) :=
  path.foldlM (fun env n => match env with
    | some env => m.transfer (g.atomOf n) env
    | none => .ok none) (some env)

lemma carry_concat (g : Graph) (m : Model) (path : List NodeId) (n : NodeId) (env : Env) :
    g.carry m (path ++ [n]) env = (do
      match ← g.carry m path env with
      | some env => m.transfer (g.atomOf n) env
      | none => .ok none) := by
  rw [carry, List.foldlM_append]
  refine bind_congr fun result => ?_
  rw [List.foldlM_cons]
  cases result with
  | none => rfl
  | some env => exact bind_pure _

def Carries (g : Graph) (m : Model) (env : Env) (path : List NodeId) (part : Partition) : Prop :=
  part.trace.nodes = path ∧ g.carry m path env = .ok (some part.env)

/-- A list of partitions, one for each path to a node that can be followed. Its trace is the path,
and its environment what the statements of the path make of the first one. -/
structure Enumerates (g : Graph) (m : Model) (env : Env) (n : NodeId) (paths : List (List NodeId))
    (parts : List Partition) : Prop where
  nodup : paths.Nodup
  mem : ∀ path, path ∈ paths ↔ g.IsPath path n ∧ g.carry m path env ≠ .ok none
  parts : List.Forall₂ (g.Carries m env) paths parts

section Ascending

variable {g : Graph} {path : List NodeId} {n : NodeId}

lemma IsPath.concat {k : NodeId} (h : g.IsPath path k) (hedge : (k, n) ∈ g.edges) :
    g.IsPath (path ++ [n]) n := by
  refine ⟨?_, List.getLast?_concat .., ?_⟩
  · rw [List.head?_append, h.head]
    rfl
  · refine List.isChain_append.mpr ⟨h.edges, List.isChain_singleton _, ?_⟩
    intro x hx y hy
    rw [h.last] at hx
    cases hx
    cases hy
    exact hedge

lemma IsPath.exists_concat (h : g.IsPath path n) (hn : n ≠ entry) :
    ∃ before k, g.IsPath before k ∧ (k, n) ∈ g.edges ∧ path = before ++ [n] := by
  obtain ⟨before, rfl⟩ := List.getLast?_eq_some_iff.mp h.last
  obtain ⟨hbefore, _, hedge⟩ := List.isChain_append.mp h.edges
  have hhead := h.head
  rw [List.head?_append] at hhead
  cases hlast : before.getLast? with
  | none =>
    rw [List.getLast?_eq_none_iff.mp hlast] at hhead
    exact absurd (Option.some.inj hhead) hn
  | some k =>
    have hne : before ≠ [] := by
      rintro rfl
      cases hlast
    rw [List.head?_eq_some_head hne, Option.some_or, ← List.head?_eq_some_head hne] at hhead
    exact ⟨before, k, ⟨hhead, hlast, hbefore⟩, hedge k hlast n rfl, rfl⟩

lemma isPath_entry : g.IsPath [entry] entry := ⟨rfl, rfl, List.isChain_singleton _⟩

variable (hasc : ∀ x y, (x, y) ∈ g.edges → x < y)

include hasc

lemma IsPath.pairwise (h : g.IsPath path n) : path.Pairwise (· < ·) :=
  List.isChain_iff_pairwise.mp (h.edges.imp fun {x y} => hasc x y)

lemma IsPath.le (h : g.IsPath path n) : ∀ k ∈ path, k ≤ n := by
  have hpair := h.pairwise hasc
  obtain ⟨before, rfl⟩ := List.getLast?_eq_some_iff.mp h.last
  intro k hk
  rcases List.mem_append.mp hk with hk | hk
  · exact ((List.pairwise_append.mp hpair).2.2 k hk n List.mem_cons_self).le
  · exact (List.mem_singleton.mp hk).le

lemma IsPath.eq_of_entry (h : g.IsPath path entry) : path = [entry] := by
  have hpair := h.pairwise hasc
  obtain ⟨rest, rfl⟩ := List.head?_eq_some_iff.mp h.head
  cases rest with
  | nil => rfl
  | cons k rest =>
    have hlt := (List.pairwise_cons.mp hpair).1 k List.mem_cons_self
    exact absurd (h.le hasc k (List.mem_cons_of_mem _ List.mem_cons_self)) hlt.not_ge

end Ascending

end Graph

namespace Engine

variable {E : Engine} {s s' : Progress}

structure Settled (E : Engine) (s : Progress) : Prop where
  sized : E.Sized s
  recompute : ∀ (n : NodeId) (node : Node), E.graph.nodes[n]? = some node → n ∉ s.worklist →
    E.recompute s node = .ok (s.stateOf n)

lemma recompute_of_incoming {node : Node} (hnode : node.widening = false)
    (h : E.incoming s' node.id = E.incoming s node.id) :
    E.recompute s' node = E.recompute s node := by
  rw [recompute, recompute, h, hnode]
  rfl

structure Enumerating (E : Engine) : Prop where
  graph : E.graph.Sound
  ascending : ∀ x y, (x, y) ∈ E.graph.edges → x < y
  preds : ∀ n, (E.graph.predsOf n).Nodup
  nodes : ∀ (n : NodeId) (node : Node), E.graph.nodes[n]? = some node → node.widening = false
  rule : E.rule = .never ∨ E.rule = .traceEqual

lemma Settled.step (hE : E.Enumerating) (hs : E.Settled s) (h : E.step s = .ok (some s')) :
    E.Settled s' := by
  obtain ⟨n, node, state, hvisits, hstates, hcounts⟩ := hs.sized.step h
  refine ⟨⟨hstates, hcounts, hvisits.sized hE.graph hs.sized⟩, fun k node' hnode' hk => ?_⟩
  have hid := hE.graph.ids k node' hnode'
  have hincoming : E.incoming s' node'.id = E.incoming s node'.id :=
    incoming_congr fun j hj => hvisits.stateOf_pred hE.graph hk (hid ▸ hj)
  rw [recompute_of_incoming (hE.nodes k node' hnode') hincoming]
  by_cases hkn : k = n
  · subst hkn
    obtain rfl := Option.some.inj (hvisits.lookup.symm.trans hnode')
    rw [hvisits.stateOf_self]
    exact hvisits.recompute
  · rw [hvisits.stateOf_other hkn]
    exact hs.recompute k node' hnode' (hvisits.not_mem_worklist hkn hk)

lemma pass_carries {n : NodeId} {node : Node} (hnode : E.graph.nodes[n]? = some node)
    (hid : node.id = n) {path : List NodeId} {part : Partition}
    (hpart : E.graph.Carries E.model E.startEnv path part) (hn : n ∉ path)
    {result : Option Partition} (h : E.pass node part = .ok result) :
    result = none ∧ E.graph.carry E.model (path ++ [n]) E.startEnv = .ok none ∨
      ∃ part', result = some part' ∧ E.graph.Carries E.model E.startEnv (path ++ [n]) part' := by
  obtain ⟨env, henv, h⟩ := bind_eq_ok h
  cases h
  have hcarry : E.graph.carry E.model (path ++ [n]) E.startEnv = .ok env := by
    have hatom : E.graph.atomOf n = node.atom := by
      rw [Graph.atomOf, hnode]
      rfl
    rw [Graph.carry_concat, hpart.2, ok_bind, hatom]
    exact henv
  cases env with
  | none => exact Or.inl ⟨rfl, hcarry⟩
  | some env =>
    refine Or.inr ⟨_, rfl, ?_, hcarry⟩
    rw [hid, Trace.extend_of_not_mem (hpart.1 ▸ hn), hpart.1]

def follows (E : Engine) (path : List NodeId) : Bool :=
  match E.graph.carry E.model path E.startEnv with
  | .ok none => false
  | _ => true

lemma follows_iff {path : List NodeId} :
    E.follows path = true ↔ E.graph.carry E.model path E.startEnv ≠ .ok none := by
  rw [follows]
  split
  · rename_i h
    rw [h]
    exact ⟨nofun, fun hne => absurd rfl hne⟩
  · rename_i h
    exact ⟨fun _ => h, fun _ => rfl⟩

lemma outgoing_carries {n : NodeId} {node : Node} (hnode : E.graph.nodes[n]? = some node)
    (hid : node.id = n) {paths : List (List NodeId)} {parts outgoing : List Partition}
    (hparts : List.Forall₂ (E.graph.Carries E.model E.startEnv) paths parts)
    (hn : ∀ path ∈ paths, n ∉ path) (h : parts.filterMapM (E.pass node) = .ok outgoing) :
    List.Forall₂ (E.graph.Carries E.model E.startEnv)
      ((paths.map (· ++ [n])).filter E.follows) outgoing := by
  induction hparts generalizing outgoing with
  | nil =>
    cases h
    exact .nil
  | @cons path part paths parts hpart _ ih =>
    rw [List.filterMapM_cons] at h
    obtain ⟨result, hresult, h⟩ := bind_eq_ok h
    have hrest : ∀ path ∈ paths, n ∉ path := fun path hpath => hn path (List.mem_cons_of_mem _ hpath)
    rw [List.map_cons]
    rcases pass_carries hnode hid hpart (hn path List.mem_cons_self) hresult with
      ⟨rfl, hcarry⟩ | ⟨part', rfl, hcarries⟩
    · rw [List.filter_cons_of_neg]
      · exact ih hrest h
      · rw [follows_iff, not_not]
        exact hcarry
    · obtain ⟨others, hothers, h⟩ := bind_eq_ok h
      cases h
      rw [List.filter_cons_of_pos]
      · exact .cons hcarries (ih hrest hothers)
      · rw [follows_iff, hcarries.2]
        exact nofun

lemma apart_of_forall₂ {R : List NodeId → Partition → Prop} {paths : List (List NodeId)}
    {parts : List Partition} (hR : ∀ path part, R path part → part.trace.nodes = path)
    (hnodup : paths.Nodup) (hsorted : ∀ path ∈ paths, path.Pairwise (· < ·))
    (h : List.Forall₂ R paths parts) : Apart parts := by
  induction h with
  | nil => exact .nil
  | @cons path part paths parts hpart hrest ih =>
    obtain ⟨hpath, hnodup⟩ := List.nodup_cons.mp hnodup
    obtain ⟨hsort, hsorted⟩ := List.forall_mem_cons.mp hsorted
    refine List.pairwise_cons.mpr ⟨fun q hq => ?_, ih hnodup hsorted⟩
    obtain ⟨path', hpath', hq⟩ := exists_of_forall₂ hrest.flip hq
    by_contra hsame
    have heq := Trace.nodes_eq_of_sameNodes ((hR _ _ hpart).symm ▸ hsort)
      ((hR _ _ hq).symm ▸ hsorted path' hpath') (Bool.eq_true_of_not_eq_false hsame)
    rw [hR _ _ hpart, hR _ _ hq] at heq
    exact hpath (heq ▸ hpath')

namespace Enumerating

variable {n : NodeId}

lemma arrivals_entry (hE : E.Enumerating) (s : Progress) :
    E.incoming s Graph.entry = [⟨.empty, E.startEnv⟩] := by
  have hpreds : E.graph.predsOf Graph.entry = [] := by
    rw [List.eq_nil_iff_forall_not_mem]
    intro k hk
    exact absurd (hE.ascending k _ ((hE.graph.preds k _).mp hk)) (Nat.not_lt_zero k)
  rw [incoming, if_pos rfl, hpreds]
  rfl

lemma arrivals (hE : E.Enumerating)
    (ih : ∀ k < n, ∃ paths, E.graph.Enumerates E.model E.startEnv k paths (s.stateOf k)) :
    ∃ paths : List (List NodeId), paths.Nodup ∧
      (∀ path, path ∈ paths ↔ E.graph.IsPath (path ++ [n]) n ∧
        E.graph.carry E.model path E.startEnv ≠ .ok none) ∧
      List.Forall₂ (E.graph.Carries E.model E.startEnv) paths (E.incoming s n) := by
  by_cases hn : n = Graph.entry
  · subst hn
    refine ⟨[[]], List.nodup_singleton _, fun path => ?_, ?_⟩
    · rw [List.mem_singleton]
      constructor
      · rintro rfl
        exact ⟨Graph.isPath_entry, nofun⟩
      · rintro ⟨hpath, _⟩
        exact List.append_cancel_right (hpath.eq_of_entry hE.ascending)
    · rw [hE.arrivals_entry]
      exact .cons ⟨rfl, rfl⟩ .nil
  · have hpreds : ∀ k ∈ E.graph.predsOf n, k < n := fun k hk =>
      hE.ascending k n ((hE.graph.preds k n).mp hk)
    have hpaths : ∀ k, ∃ paths, k < n →
        E.graph.Enumerates E.model E.startEnv k paths (s.stateOf k) := by
      intro k
      by_cases hk : k < n
      · obtain ⟨paths, hpaths⟩ := ih k hk
        exact ⟨paths, fun _ => hpaths⟩
      · exact ⟨[], fun h => absurd h hk⟩
    choose paths hpaths using hpaths
    refine ⟨(E.graph.predsOf n).flatMap paths, ?_, fun path => ?_, ?_⟩
    · refine List.nodup_flatMap.mpr ⟨fun k hk => (hpaths k (hpreds k hk)).nodup, ?_⟩
      refine (hE.preds n).imp_of_mem fun {j k} hj hk hjk path hpathj hpathk => ?_
      have hlastj := (((hpaths j (hpreds j hj)).mem path).mp hpathj).1.last
      have hlastk := (((hpaths k (hpreds k hk)).mem path).mp hpathk).1.last
      exact hjk (Option.some.inj (hlastj.symm.trans hlastk))
    · rw [List.mem_flatMap]
      constructor
      · rintro ⟨k, hk, hpath⟩
        obtain ⟨hpath, hcarry⟩ := ((hpaths k (hpreds k hk)).mem path).mp hpath
        exact ⟨hpath.concat ((hE.graph.preds k n).mp hk), hcarry⟩
      · rintro ⟨hpath, hcarry⟩
        obtain ⟨before, k, hbefore, hedge, heq⟩ := hpath.exists_concat hn
        obtain rfl := List.append_cancel_right heq
        have hk := (hE.graph.preds k n).mpr hedge
        exact ⟨k, hk, ((hpaths k (hpreds k hk)).mem path).mpr ⟨hbefore, hcarry⟩⟩
    · rw [incoming, if_neg hn]
      exact forall₂_flatMap fun k hk => (hpaths k (hpreds k hk)).parts

lemma node_of_isPath (hE : E.Enumerating) {path : List NodeId} (h : E.graph.IsPath path n) :
    n < E.graph.size := by
  by_cases hn : n = Graph.entry
  · obtain ⟨_, hstart, _⟩ := hE.graph.start
    obtain ⟨hlt, _⟩ := Array.getElem?_eq_some_iff.mp hstart
    rw [hn]
    exact hlt
  · obtain ⟨_, k, _, hedge, _⟩ := h.exists_concat hn
    exact (hE.graph.edges _ hedge).2

theorem enumerates (hE : E.Enumerating) (hs : E.Settled s) (hdone : s.worklist = []) (n : NodeId) :
    ∃ paths, E.graph.Enumerates E.model E.startEnv n paths (s.stateOf n) := by
  induction n using Nat.strong_induction_on with
  | h n ih =>
    by_cases hn : n < E.graph.size
    · have hnode : E.graph.nodes[n]? = some E.graph.nodes[n] := Array.getElem?_eq_getElem hn
      have hid := hE.graph.ids n _ hnode
      have hsettled := hs.recompute n _ hnode (hdone ▸ List.not_mem_nil)
      obtain ⟨outgoing, merged, houtgoing, hmerged, hstate⟩ := recompute_eq_ok hsettled
      rw [hE.nodes n _ hnode, if_neg Bool.false_ne_true] at hstate
      subst hstate
      rw [hid] at houtgoing
      obtain ⟨arrivals, hnodup, hmem, hparts⟩ := hE.arrivals ih
      have hsorted : ∀ path ∈ arrivals, (path ++ [n]).Pairwise (· < ·) := fun path hpath =>
        ((hmem path).mp hpath).1.pairwise hE.ascending
      have hfresh : ∀ path ∈ arrivals, n ∉ path := fun path hpath hn =>
        lt_irrefl n ((List.pairwise_append.mp (hsorted path hpath)).2.2 n hn n List.mem_cons_self)
      have hout := outgoing_carries hnode hid hparts hfresh houtgoing
      have hpaths : ((arrivals.map (· ++ [n])).filter E.follows).Nodup :=
        (hnodup.map fun _ _ h => List.append_cancel_right h).filter _
      have hapart : Apart outgoing := by
        refine apart_of_forall₂ (fun _ _ h => h.1) hpaths (fun path hpath => ?_) hout
        obtain ⟨before, hbefore, rfl⟩ := List.mem_map.mp (List.mem_filter.mp hpath).1
        exact hsorted before hbefore
      rw [MergeRule.mergeAll_of_apart hE.rule hapart] at hmerged
      cases hmerged
      refine ⟨_, hpaths, fun path => ?_, hout⟩
      rw [List.mem_filter, List.mem_map, follows_iff]
      refine and_congr_left fun hcarry => ⟨?_, fun hpath => ?_⟩
      · rintro ⟨before, hbefore, rfl⟩
        exact ((hmem before).mp hbefore).1
      · obtain ⟨before, rfl⟩ := List.getLast?_eq_some_iff.mp hpath.last
        refine ⟨before, (hmem before).mpr ⟨hpath, fun hnone => hcarry ?_⟩, rfl⟩
        rw [Graph.carry_concat, hnone]
        rfl
    · have hstate : s.stateOf n = [] := by
        have hge : s.states.size ≤ n := hs.sized.states.symm ▸ Nat.le_of_not_lt hn
        rw [Progress.stateOf, Array.getD_eq_getD_getElem?, Array.getElem?_eq_none hge]
        rfl
      rw [hstate]
      refine ⟨[], List.nodup_nil, fun path => ⟨fun h => absurd h List.not_mem_nil, ?_⟩, .nil⟩
      rintro ⟨hpath, _⟩
      exact absurd (hE.node_of_isPath hpath) hn

end Enumerating

end Engine

namespace Analysis

lemma enumerating {c : Config} (hrule : c.rule = .never ∨ c.rule = .traceEqual) (m : Model)
    {p : Program} (hp : p.body.LoopFree) : (c.engine (.ofProgram p) m).Enumerating where
  graph := Graph.sound_ofProgram p
  ascending _ _ := hp.ascending
  preds := Graph.nodup_predsOf_ofProgram p
  nodes n node hnode := by
    rcases Graph.cell_mem hnode with hcell | hcell
    · exact congrArg Prod.fst hcell
    · exact hp.cells _ hcell
  rule := hrule

theorem states_enumerate_paths {c : Config} {m : Model} {p : Program} {fuel : Nat} {a : Analysis}
    (hp : p.body.LoopFree) (hrule : c.rule = .never ∨ c.rule = .traceEqual)
    (h : ofProgram c m p fuel = .ok a) (n : NodeId) :
    ∃ paths, (Graph.ofProgram p).Enumerates m (c.startEnv p m) n paths (a.stateOf n) := by
  obtain ⟨_, _, _, hiterate⟩ := ofProgram_eq_ok h
  have hE := enumerating hrule m hp
  have hinitial : (c.engine (.ofProgram p) m).Settled (c.engine (.ofProgram p) m).initial :=
    ⟨Engine.sized_initial hE.graph, fun n node => Engine.settled_initial hE.graph⟩
  have hsettled := Engine.iterate_induction (fun s s' hs => hs.step hE) hiterate hinitial
  exact hE.enumerates hsettled rfl n

end Analysis

namespace Climb

def fork : Program :=
  ⟨"fork", decls, .split (.atom (.assign x readY) .done) (.atom (.assume below none) .done) .done⟩

theorem fork_enumerates_paths :
    ∃ a paths, Analysis.ofProgram ⟨.never, .empty⟩ model fork 20 = .ok a ∧
      (Graph.ofProgram fork).Enumerates model (Config.startEnv ⟨.never, .empty⟩ fork model) 3 paths
        (a.stateOf 3) ∧ (a.stateOf 3).length = 2 := by
  have hsome : (Analysis.ofProgram ⟨.never, .empty⟩ model fork 20).toOption.map
      (fun a => (a.stateOf 3).length) = some 2 := by decide +kernel
  obtain ⟨a, ha, hlength⟩ := Option.map_eq_some_iff.mp hsome
  have ha := toOption_eq_some ha
  have hfree : fork.body.LoopFree := ⟨trivial, trivial, trivial⟩
  obtain ⟨paths, hpaths⟩ := Analysis.states_enumerate_paths hfree (Or.inl rfl) ha 3
  exact ⟨a, paths, ha, hpaths, hlength⟩

end Climb

end Tracewise
