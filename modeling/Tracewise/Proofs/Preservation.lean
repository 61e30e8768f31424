import Tracewise.Proofs.Fixpoint

namespace Tracewise

open Fallible Tracewise.Partition

namespace Engine

def after (E : Engine) (steps : Nat) : Except Fault Progress := E.iterate steps E.initial

variable {E : Engine} {s s' : Progress} {n : NodeId} {node : Node} {state : List Partition}

lemma worklist_of_done (h : E.step s = .ok none) : s.worklist = [] := by
  rw [step] at h
  split at h
  · assumption
  · obtain ⟨_, _, h⟩ := bind_eq_ok h
    cases h

lemma iterate_of_done (h : E.step s = .ok none) (fuel : Nat) : E.iterate fuel s = .ok s := by
  cases fuel with
  | zero => rfl
  | succ fuel =>
    rw [iterate, h]
    rfl

lemma iterate_add (E : Engine) (i j : Nat) (s : Progress) :
    E.iterate (i + j) s = E.iterate i s >>= E.iterate j := by
  induction i generalizing s with
  | zero =>
    rw [Nat.zero_add]
    rfl
  | succ i ih =>
    rw [Nat.succ_add, iterate, iterate, bind_assoc]
    cases hstep : E.step s with
    | error f => rfl
    | ok next =>
      cases next with
      | none =>
        simp only [ok_bind, pure_eq_ok]
        exact (iterate_of_done hstep j).symm
      | some s' => exact ih s'

lemma visits_induction {Q : Progress → Prop} (hgraph : E.graph.Sound)
    (hvisit : ∀ s s' n node state, Q s → E.Visits s s' n node state → Q s') {fuel : Nat}
    (h : E.iterate fuel s = .ok s') (hsized : E.Sized s) (hs : Q s) : E.Sized s' ∧ Q s' := by
  refine iterate_induction (P := fun s => E.Sized s ∧ Q s) ?_ h ⟨hsized, hs⟩
  rintro s s' ⟨hsized, hs⟩ hstep
  obtain ⟨n, node, state, hvisits, hstates, hcounts⟩ := hsized.step hstep
  exact ⟨⟨hstates, hcounts, hvisits.sized hgraph hsized⟩, hvisit s s' n node state hs hvisits⟩

structure Preserves (E : Engine) (P : NodeId → Partition → Prop) : Prop where
  start : ∀ node q, E.graph.nodes[Graph.entry]? = some node →
    E.pass node ⟨.empty, E.startEnv⟩ = .ok (some q) → P Graph.entry q
  pass : ∀ (k n : NodeId) node p q, k ∈ E.graph.predsOf n → E.graph.nodes[n]? = some node → P k p →
    E.pass node p = .ok (some q) → P n q
  merge : ∀ n p q r, P n p → P n q → p.merge q E.model = .ok r → P n r
  widen : ∀ n old p q, (∀ o ∈ old, P n o) → P n p → widenPart E.model old p = .ok q → P n q

namespace Preserves

variable {P : NodeId → Partition → Prop}

lemma passed (hP : E.Preserves P) (hs : ∀ n, ∀ q ∈ s.stateOf n, P n q)
    (hnode : E.graph.nodes[n]? = some node) {outgoing : List Partition}
    (hout : (E.incoming s n).filterMapM (E.pass node) = .ok outgoing) : ∀ q ∈ outgoing, P n q := by
  intro q hq
  obtain ⟨p, hp, hpass⟩ := (filterMapM_eq_ok hout).2 q hq
  rcases mem_incoming.mp hp with ⟨rfl, rfl⟩ | ⟨k, hk, hp⟩
  · exact hP.start node q hnode hpass
  · exact hP.pass k n node p q hk hnode (hs k p hp) hpass

lemma gathered (hP : E.Preserves P) (hs : ∀ n, ∀ q ∈ s.stateOf n, P n q)
    (hnode : E.graph.nodes[n]? = some node) {outgoing merged : List Partition}
    (hout : (E.incoming s n).filterMapM (E.pass node) = .ok outgoing)
    (hmerged : E.rule.mergeAll E.model outgoing = .ok merged) : ∀ q ∈ merged, P n q :=
  MergeRule.mergeAll_induction (hP.merge n) (hP.passed hs hnode hout) hmerged

lemma widened (hP : E.Preserves P) {old new : List Partition} (hold : ∀ o ∈ old, P n o)
    (hnew : ∀ p ∈ new, P n p) (h : widenState E.model old new = .ok state) :
    ∀ q ∈ state, P n q := by
  obtain ⟨new', hnew', h⟩ := bind_eq_ok h
  obtain ⟨kept, hkept, rfl, _⟩ := foldlM_keep_eq_ok h
  intro q hq
  rcases List.mem_append.mp hq with hq | hq
  · obtain ⟨p, hp, hwiden⟩ := exists_of_forall₂ (mapM_eq_ok hnew').flip hq
    exact hP.widen n old p q hold (hnew p hp) hwiden
  · exact hold q (hkept hq)

lemma recomputed (hP : E.Preserves P) (hgraph : E.graph.Sound)
    (hs : ∀ n, ∀ q ∈ s.stateOf n, P n q) (hnode : E.graph.nodes[n]? = some node)
    (h : E.recompute s node = .ok state) : ∀ q ∈ state, P n q := by
  obtain ⟨outgoing, merged, hout, hmerged, hstate⟩ := recompute_eq_ok h
  rw [hgraph.ids n node hnode] at hout hstate
  have hgathered := hP.gathered hs hnode hout hmerged
  split at hstate
  · exact hP.widened (hs n) hgathered hstate
  · exact hstate ▸ hgathered

lemma visited (hP : E.Preserves P) (hgraph : E.graph.Sound) (hs : ∀ n, ∀ q ∈ s.stateOf n, P n q)
    (h : E.Visits s s' n node state) : ∀ k, ∀ q ∈ s'.stateOf k, P k q := by
  intro k
  by_cases hk : k = n
  · rw [hk, h.stateOf_self]
    exact hP.recomputed hgraph hs h.lookup h.recompute
  · rw [h.stateOf_other hk]
    exact hs k

theorem after (hP : E.Preserves P) (hgraph : E.graph.Sound) {steps : Nat}
    (h : E.after steps = .ok s) : ∀ n, ∀ q ∈ s.stateOf n, P n q := by
  have hinitial : ∀ n, ∀ q ∈ E.initial.stateOf n, P n q := by
    intro n q hq
    rw [stateOf_initial] at hq
    exact absurd hq List.not_mem_nil
  exact (visits_induction hgraph (fun _ _ _ _ _ hs hvisits => hP.visited hgraph hs hvisits) h
    (sized_initial hgraph) hinitial).2

end Preserves

lemma Ready.exists_after (hE : E.Ready) (steps : Nat) : ∃ s, E.after steps = .ok s :=
  hE.exists_iterate hE.invariant_initial steps

lemma exists_iterate_of_after {i j : Nat} (hij : i ≤ j) (hj : E.after j = .ok s') :
    ∃ s, E.after i = .ok s ∧ E.iterate (j - i) s = .ok s' := by
  rw [after, ← Nat.add_sub_of_le hij, iterate_add] at hj
  exact bind_eq_ok hj

lemma exists_stored {steps : Nat} {n : NodeId}
    (h : (E.after steps).toOption.any (fun s => !(s.stateOf n).isEmpty) = true) :
    ∃ s q, E.after steps = .ok s ∧ q ∈ s.stateOf n := by
  obtain ⟨s, hs, hstored⟩ := exists_of_toOption_any h
  obtain ⟨q, hq⟩ := List.isEmpty_eq_false_iff_exists_mem.mp (Bool.not_eq_true' _ ▸ hstored)
  exact ⟨s, q, hs, hq⟩

end Engine

end Tracewise
