import Tracewise.Proofs.Regularity

namespace Tracewise

open Fallible Tracewise.Partition

namespace Engine

variable {E : Engine} {s s' : Progress} {n : NodeId} {node : Node} {state : List Partition}

lemma Visits.retains (hE : E.Ranged) (hs : E.Orderly s) (h : E.Visits s s' n node state)
    {k : NodeId} {head : Node} (hhead : E.graph.nodes[k]? = some head)
    (hwidening : head.widening = true) : Covered (s.stateOf k) (s'.stateOf k) := by
  by_cases hk : k = n
  · subst hk
    obtain rfl := Option.some.inj (h.lookup.symm.trans hhead)
    rw [h.stateOf_self]
    exact (hE.recompute_orderly hs h.lookup h.recompute).2 hwidening
  · rw [h.stateOf_other hk]
    exact Covered.refl _

lemma Ranged.retains (hE : E.Ranged) (hsized : E.Sized s) (hs : E.Orderly s) {fuel : Nat}
    (h : E.iterate fuel s = .ok s') {k : NodeId} {head : Node}
    (hhead : E.graph.nodes[k]? = some head) (hwidening : head.widening = true) :
    Covered (s.stateOf k) (s'.stateOf k) := by
  have hrun := visits_induction
    (Q := fun t => E.Orderly t ∧ Covered (s.stateOf k) (t.stateOf k)) hE.graph ?_ h hsized
    ⟨hs, Covered.refl _⟩
  · exact hrun.2.2
  · rintro t t' n node state ⟨ht, hcovered⟩ hvisits
    exact ⟨hvisits.orderly hE ht, hcovered.trans (hvisits.retains hE ht hhead hwidening)⟩

end Engine

namespace Analysis

variable {c : Config} {m : Model} {p : Program}

theorem widening_points_keep_ground (hm : m.Interprets p)
    (hcheck : m.check (.ofProgram p) c.initial = .ok ()) {i j : Nat} (hij : i ≤ j) :
    ∃ s s', (c.engine (.ofProgram p) m).after i = .ok s ∧
      (c.engine (.ofProgram p) m).after j = .ok s' ∧
      (∀ (n : NodeId) (node : Node), (Graph.ofProgram p).nodes[n]? = some node →
        node.widening = true → ∀ q ∈ s.stateOf n, ∃ q' ∈ s'.stateOf n,
          q.trace.nodes ⊆ q'.trace.nodes ∧ q.env.le q'.env m = .ok true) ∧
      ∀ n, (s.stateOf n).Pairwise fun q q' => q.trace.nodes.toFinset ≠ q'.trace.nodes.toFinset := by
  have hE := ranged_of_check hm.serves hcheck
  obtain ⟨s', hs'⟩ := hE.exists_after j
  obtain ⟨s, hs, hrest⟩ := Engine.exists_iterate_of_after hij hs'
  obtain ⟨hsized, horderly⟩ := hE.orderly_after hs
  obtain ⟨_, horderly'⟩ := hE.orderly_after hs'
  refine ⟨s, s', hs, hs', ?_, horderly.pairwise_toFinset_ne⟩
  intro n node hnode hwidening q hq
  obtain ⟨q', hq', hnodes, hle⟩ := hE.retains hsized horderly hrest hnode hwidening q hq
  have hfits := horderly.fits n q hq
  have hfits' := horderly'.fits n q' hq'
  refine ⟨q', hq', hnodes, ?_⟩
  exact (Env.le_eq_true_iff hfits.typed hfits'.typed
    (hfits.sameVars.symm.trans hfits'.sameVars)).mpr hle

end Analysis

theorem Climb.climb_keeps_ground :
    ∃ s s' q q', (Config.default.engine (.ofProgram program) model).after 2 = .ok s ∧
      (Config.default.engine (.ofProgram program) model).after 5 = .ok s' ∧
      q ∈ s.stateOf 1 ∧ q' ∈ s'.stateOf 1 ∧ q.trace.nodes ⊆ q'.trace.nodes ∧
      q.env.le q'.env model = .ok true := by
  obtain ⟨s, s', hs, hs', hkept, _⟩ := Analysis.widening_points_keep_ground (c := .default)
    interprets (toOption_eq_some (by decide +kernel)) (show 2 ≤ 5 by decide)
  have hsome : ((Config.default.engine (.ofProgram program) model).after 2).toOption.any
      (fun s => !(s.stateOf 1).isEmpty) = true := by decide +kernel
  obtain ⟨s₂, q, hs₂, hq⟩ := Engine.exists_stored hsome
  obtain rfl := Except.ok.inj (hs.symm.trans hs₂)
  have hhead : ((Graph.ofProgram program).nodes[1]?.any Node.widening) = true := by decide +kernel
  obtain ⟨node, hnode, hwidening⟩ := (Option.any_eq_true _ _).mp hhead
  obtain ⟨q', hq', hground⟩ := hkept 1 node hnode hwidening q hq
  exact ⟨s, s', q, q', hs, hs', hq, hq', hground⟩

end Tracewise
