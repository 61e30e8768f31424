import Mathlib.Order.Filter.AtTopBot.Basic
import Tracewise.Proofs.Reordering

namespace Tracewise.Engine

open Fallible Filter Tracewise.Partition Tracewise.Trace

variable {E : Engine} {s s' : Progress} {n : NodeId} {node : Node}
  {state merged merged' : List Partition}

lemma alike_of_covered {l l' : List Partition} (hl : ∀ p ∈ l, p.Regular E)
    (hl' : ∀ p ∈ l', p.Regular E) (hone : l.length ≤ 1) (hone' : l'.length ≤ 1)
    (h : Covered l l') (h' : Covered l' l) : List.Forall₂ (Retraced Reordered) l l' := by
  match l, l', hone, hone' with
  | [], [], _, _ => exact .nil
  | [], q :: _, _, _ =>
    obtain ⟨p, hp, _⟩ := h' q List.mem_cons_self
    exact absurd hp List.not_mem_nil
  | p :: _, [], _, _ =>
    obtain ⟨q, hq, _⟩ := h p List.mem_cons_self
    exact absurd hq List.not_mem_nil
  | [p], [q], _, _ =>
    have hp := hl p List.mem_cons_self
    have hq := hl' q List.mem_cons_self
    obtain ⟨q', hq', hpq⟩ := h p List.mem_cons_self
    obtain ⟨p', hp', hqp⟩ := h' q List.mem_cons_self
    rw [List.mem_singleton.mp hq'] at hpq
    rw [List.mem_singleton.mp hp'] at hqp
    have hperm := (hp.nodup.subperm hpq.1).antisymm (hq.nodup.subperm hqp.1)
    exact .cons ⟨⟨hp.nodup, hperm⟩, Env.eq_of_le_of_le hp.fits.typed hq.fits.typed hpq.2 hqp.2⟩ .nil

lemma Orderly.alike (hs : E.Orderly s) {R : Trace → Trace → Prop} (hR : Congruence R) (n : NodeId) :
    List.Forall₂ (Retraced R) (s.stateOf n) (s.stateOf n) :=
  List.forall₂_same.mpr fun p hp => ⟨hR.refl _ (hs.regular n p hp).nodup, rfl⟩

lemma Tame.length_gather (hE : E.Tame) (hs : E.Orderly s) (hnode : E.graph.nodes[n]? = some node)
    (h : E.gather s node = .ok merged) : merged.length ≤ 1 := by
  obtain ⟨outgoing, houtgoing, h⟩ := bind_eq_ok h
  rw [hE.rule] at h
  have hfits : ∀ q ∈ outgoing, q.Fits E.model E.startEnv := by
    intro q hq
    obtain ⟨p, hp, hpass⟩ := (filterMapM_eq_ok houtgoing).2 q hq
    exact (hE.regular_pass hnode (hE.regular_incoming hs _ p hp) hpass).fits
  rcases MergeRule.mergeAll_always_eq_ok hfits h with ⟨rfl, _⟩ | ⟨r, rfl, _⟩
  · exact Nat.zero_le 1
  · exact le_rfl

lemma Tame.alike_gather (hE : E.Tame) (hs : E.Orderly s) (hs' : E.Orderly s')
    (hcovered : ∀ k, Covered (s.stateOf k) (s'.stateOf k))
    (hcovered' : ∀ k, Covered (s'.stateOf k) (s.stateOf k))
    (hnode : E.graph.nodes[n]? = some node) (h : E.gather s node = .ok merged)
    (h' : E.gather s' node = .ok merged') : List.Forall₂ (Retraced Reordered) merged merged' :=
  alike_of_covered (hE.gather_spec hs hnode h).1 (hE.gather_spec hs' hnode h').1
    (hE.length_gather hs hnode h) (hE.length_gather hs' hnode h')
    (hE.gather_mono hs hs' hnode (fun k _ => hcovered k) h h')
    (hE.gather_mono hs' hs hnode (fun k _ => hcovered' k) h' h)

lemma absorbed_congr (h : s'.stateOf node.id = s.stateOf node.id) (merged : List Partition) :
    E.absorbed s' node merged = E.absorbed s node merged := by
  rw [absorbed, absorbed, h]

lemma Visits.gather (h : E.Visits s s' n node state) :
    ∃ merged, E.gather s node = .ok merged ∧ E.absorbed s node merged = .ok state :=
  bind_eq_ok (recompute_eq_gather E s node ▸ h.recompute)

lemma Visits.absorbed (hE : E.Ranged) (hs : E.Orderly s) (h : E.Visits s s' n node state) :
    ∃ merged, E.gather s node = .ok merged ∧ E.absorbed s' node merged = .ok (s'.stateOf n) := by
  obtain ⟨merged, hmerged, hstate⟩ := h.gather
  refine ⟨merged, hmerged, ?_⟩
  obtain ⟨hregular, hapart⟩ := hE.gather_spec hs h.lookup hmerged
  have hid := hE.graph.ids n node h.lookup
  rw [Engine.absorbed, hid] at hstate ⊢
  rw [h.stateOf_self]
  by_cases hwidening : node.widening = true
  · rw [if_pos hwidening] at hstate ⊢
    exact (widenState_spec (hs.fits n) (fun p hp => (hregular p hp).fits) hapart hstate).2.2
  · rw [if_neg hwidening] at hstate ⊢
    exact hstate

structure Endless (E : Engine) (run : ℕ → Progress) : Prop where
  start : run 0 = E.initial
  step : ∀ i, E.step (run i) = .ok (some (run (i + 1)))

def below (E : Engine) (s : Progress) :
    Set ({p : Partition // p.Regular E} × Fin E.graph.size) :=
  {x | ∃ q ∈ s.stateOf x.2, x.1.1 ≤ q}

lemma Orderly.covered_of_below (hs : E.Orderly s) (hsized : E.Sized s)
    (h : E.below s ⊆ E.below s') (n : NodeId) : Covered (s.stateOf n) (s'.stateOf n) := by
  intro p hp
  by_cases hn : n < E.graph.size
  · have hmem : (⟨p, hs.regular n p hp⟩, ⟨n, hn⟩) ∈ E.below s := ⟨p, hp, le_rfl⟩
    exact h hmem
  · rw [Progress.stateOf, Array.getD_eq_getD_getElem?,
      Array.getElem?_eq_none (hsized.states ▸ not_lt.mp hn)] at hp
    exact absurd hp List.not_mem_nil

namespace Endless

variable {run : ℕ → Progress}

lemma induction (h : E.Endless run) {P : Progress → Prop} (hstart : P E.initial)
    (hstep : ∀ s s', P s → E.step s = .ok (some s') → P s') (i : ℕ) : P (run i) := by
  induction i with
  | zero => exact h.start ▸ hstart
  | succ i ih => exact hstep _ _ ih (h.step i)

lemma invariant (h : E.Endless run) (hE : E.Ready) (i : ℕ) : E.Invariant (run i) :=
  h.induction hE.invariant_initial (fun _ _ => hE.invariant_step) i

lemma visits (h : E.Endless run) (hE : E.Ready) (i : ℕ) :
    ∃ n node state, E.Visits (run i) (run (i + 1)) n node state := by
  obtain ⟨n, node, state, hvisits, _⟩ := (h.invariant hE i).sized.step (h.step i)
  exact ⟨n, node, state, hvisits⟩

lemma orderly (h : E.Endless run) (hE : E.Ranged) (i : ℕ) : E.Orderly (run i) := by
  induction i with
  | zero => exact h.start ▸ orderly_initial E
  | succ i ih =>
    obtain ⟨n, node, state, hvisits⟩ := h.visits hE.toReady i
    exact hvisits.orderly hE ih

lemma growing (h : E.Endless run) (hE : E.Tame) (i : ℕ) : E.Growing (run i) := by
  induction i with
  | zero => exact h.start ▸ growing_initial E
  | succ i ih =>
    obtain ⟨n, node, state, hvisits⟩ := h.visits hE.toReady i
    exact hvisits.growing hE (h.orderly hE.toRanged i) ih

theorem exists_bound (h : E.Endless run) (hE : E.Tame) :
    ∃ t, ∀ i j, t ≤ i → t ≤ j → ∀ n, Covered ((run i).stateOf n) ((run j).stateOf n) := by
  have hmono : Monotone fun i => E.below (run i) := by
    refine monotone_nat_of_le_succ fun i => ?_
    rintro ⟨p, n⟩ ⟨q, hq, hpq⟩
    obtain ⟨k, node, state, hvisits⟩ := h.visits hE.toReady i
    obtain ⟨r, hr, hqr⟩ := hvisits.covered hE (h.orderly hE.toRanged i) (h.growing hE i) n q hq
    exact ⟨r, hr, hpq.trans hqr⟩
  have : Finite {p : Partition // p.Regular E} := (finite_regular E).to_subtype
  obtain ⟨t, ht⟩ := WellFoundedGT.monotone_chain_condition ⟨_, hmono⟩
  refine ⟨t, fun i j hi hj n => ?_⟩
  have hbelow : E.below (run i) = E.below (run j) := (ht i hi).symm.trans (ht j hj)
  exact (h.orderly hE.toRanged i).covered_of_below (h.invariant hE.toReady i).sized hbelow.subset n

lemma exists_absorbed (h : E.Endless run) (hE : E.Ranged) {t i : ℕ}
    (hvisits : E.Visits (run t) (run (t + 1)) n node state) (hi : t < i) :
    ∃ j merged, t ≤ j ∧ E.gather (run j) node = .ok merged ∧
      E.absorbed (run i) node merged = .ok ((run i).stateOf n) := by
  induction i, hi using Nat.le_induction with
  | base =>
    obtain ⟨merged, hmerged, habsorbed⟩ := hvisits.absorbed hE (h.orderly hE t)
    exact ⟨t, merged, le_rfl, hmerged, habsorbed⟩
  | succ i hi ih =>
    obtain ⟨k, node', state', hvisits'⟩ := h.visits hE.toReady i
    by_cases hk : n = k
    · subst hk
      obtain rfl := Option.some.inj (hvisits.lookup.symm.trans hvisits'.lookup)
      obtain ⟨merged, hmerged, habsorbed⟩ := hvisits'.absorbed hE (h.orderly hE i)
      exact ⟨i, merged, by omega, hmerged, habsorbed⟩
    · obtain ⟨j, merged, hj, hmerged, habsorbed⟩ := ih
      have hsame := hvisits'.stateOf_other hk
      have hid := hE.graph.ids n node hvisits.lookup
      refine ⟨j, merged, hj, hmerged, ?_⟩
      rw [hsame, absorbed_congr (hid.symm ▸ hsame)]
      exact habsorbed

theorem eventually_alike (h : E.Endless run) (hE : E.Tame) (n : NodeId) :
    ∀ᶠ i in atTop, List.Forall₂ (Retraced Reordered) ((run i).stateOf n)
      ((run (i + 1)).stateOf n) := by
  obtain ⟨t, ht⟩ := h.exists_bound hE
  have hrefl := fun i => (h.orderly hE.toRanged i).alike congruence_reordered n
  rw [eventually_atTop]
  by_cases hvisited : ∃ t', t ≤ t' ∧ ∃ node state, E.Visits (run t') (run (t' + 1)) n node state
  · obtain ⟨t', ht', node, state, hvisits⟩ := hvisited
    refine ⟨t' + 1, fun i hi => ?_⟩
    obtain ⟨k, node', state', hvisits'⟩ := h.visits hE.toReady i
    by_cases hk : n = k
    · subst hk
      obtain rfl := Option.some.inj (hvisits.lookup.symm.trans hvisits'.lookup)
      obtain ⟨j, merged, hj, hmerged, habsorbed⟩ := h.exists_absorbed hE.toRanged hvisits hi
      obtain ⟨merged', hmerged', hstate'⟩ := hvisits'.gather
      have halike := hE.alike_gather (h.orderly hE.toRanged j) (h.orderly hE.toRanged i)
        (ht j i (by omega) (by omega)) (ht i j (by omega) (by omega)) hvisits.lookup hmerged hmerged'
      have hid := hE.graph.ids n node hvisits.lookup
      obtain ⟨found, hfound, hrel⟩ := congruence_reordered.follows_absorbed halike
        (fun _ => hid.symm ▸ hrefl i) _ habsorbed
      obtain rfl := Except.ok.inj (hfound.symm.trans hstate')
      rw [hvisits'.stateOf_self]
      exact hrel
    · rw [hvisits'.stateOf_other hk]
      exact hrefl i
  · refine ⟨t, fun i hi => ?_⟩
    obtain ⟨k, node', state', hvisits'⟩ := h.visits hE.toReady i
    have hk : n ≠ k := fun hk => hvisited ⟨i, hi, node', state', hk ▸ hvisits'⟩
    rw [hvisits'.stateOf_other hk]
    exact hrefl i

end Endless

end Tracewise.Engine
