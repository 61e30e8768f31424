import Tracewise.Proofs.PathEnumeration
import Tracewise.Proofs.Regularity
import Tracewise.Proofs.Soundness

/-! Partitions that are folded only along the same nodes. After a node there is exactly one for each
set of nodes that an execution to it has visited. -/

namespace Tracewise

open Fallible Tracewise.Partition

def Partition.Wider (p q : Partition) : Prop :=
  q.trace.nodes.toFinset = p.trace.nodes.toFinset ∧ ∀ σ, p.env.Describes σ → q.env.Describes σ

lemma MergeRule.respects_wider {rule : MergeRule} (hrule : rule = never ∨ rule = traceEqual)
    (E : Engine) : rule.Respects E.model (Regular E) Wider where
  refl p := ⟨rfl, fun _ => id⟩
  trans p q r hpq hqr := ⟨hqr.1.trans hpq.1, fun σ hσ => hqr.2 σ (hpq.2 σ hσ)⟩
  merge p q r hp hq hfolds h := by
    rw [folds_eq_sameNodes hrule] at hfolds
    have hsame : p.trace.nodes.toFinset = q.trace.nodes.toFinset :=
      (Trace.sameNodes_iff_toFinset hp.nodup hq.nodup).mp (Except.ok.inj hfolds)
    obtain ⟨r', hr', _, hpr, hqr⟩ := merge_spec hp.fits hq.fits
    obtain rfl := Except.ok.inj (h.symm.trans hr')
    have hnodes : r.trace.nodes.toFinset = q.trace.nodes.toFinset := by
      obtain ⟨env, _, h⟩ := bind_eq_ok h
      cases h
      rw [Trace.toFinset_union, hsame, Finset.union_self]
    exact ⟨hp.merge hq h, ⟨hnodes.trans hsame.symm, hpr.2⟩, ⟨hnodes, hqr.2⟩⟩

lemma filter_eq_singleton {α β : Type} [DecidableEq β] {f : α → β} {l : List α}
    (h : l.Pairwise fun a b => f a ≠ f b) {a : α} (ha : a ∈ l) :
    l.filter (fun b => f b = f a) = [a] := by
  induction l with
  | nil => exact absurd ha List.not_mem_nil
  | cons b l ih =>
    obtain ⟨hhead, htail⟩ := List.pairwise_cons.mp h
    rcases List.mem_cons.mp ha with rfl | ha
    · rw [List.filter_cons_of_pos (by simp), List.filter_eq_nil_iff.mpr]
      intro b hb
      simpa using (hhead b hb).symm
    · rw [List.filter_cons_of_neg (by simpa using hhead a ha), ih htail ha]

namespace Engine

variable {E : Engine} {s : Progress} {n : NodeId} {node : Node} {state : List Partition}

lemma Ranged.recompute_exact (hE : E.Ranged) (hrule : E.rule = .never ∨ E.rule = .traceEqual)
    (hs : E.Orderly s) (hnode : E.graph.nodes[n]? = some node)
    (h : E.recompute s node = .ok state) {part : Partition} (hpart : part ∈ E.incoming s n)
    {σ σ' : Store} (hσ : part.env.Describes σ) (hstep : E.model.Steps node.atom σ σ') :
    ∃ q ∈ state, q.trace.nodes.toFinset = insert n part.trace.nodes.toFinset ∧
      q.env.Describes σ' := by
  obtain ⟨outgoing, merged, hout, hmerged, hstate⟩ := recompute_eq_ok h
  rw [hE.graph.ids n node hnode] at hout hstate
  obtain ⟨q, hq, hqσ, hqtrace⟩ :=
    (hE.outgoing_spec hs.fits hnode hout).2 part hpart σ σ' hσ hstep
  have hregular := hE.preserves_regular.passed hs.regular hnode hout
  obtain ⟨hregular', hwider⟩ := (MergeRule.respects_wider hrule E).mergeAll hregular hmerged
  obtain ⟨r, hr, hqr⟩ := hwider q hq
  have hrnodes : r.trace.nodes.toFinset = insert n part.trace.nodes.toFinset := by
    rw [hqr.1, hqtrace, Trace.toFinset_extend]
  split at hstate
  · have hfits := fun p hp => (hregular' p hp).fits
    obtain ⟨_, hnew, _⟩ :=
      widenState_spec (hs.fits n) hfits (MergeRule.apart_mergeAll hmerged) hstate
    obtain ⟨t, ht, httrace, hrt⟩ := hnew r hr
    exact ⟨t, ht, httrace ▸ hrnodes, hrt.2 σ' (hqr.2 σ' hqσ)⟩
  · exact ⟨r, hstate ▸ hr, hrnodes, hqr.2 σ' hqσ⟩

lemma Invariant.covers_exactly (hE : E.Ranged) (hrule : E.rule = .never ∨ E.rule = .traceEqual)
    (hs : E.Invariant s) (horderly : E.Orderly s) (hdone : s.worklist = []) {σ₀ σ : Store}
    (hσ₀ : E.startEnv.Describes σ₀) {path : List NodeId}
    (hexec : E.graph.Executes E.model σ₀ path n σ) :
    ∃ q ∈ s.stateOf n, q.trace.nodes.toFinset = path.toFinset ∧ q.env.Describes σ := by
  induction hexec with
  | @entry node σ hnode hstep =>
    have hstart : ⟨.empty, E.startEnv⟩ ∈ E.incoming s Graph.entry :=
      mem_incoming.mpr (Or.inl ⟨rfl, rfl⟩)
    exact hE.recompute_exact hrule horderly hnode (hs.recompute_of_done hdone hnode) hstart hσ₀
      hstep
  | @next path n n' node σ σ' _ hedge hnode hstep ih =>
    obtain ⟨p, hp, hpath, hpσ⟩ := ih
    have hin : p ∈ E.incoming s n' :=
      mem_incoming.mpr (Or.inr ⟨n, (hE.graph.preds n n').mpr hedge, hp⟩)
    obtain ⟨q, hq, hqnodes, hqσ⟩ :=
      hE.recompute_exact hrule horderly hnode (hs.recompute_of_done hdone hnode) hin hpσ hstep
    refine ⟨q, hq, ?_, hqσ⟩
    rw [hqnodes, hpath, List.toFinset_append, List.toFinset_cons, List.toFinset_nil,
      LawfulSingleton.insert_empty_eq, Finset.union_comm, Finset.insert_eq]

end Engine

namespace Analysis

variable {c : Config} {m : Model} {p : Program} {fuel : Nat} {a : Analysis}

theorem ofProgram_covers_exactly (hm : m.Interprets p)
    (hrule : c.rule = .never ∨ c.rule = .traceEqual) (h : ofProgram c m p fuel = .ok a)
    {σ₀ σ : Store} (hσ₀ : (c.startEnv p m).Describes σ₀) {path : List NodeId} {n : NodeId}
    (hexec : (Graph.ofProgram p).Executes m σ₀ path n σ) :
    ∃ q, (a.stateOf n).filter (fun q => q.trace.nodes.toFinset = path.toFinset) = [q] ∧
      q.env.Describes σ := by
  obtain ⟨_, _, hcheck, hiterate⟩ := ofProgram_eq_ok h
  obtain ⟨_, _, _, hinv⟩ := invariant_of_ofProgram hm h
  have hE := ranged_of_check hm.serves hcheck
  obtain ⟨_, horderly⟩ := hE.orderly_after hiterate
  obtain ⟨q, hq, hnodes, hdescribes⟩ := hinv.covers_exactly hE hrule horderly rfl hσ₀ hexec
  refine ⟨q, ?_, hdescribes⟩
  rw [← hnodes]
  exact filter_eq_singleton (horderly.pairwise_toFinset_ne n) hq

end Analysis

theorem Climb.climb_covered_exactly :
    ∃ a q, Analysis.ofProgram ⟨.never, .empty⟩ model program 20 = .ok a ∧
      (a.stateOf 4).filter (fun q => q.trace.nodes.toFinset = [0, 1, 2, 3, 1, 4].toFinset) = [q] ∧
      q.env.Describes summit := by
  have hsome : (Analysis.ofProgram ⟨.never, .empty⟩ model program 20).toOption.isSome = true := by
    decide +kernel
  obtain ⟨a, ha⟩ := exists_of_toOption_isSome hsome
  obtain ⟨q, hq⟩ := Analysis.ofProgram_covers_exactly interprets (Or.inl rfl) ha describes_start
    executes_climb
  exact ⟨a, q, ha, hq⟩

end Tracewise
