import Mathlib.Data.FinEnum
import Mathlib.Data.Set.Finite.List
import Mathlib.Order.OrderIsoNat
import Tracewise.Proofs.Regularity

/-! Where all partitions are merged and the nodes are passed monotonically, no node loses ground.
There are finitely many partitions, so the states of a run grow to a bound. -/

namespace Tracewise

open Fallible Tracewise.Partition

namespace MergeRule

variable {m : Model} {vars : Env}

lemma mergeAll_always_cons (m : Model) (p : Partition) (parts : List Partition) :
    always.mergeAll m (p :: parts) =
      (parts.foldlM (fun r q => r.merge q m) p >>= fun r => .ok [r]) := by
  have hfold : ∀ p, parts.foldlM (always.insert m) [p] =
      (parts.foldlM (fun r q => r.merge q m) p >>= fun r => .ok [r]) := by
    induction parts with
    | nil => exact fun p => rfl
    | cons q parts ih =>
      intro p
      have hinsert : always.insert m [p] q = (p.merge q m >>= fun r => .ok [r]) := by
        simp [insert, absorb, extract?, folds, applies]
      rw [List.foldlM_cons, List.foldlM_cons, hinsert, bind_assoc, bind_assoc]
      exact congrArg _ (funext ih)
  exact hfold p

lemma merge_le_iff {p q r k : Partition} (hp : p.Fits m vars) (hq : q.Fits m vars)
    (hk : k.Fits m vars) (h : p.merge q m = .ok r) : r ≤ k ↔ p ≤ k ∧ q ≤ k := by
  obtain ⟨env, henv, h⟩ := bind_eq_ok h
  cases h
  have htraces : (p.trace.union q.trace).nodes ⊆ k.trace.nodes ↔
      p.trace.nodes ⊆ k.trace.nodes ∧ q.trace.nodes ⊆ k.trace.nodes := by
    simp only [List.subset_def, Trace.mem_union, or_imp, forall_and]
  have henvs := Env.join_le_iff hp.typed hq.typed (hp.sameVars.symm.trans hq.sameVars) hk.typed henv
  exact (and_congr htraces henvs).trans and_and_and_comm

lemma foldlM_merge_le_iff {parts : List Partition} {p r k : Partition} (hp : p.Fits m vars)
    (hparts : ∀ q ∈ parts, q.Fits m vars) (hk : k.Fits m vars)
    (h : parts.foldlM (fun r q => r.merge q m) p = .ok r) :
    r ≤ k ↔ ∀ q ∈ p :: parts, q ≤ k := by
  induction parts generalizing p with
  | nil =>
    cases h
    exact (List.forall_mem_singleton (p := fun q => q ≤ k)).symm
  | cons q parts ih =>
    rw [List.foldlM_cons] at h
    obtain ⟨merged, hmerged, h⟩ := bind_eq_ok h
    have hq := hparts q List.mem_cons_self
    obtain ⟨merged', hmerged', hfits, _, _⟩ := merge_spec hp hq
    obtain rfl := Except.ok.inj (hmerged.symm.trans hmerged')
    rw [ih hfits (fun q hq => hparts q (List.mem_cons_of_mem _ hq)) h, List.forall_mem_cons,
      merge_le_iff hp hq hk hmerged, List.forall_mem_cons, List.forall_mem_cons, and_assoc]

lemma mergeAll_always_eq_ok {parts merged : List Partition} (hparts : ∀ p ∈ parts, p.Fits m vars)
    (h : always.mergeAll m parts = .ok merged) :
    merged = [] ∧ parts = [] ∨
      ∃ r, merged = [r] ∧ parts ≠ [] ∧ ∀ k, k.Fits m vars → (r ≤ k ↔ ∀ p ∈ parts, p ≤ k) := by
  cases parts with
  | nil =>
    cases h
    exact Or.inl ⟨rfl, rfl⟩
  | cons p parts =>
    rw [mergeAll_always_cons] at h
    obtain ⟨r, hr, h⟩ := bind_eq_ok h
    cases h
    refine Or.inr ⟨r, rfl, List.cons_ne_nil _ _, fun k hk => ?_⟩
    exact foldlM_merge_le_iff (hparts p List.mem_cons_self)
      (fun q hq => hparts q (List.mem_cons_of_mem _ hq)) hk hr

lemma mergeAll_always_mono {parts parts' merged merged' : List Partition}
    (hparts : ∀ p ∈ parts, p.Fits m vars) (hparts' : ∀ p ∈ parts', p.Fits m vars)
    (hcovered : Covered parts parts') (h : always.mergeAll m parts = .ok merged)
    (h' : always.mergeAll m parts' = .ok merged') : Covered merged merged' := by
  have hfits' := (mergeAll_spec hparts' h').fits
  rcases mergeAll_always_eq_ok hparts h with ⟨rfl, _⟩ | ⟨r, rfl, hne, hleast⟩
  · exact fun r hr => absurd hr List.not_mem_nil
  · rcases mergeAll_always_eq_ok hparts' h' with ⟨_, rfl⟩ | ⟨r', rfl, _, hleast'⟩
    · obtain ⟨p, hp⟩ := List.exists_mem_of_ne_nil parts hne
      obtain ⟨q, hq, _⟩ := hcovered p hp
      exact absurd hq List.not_mem_nil
    · have hr' := hfits' r' List.mem_cons_self
      intro q hq
      rw [List.mem_singleton.mp hq]
      refine ⟨r', List.mem_cons_self, (hleast r' hr').mpr fun p hp => ?_⟩
      obtain ⟨p', hp', hpp'⟩ := hcovered p hp
      exact hpp'.trans ((hleast' r' hr').mp le_rfl p' hp')

end MergeRule

namespace Engine

variable {E : Engine} {s s' : Progress} {n : NodeId} {node : Node}
  {state merged merged' : List Partition}

structure Tame (E : Engine) : Prop extends Ranged E where
  rule : E.rule = .always
  tame : ∀ (n : NodeId) (node : Node), E.graph.nodes[n]? = some node → E.model.Tame node.atom

lemma incoming_mono (h : ∀ k ∈ E.graph.predsOf n, Covered (s.stateOf k) (s'.stateOf k)) :
    Covered (E.incoming s n) (E.incoming s' n) := by
  have hstored : Covered ((E.graph.predsOf n).flatMap s.stateOf)
      ((E.graph.predsOf n).flatMap s'.stateOf) := by
    intro p hp
    obtain ⟨k, hk, hp⟩ := List.mem_flatMap.mp hp
    obtain ⟨q, hq, hpq⟩ := h k hk p hp
    exact ⟨q, List.mem_flatMap.mpr ⟨k, hk, hq⟩, hpq⟩
  rw [incoming, incoming]
  split
  · intro p hp
    rcases List.mem_cons.mp hp with rfl | hp
    · exact ⟨_, List.mem_cons_self, le_rfl⟩
    · obtain ⟨q, hq, hpq⟩ := hstored p hp
      exact ⟨q, List.mem_cons_of_mem _ hq, hpq⟩
  · exact hstored

namespace Tame

lemma pass_mono (hE : E.Tame) (hnode : E.graph.nodes[n]? = some node) {p p' q : Partition}
    (hp : p.Regular E) (hq : q.Regular E) (hpq : p ≤ q) (h : E.pass node p = .ok (some p')) :
    ∃ q', E.pass node q = .ok (some q') ∧ p' ≤ q' := by
  obtain ⟨env, henv, h⟩ := bind_eq_ok h
  obtain ⟨f, rfl, rfl⟩ := Option.map_eq_some_iff.mp (Except.ok.inj h)
  obtain ⟨f', hf', hle⟩ := Model.transfer_mono hE.literals (hE.admits n node hnode)
    (hE.tame n node hnode) hp.fits.typed hp.fits.sameVars hq.fits.typed hq.fits.sameVars hp.inRange
    hpq.2 henv
  refine ⟨⟨q.trace.extend node.id, f'⟩, by rw [pass, hf']; rfl, fun k hk => ?_, hle⟩
  rw [Trace.mem_extend] at hk ⊢
  exact hk.imp_left fun hk => hpq.1 hk

lemma gather_mono (hE : E.Tame) (hs : E.Orderly s) (hs' : E.Orderly s')
    (hnode : E.graph.nodes[n]? = some node)
    (hcovered : ∀ k ∈ E.graph.predsOf n, Covered (s.stateOf k) (s'.stateOf k))
    (h : E.gather s node = .ok merged) (h' : E.gather s' node = .ok merged') :
    Covered merged merged' := by
  have hid := hE.graph.ids n node hnode
  obtain ⟨outgoing, houtgoing, h⟩ := bind_eq_ok h
  obtain ⟨outgoing', houtgoing', h'⟩ := bind_eq_ok h'
  rw [hid] at houtgoing houtgoing'
  rw [hE.rule] at h h'
  obtain ⟨_, hcame⟩ := filterMapM_eq_ok houtgoing
  obtain ⟨hpassed', hcame'⟩ := filterMapM_eq_ok houtgoing'
  have hin := hE.regular_incoming hs n
  have hin' := hE.regular_incoming hs' n
  have hfits : ∀ q ∈ outgoing, q.Fits E.model E.startEnv := by
    intro q hq
    obtain ⟨p, hp, hpass⟩ := hcame q hq
    exact (hE.regular_pass hnode (hin p hp) hpass).fits
  have hfits' : ∀ q ∈ outgoing', q.Fits E.model E.startEnv := by
    intro q hq
    obtain ⟨p, hp, hpass⟩ := hcame' q hq
    exact (hE.regular_pass hnode (hin' p hp) hpass).fits
  refine MergeRule.mergeAll_always_mono hfits hfits' (fun p' hp' => ?_) h h'
  obtain ⟨p, hp, hpass⟩ := hcame p' hp'
  obtain ⟨q, hq, hpq⟩ := incoming_mono hcovered p hp
  obtain ⟨q', hpass', hle⟩ := hE.pass_mono hnode (hin p hp) (hin' q hq) hpq hpass
  obtain ⟨o, ho, hmem⟩ := hpassed' q hq
  obtain rfl := Except.ok.inj (hpass'.symm.trans ho)
  exact ⟨q', hmem q' rfl, hle⟩

end Tame

def Growing (E : Engine) (s : Progress) : Prop :=
  ∀ (n : NodeId) (node : Node) (merged : List Partition), E.graph.nodes[n]? = some node →
    node.widening = false → E.gather s node = .ok merged → Covered (s.stateOf n) merged

lemma growing_initial (E : Engine) : E.Growing E.initial := by
  intro n node merged _ _ _ p hp
  rw [stateOf_initial] at hp
  exact absurd hp List.not_mem_nil

lemma recompute_of_not_widening (hwidening : node.widening = false)
    (h : E.recompute s node = .ok state) : E.gather s node = .ok state := by
  rw [recompute_eq_gather] at h
  obtain ⟨merged, hmerged, h⟩ := bind_eq_ok h
  rw [absorbed, hwidening] at h
  exact hmerged.trans h

namespace Visits

lemma covered (hE : E.Tame) (hs : E.Orderly s) (hgrowing : E.Growing s)
    (h : E.Visits s s' n node state) (k : NodeId) : Covered (s.stateOf k) (s'.stateOf k) := by
  by_cases hk : k = n
  · rw [hk, h.stateOf_self]
    cases hwidening : node.widening with
    | true => exact (hE.recompute_orderly hs h.lookup h.recompute).2 hwidening
    | false =>
      exact hgrowing n node state h.lookup hwidening
        (recompute_of_not_widening hwidening h.recompute)
  · rw [h.stateOf_other hk]
    exact Covered.refl _

lemma growing (hE : E.Tame) (hs : E.Orderly s) (hgrowing : E.Growing s)
    (h : E.Visits s s' n node state) : E.Growing s' := by
  have hs' := h.orderly hE.toRanged hs
  intro k node' merged hnode' hwidening hmerged
  obtain ⟨before, hbefore⟩ := hE.exists_gather hs hnode'
  have hmono : Covered before merged :=
    hE.gather_mono hs hs' hnode' (fun j _ => h.covered hE hs hgrowing j) hbefore hmerged
  by_cases hk : k = n
  · subst hk
    obtain rfl := Option.some.inj (h.lookup.symm.trans hnode')
    have hstate := recompute_of_not_widening hwidening h.recompute
    obtain rfl := Except.ok.inj (hbefore.symm.trans hstate)
    rw [h.stateOf_self]
    exact hmono
  · rw [h.stateOf_other hk]
    exact (hgrowing k node' before hnode' hwidening hbefore).trans hmono

end Visits

end Engine

instance : Finite BoolSet := by
  refine Finite.of_injective (fun s => (s.hasFalse, s.hasTrue)) fun s t h => ?_
  cases s
  cases t
  cases h
  rfl

instance : Finite ElemSet := by
  refine Finite.of_injective ElemSet.mask fun s t h => ?_
  cases s
  cases t
  cases h
  rfl

instance : Finite Interval := by
  refine Finite.of_surjective
    (fun bounds : Option (Int64 × Int64) => bounds.elim .empty fun b => .between b.1 b.2) fun i => ?_
  cases i with
  | empty => exact ⟨none, rfl⟩
  | range l h le => exact ⟨some (l, h), dif_pos le⟩

instance : Finite Value := by
  refine Finite.of_surjective
    (Sum.elim Value.bools (Sum.elim Value.ints Value.elems)) fun a => ?_
  cases a with
  | bools s => exact ⟨.inl s, rfl⟩
  | ints i => exact ⟨.inr (.inl i), rfl⟩
  | elems s => exact ⟨.inr (.inr s), rfl⟩

instance : Finite VarId := by
  refine Finite.of_injective VarId.val fun v w h => ?_
  cases v
  cases w
  cases h
  rfl

instance : Finite Env :=
  Finite.of_injective Env.get? fun _ _ h => Env.ext_get? fun v => congrFun h v

lemma finite_nodup_bounded (k : Nat) : {l : List Nat | l.Nodup ∧ ∀ n ∈ l, n < k}.Finite := by
  refine ((List.finite_length_le (Fin k) k).image (List.map Fin.val)).subset ?_
  rintro l ⟨hnodup, hbounded⟩
  have hl : (l.pmap Fin.mk hbounded).map Fin.val = l := by
    rw [List.map_pmap]
    simp
  refine ⟨l.pmap Fin.mk hbounded, ?_, hl⟩
  have hlength := List.Nodup.length_le_card (List.Nodup.of_map Fin.val (hl.symm ▸ hnodup))
  simpa using hlength

lemma finite_regular (E : Engine) : {p : Partition | p.Regular E}.Finite := by
  refine Set.Finite.of_injOn (f := fun p => (p.trace.nodes, p.env)) ?_ ?_
    ((finite_nodup_bounded E.graph.size).prod (Set.finite_univ (α := Env)))
  · exact fun p hp => ⟨⟨hp.nodup, hp.bounded⟩, Set.mem_univ _⟩
  · rintro ⟨⟨nodes⟩, env⟩ _ ⟨⟨nodes'⟩, env'⟩ _ h
    cases h
    rfl

end Tracewise
