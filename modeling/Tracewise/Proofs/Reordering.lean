import Tracewise.Proofs.Growth

/-! States that differ in the order of their traces only. The engine compares traces as sets, so
recomputing a node from such states gives such states again. -/

namespace Tracewise

open Fallible

namespace Trace

structure Congruence (R : Trace → Trace → Prop) : Prop where
  refl : ∀ t, t.nodes.Nodup → R t t
  perm : ∀ t t', R t t' → t.nodes.Perm t'.nodes
  union : ∀ t t' u u', R t t' → R u u' → R (t.union u) (t'.union u')

variable {R : Trace → Trace → Prop} {t t' u u' : Trace}

namespace Congruence

lemma extend (hR : Congruence R) (h : R t t') (n : NodeId) : R (t.extend n) (t'.extend n) :=
  hR.union t t' ⟨[n]⟩ ⟨[n]⟩ h (hR.refl _ (List.nodup_singleton n))

lemma subset_congr (hR : Congruence R) (ht : R t t') (hu : R u u') : t.subset u = t'.subset u' := by
  rw [Bool.eq_iff_iff, subset_iff, subset_iff]
  exact (hR.perm t t' ht).subset_congr_left.trans (hR.perm u u' hu).subset_congr_right

lemma sameNodes_congr (hR : Congruence R) (ht : R t t') (hu : R u u') :
    t.sameNodes u = t'.sameNodes u' := by
  rw [sameNodes, sameNodes, hR.subset_congr ht hu, length, length, length, length,
    (hR.perm t t' ht).length_eq, (hR.perm u u' hu).length_eq]

end Congruence

def Reordered (t t' : Trace) : Prop := t.nodes.Nodup ∧ t.nodes.Perm t'.nodes

lemma congruence_reordered : Congruence Reordered where
  refl t ht := ⟨ht, .refl _⟩
  perm t t' h := h.2
  union t t' u u' ht hu := by
    have hnodup := nodup_union ht.1 u
    refine ⟨hnodup, (List.perm_ext_iff_of_nodup hnodup (nodup_union (ht.2.nodup ht.1) u')).mpr ?_⟩
    intro n
    rw [mem_union, mem_union, ht.2.mem_iff, hu.2.mem_iff]

/-- Traces with the same nodes that agree in the first `k` of them, and in the next one unless the
second has `c` there. -/
def Veers (k : Nat) (c : NodeId) (t t' : Trace) : Prop :=
  Reordered t t' ∧ t'.nodes.take k = t.nodes.take k ∧
    (t'.nodes[k]? = t.nodes[k]? ∨ t'.nodes[k]? = some c)

lemma Veers.take_succ {k : Nat} {c : NodeId} (h : Veers k c t t') (hc : t.nodes[k]? = some c) :
    t'.nodes.take (k + 1) = t.nodes.take (k + 1) := by
  have hnext : t'.nodes[k]? = t.nodes[k]? := h.2.2.elim id fun hc' => hc'.trans hc.symm
  rw [List.take_add_one, List.take_add_one, h.2.1, hnext]

lemma isPrefix_foldl_extend (l : List NodeId) (t : Trace) :
    t.nodes <+: (l.foldl extend t).nodes := by
  induction l generalizing t with
  | nil => exact List.prefix_rfl
  | cons n l ih =>
    refine List.IsPrefix.trans ?_ (ih (t.extend n))
    rw [extend]
    split
    · exact List.prefix_rfl
    · exact List.prefix_append _ _

section Veers

variable {k : Nat} {c : NodeId}

lemma take_of_isPrefix {l l' : List NodeId} (h : l <+: l') (hk : k ≤ l.length) :
    l'.take k = l.take k := by
  obtain ⟨r, rfl⟩ := h
  exact List.take_append_of_le_length hk

lemma getElem?_of_isPrefix {l l' : List NodeId} (h : l <+: l') (hk : k < l.length) :
    l'[k]? = l[k]? := by
  obtain ⟨r, rfl⟩ := h
  exact List.getElem?_append_left hk

lemma getElem?_of_concat_isPrefix {l l' : List NodeId} {x : NodeId} (h : l ++ [x] <+: l')
    (hk : l.length = k) : l'[k]? = some x := by
  rw [getElem?_of_isPrefix h (by simp [hk]), ← hk, List.getElem?_concat_length]

lemma Veers.eq_of_length_le (h : Veers k c t t') (hk : t.nodes.length ≤ k) : t = t' := by
  have htake := h.2.1
  rw [List.take_of_length_le hk, List.take_of_length_le (h.1.2.length_eq ▸ hk)] at htake
  cases t
  cases t'
  exact congrArg mk htake.symm

lemma isPrefix_union {w r : List NodeId} {x : NodeId} (hu : u.nodes.Nodup)
    (hsplit : u.nodes = w ++ x :: r) :
    (w.foldl extend t).nodes <+: (t.union u).nodes ∧ w.length ≤ (w.foldl extend t).nodes.length ∧
      ((w.foldl extend t).nodes.length = w.length →
        (w.foldl extend t).nodes ++ [x] <+: (t.union u).nodes) := by
  rw [hsplit] at hu
  have hunion : t.union u = r.foldl extend ((w.foldl extend t).extend x) := by
    rw [union, hsplit, List.foldl_append, List.foldl_cons]
  have hsub : w ⊆ (w.foldl extend t).nodes := fun n hn => mem_foldl_extend.mpr (Or.inr hn)
  have hsubperm : w.Subperm (w.foldl extend t).nodes := (List.nodup_append.mp hu).1.subperm hsub
  have hfront := isPrefix_foldl_extend r ((w.foldl extend t).extend x)
  rw [hunion]
  refine ⟨List.IsPrefix.trans (isPrefix_foldl_extend [x] _) hfront, hsubperm.length_le, ?_⟩
  intro hlength
  have hx : x ∉ (w.foldl extend t).nodes := by
    intro hmem
    have hxw : x ∈ w := (hsubperm.perm_of_length_le hlength.le).mem_iff.mpr hmem
    exact (List.nodup_append.mp hu).2.2 x hxw x List.mem_cons_self rfl
  have hextend : ((w.foldl extend t).extend x).nodes = (w.foldl extend t).nodes ++ [x] := by
    rw [extend, if_neg (fun h => hx (contains_iff.mp h))]
  exact hextend ▸ hfront

lemma veers_union_left (t : Trace) (hu : Veers k c u u') (hk : k < u.nodes.length) :
    (t.union u').nodes.take k = (t.union u).nodes.take k ∧
      ((t.union u').nodes[k]? = (t.union u).nodes[k]? ∨ (t.union u').nodes[k]? = some c) := by
  have hk' : k < u'.nodes.length := hu.1.2.length_eq ▸ hk
  have hsplit : u.nodes = u.nodes.take k ++ u.nodes[k] :: u.nodes.drop (k + 1) := by
    rw [← List.drop_eq_getElem_cons hk, List.take_append_drop]
  have hsplit' : u'.nodes = u.nodes.take k ++ u'.nodes[k] :: u'.nodes.drop (k + 1) := by
    rw [← hu.2.1, ← List.drop_eq_getElem_cons hk', List.take_append_drop]
  have hlength : (u.nodes.take k).length = k := List.length_take_of_le hk.le
  obtain ⟨hfront, hle, hnext⟩ := isPrefix_union (t := t) hu.1.1 hsplit
  obtain ⟨hfront', _, hnext'⟩ := isPrefix_union (t := t) (hu.1.2.nodup hu.1.1) hsplit'
  rw [hlength] at hle hnext hnext'
  have hturn : u'.nodes[k]? = u.nodes[k]? ∨ u'.nodes[k]? = some c := hu.2.2
  rw [List.getElem?_eq_getElem hk, List.getElem?_eq_getElem hk'] at hturn
  rw [take_of_isPrefix hfront hle, take_of_isPrefix hfront' hle]
  refine ⟨rfl, ?_⟩
  rcases hle.lt_or_eq with hlt | heq
  · rw [getElem?_of_isPrefix hfront hlt, getElem?_of_isPrefix hfront' hlt]
    exact Or.inl rfl
  · -- nothing else has come in between: each union goes on as its second trace does
    rw [getElem?_of_concat_isPrefix (hnext heq.symm) heq.symm,
      getElem?_of_concat_isPrefix (hnext' heq.symm) heq.symm]
    exact hturn

lemma congruence_veers (k : Nat) (c : NodeId) : Congruence (Veers k c) where
  refl t ht := ⟨congruence_reordered.refl t ht, rfl, Or.inl rfl⟩
  perm t t' h := h.1.2
  union t t' u u' ht hu := by
    refine ⟨congruence_reordered.union t t' u u' ht.1 hu.1, ?_⟩
    by_cases hk : k < t.nodes.length
    · have hk' : k < t'.nodes.length := ht.1.2.length_eq ▸ hk
      have hfront : t.nodes <+: (t.union u).nodes := isPrefix_foldl_extend u.nodes t
      have hfront' : t'.nodes <+: (t'.union u').nodes := isPrefix_foldl_extend u'.nodes t'
      rw [take_of_isPrefix hfront hk.le, take_of_isPrefix hfront' hk'.le,
        getElem?_of_isPrefix hfront hk, getElem?_of_isPrefix hfront' hk']
      exact ht.2
    · obtain rfl := ht.eq_of_length_le (not_lt.mp hk)
      by_cases hk : k < u.nodes.length
      · exact veers_union_left t hu hk
      · obtain rfl := hu.eq_of_length_le (not_lt.mp hk)
        exact ⟨rfl, Or.inl rfl⟩

end Veers

end Trace

def Partition.Retraced (R : Trace → Trace → Prop) (p p' : Partition) : Prop :=
  R p.trace p'.trace ∧ p.env = p'.env

namespace Trace.Congruence

open Tracewise.Engine Tracewise.Partition

variable {R : Trace → Trace → Prop} {m : Model} {o o' p p' q q' : Partition}
  {l l' old old' new new' : List Partition}

lemma covers_congr (hR : Congruence R) (ho : o.Retraced R o') (hp : p.Retraced R p') :
    covers m o p = covers m o' p' := by
  rw [covers, covers, hR.sameNodes_congr hp.1 ho.1, hR.subset_congr ho.1 hp.1, ho.2, hp.2]

lemma follows_keep (hR : Congruence R) (hl : List.Forall₂ (Retraced R) l l')
    (ho : o.Retraced R o') :
    Follows (List.Forall₂ (Retraced R)) (keep m l o) (keep m l' o') := by
  rw [keep, keep, anyM_congr hl fun p p' hp => hR.covers_congr ho hp]
  refine Follows.refl.bind fun covered covered' h => ?_
  subst h
  cases covered with
  | true => exact .ok hl
  | false => exact .ok (List.rel_append hl (.cons ho .nil))

lemma follows_widenPart (hR : Congruence R) (hold : List.Forall₂ (Retraced R) old old')
    (hp : p.Retraced R p') :
    Follows (Retraced R) (widenPart m old p) (widenPart m old' p') := by
  have hfind : Option.Rel (Retraced R) (old.find? (·.trace.sameNodes p.trace))
      (old'.find? (·.trace.sameNodes p'.trace)) :=
    find?_rel hold fun o o' ho => hR.sameNodes_congr ho.1 hp.1
  rw [widenPart, widenPart]
  generalize old.find? (·.trace.sameNodes p.trace) = found at hfind ⊢
  generalize old'.find? (·.trace.sameNodes p'.trace) = found' at hfind ⊢
  cases hfind with
  | none => exact .ok hp
  | some ho =>
    simp only [ho.2, hp.2]
    exact Follows.refl.bind fun env env' henv => .ok ⟨hp.1, henv⟩

lemma follows_widenState (hR : Congruence R) (hold : List.Forall₂ (Retraced R) old old')
    (hnew : List.Forall₂ (Retraced R) new new') :
    Follows (List.Forall₂ (Retraced R)) (widenState m old new) (widenState m old' new') := by
  rw [widenState, widenState]
  refine (Follows.mapM hnew fun p p' hp => hR.follows_widenPart hold hp).bind fun l l' hl => ?_
  exact Follows.foldlM hold hl fun l l' o o' hl ho => hR.follows_keep hl ho

lemma follows_merge (hR : Congruence R) (hp : p.Retraced R p') (hq : q.Retraced R q') :
    Follows (Retraced R) (p.merge q m) (p'.merge q' m) := by
  rw [merge, merge, hp.2, hq.2]
  exact Follows.refl.bind fun env env' henv => .ok ⟨hR.union _ _ _ _ hp.1 hq.1, henv⟩

lemma follows_mergeAll (hR : Congruence R) (h : List.Forall₂ (Retraced R) l l') :
    Follows (List.Forall₂ (Retraced R)) (MergeRule.always.mergeAll m l)
      (MergeRule.always.mergeAll m l') := by
  cases h with
  | nil => exact .ok .nil
  | cons hp hl =>
    rw [MergeRule.mergeAll_always_cons, MergeRule.mergeAll_always_cons]
    exact (Follows.foldlM hl hp fun p p' q q' hp hq => hR.follows_merge hp hq).bind
      fun r r' hr => .ok (.cons hr .nil)

variable {E : Engine} {s s' : Progress} {node : Node}

lemma follows_pass (hR : Congruence R) (hp : p.Retraced R p') :
    Follows (Option.Rel (Retraced R)) (E.pass node p) (E.pass node p') := by
  rw [Engine.pass, Engine.pass, hp.2]
  refine Follows.refl.bind fun found found' h => ?_
  subst h
  cases found with
  | none => exact .ok .none
  | some env => exact .ok (.some ⟨hR.extend hp.1 node.id, rfl⟩)

lemma retraced_incoming (hR : Congruence R) {n : NodeId}
    (h : ∀ k ∈ E.graph.predsOf n, List.Forall₂ (Retraced R) (s.stateOf k) (s'.stateOf k)) :
    List.Forall₂ (Retraced R) (E.incoming s n) (E.incoming s' n) := by
  rw [incoming, incoming]
  split
  · exact .cons ⟨hR.refl _ List.nodup_nil, rfl⟩ (forall₂_flatMap h)
  · exact forall₂_flatMap h

lemma follows_gather (hR : Congruence R) (hE : E.Tame)
    (h : ∀ k ∈ E.graph.predsOf node.id,
      List.Forall₂ (Retraced R) (s.stateOf k) (s'.stateOf k)) :
    Follows (List.Forall₂ (Retraced R)) (E.gather s node) (E.gather s' node) := by
  rw [gather, gather, hE.rule]
  refine (Follows.filterMapM (hR.retraced_incoming h) fun p p' hp => hR.follows_pass hp).bind ?_
  exact fun l l' hl => hR.follows_mergeAll hl

lemma follows_absorbed (hR : Congruence R) (hnew : List.Forall₂ (Retraced R) new new')
    (h : node.widening = true →
      List.Forall₂ (Retraced R) (s.stateOf node.id) (s'.stateOf node.id)) :
    Follows (List.Forall₂ (Retraced R)) (E.absorbed s node new) (E.absorbed s' node new') := by
  rw [absorbed, absorbed]
  split
  · rename_i hwidening
    exact hR.follows_widenState (h hwidening) hnew
  · exact .ok hnew

theorem follows_recompute (hR : Congruence R) (hE : E.Tame)
    (hpreds : ∀ k ∈ E.graph.predsOf node.id,
      List.Forall₂ (Retraced R) (s.stateOf k) (s'.stateOf k))
    (hself : List.Forall₂ (Retraced R) (s.stateOf node.id) (s'.stateOf node.id)) :
    Follows (List.Forall₂ (Retraced R)) (E.recompute s node) (E.recompute s' node) := by
  rw [recompute_eq_gather, recompute_eq_gather]
  exact (hR.follows_gather hE hpreds).bind fun l l' hl => hR.follows_absorbed hl fun _ => hself

end Trace.Congruence

end Tracewise
