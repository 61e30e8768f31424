import Mathlib.Tactic
import Tracewise.State.Trace

/-! Traces as finite sets. A trace visits no node twice, so traces of one length of which one
includes the other have the same nodes. -/

namespace Tracewise.Trace

variable {t u : Trace} {n k : NodeId} {l : List NodeId}

lemma contains_iff : t.contains n = true ↔ n ∈ t.nodes := by
  rw [contains, List.contains_iff_mem]

lemma extend_of_mem (h : n ∈ t.nodes) : t.extend n = t := by
  rw [extend, if_pos (contains_iff.mpr h)]

lemma extend_of_not_mem (h : n ∉ t.nodes) : t.extend n = ⟨t.nodes ++ [n]⟩ := by
  rw [extend, if_neg (contains_iff.not.mpr h)]

lemma mem_extend : k ∈ (t.extend n).nodes ↔ k ∈ t.nodes ∨ k = n := by
  by_cases h : n ∈ t.nodes
  · rw [extend_of_mem h]
    exact ⟨Or.inl, fun hk => hk.elim id fun hk => hk ▸ h⟩
  · rw [extend_of_not_mem h, List.mem_append, List.mem_singleton]

lemma mem_foldl_extend : k ∈ (l.foldl extend t).nodes ↔ k ∈ t.nodes ∨ k ∈ l := by
  induction l generalizing t with
  | nil => simp
  | cons n l ih => rw [List.foldl_cons, ih, mem_extend, List.mem_cons, or_assoc]

lemma mem_union : k ∈ (t.union u).nodes ↔ k ∈ t.nodes ∨ k ∈ u.nodes := mem_foldl_extend

lemma subset_iff : t.subset u = true ↔ t.nodes ⊆ u.nodes := by
  simp only [subset, List.all_eq_true, contains_iff]
  rfl

lemma sameNodes_of_perm (h : t.nodes.Perm u.nodes) : t.sameNodes u = true := by
  rw [sameNodes, Bool.and_eq_true, beq_iff_eq, subset_iff]
  exact ⟨h.length_eq, h.subset⟩

lemma perm_of_sameNodes (ht : t.nodes.Nodup) (h : t.sameNodes u = true) :
    t.nodes.Perm u.nodes := by
  rw [sameNodes, Bool.and_eq_true, beq_iff_eq, subset_iff] at h
  exact (ht.subperm h.2).perm_of_length_le h.1.ge

lemma sameNodes_refl (t : Trace) : t.sameNodes t = true := sameNodes_of_perm (.refl _)

lemma nodup_extend (h : t.nodes.Nodup) (n : NodeId) : (t.extend n).nodes.Nodup := by
  by_cases hn : n ∈ t.nodes
  · rw [extend_of_mem hn]
    exact h
  · rw [extend_of_not_mem hn, ← List.concat_eq_append]
    exact h.concat hn

lemma nodup_union (h : t.nodes.Nodup) (u : Trace) : (t.union u).nodes.Nodup := by
  obtain ⟨l⟩ := u
  induction l generalizing t with
  | nil => exact h
  | cons n l ih => exact ih (nodup_extend h n)

lemma toFinset_extend (t : Trace) (n : NodeId) :
    (t.extend n).nodes.toFinset = insert n t.nodes.toFinset := by
  ext k
  simp only [List.mem_toFinset, mem_extend, Finset.mem_insert, or_comm]

lemma toFinset_union (t u : Trace) :
    (t.union u).nodes.toFinset = t.nodes.toFinset ∪ u.nodes.toFinset := by
  ext k
  simp only [List.mem_toFinset, mem_union, Finset.mem_union]

lemma subset_iff_toFinset : t.subset u = true ↔ t.nodes.toFinset ⊆ u.nodes.toFinset := by
  rw [subset_iff]
  simp [Finset.subset_iff, List.subset_def]

lemma sameNodes_iff_toFinset (ht : t.nodes.Nodup) (hu : u.nodes.Nodup) :
    t.sameNodes u = true ↔ t.nodes.toFinset = u.nodes.toFinset := by
  constructor
  · intro h
    exact List.toFinset_eq_of_perm _ _ (perm_of_sameNodes ht h)
  · intro h
    exact sameNodes_of_perm (List.perm_of_nodup_nodup_toFinset_eq ht hu h)

lemma foldl_extend_of_subset (h : l ⊆ t.nodes) : l.foldl extend t = t := by
  induction l with
  | nil => rfl
  | cons n l ih =>
    rw [List.cons_subset] at h
    rw [List.foldl_cons, extend_of_mem h.1, ih h.2]

lemma union_self (t : Trace) : t.union t = t := foldl_extend_of_subset (List.Subset.refl _)

lemma union_extend (t u : Trace) (n : NodeId) : t.union (u.extend n) = (t.union u).extend n := by
  by_cases hn : n ∈ u.nodes
  · rw [extend_of_mem hn, extend_of_mem (mem_union.mpr (Or.inr hn))]
  · rw [extend_of_not_mem hn]
    simp [union]

lemma union_foldl_extend (t u : Trace) (l : List NodeId) :
    t.union (l.foldl extend u) = l.foldl extend (t.union u) := by
  induction l generalizing u with
  | nil => rfl
  | cons n l ih => rw [List.foldl_cons, ih, union_extend, List.foldl_cons]

lemma union_assoc (t u v : Trace) : (t.union u).union v = t.union (u.union v) :=
  (union_foldl_extend t u v.nodes).symm

inductive Built : Trace → Prop
  | empty : Built empty
  | extend {t : Trace} (n : NodeId) : Built t → Built (t.extend n)
  | union {t u : Trace} : Built t → Built u → Built (t.union u)
  | ofList (nodes : List NodeId) : Built (ofList nodes)

lemma Built.nodup (h : Built t) : t.nodes.Nodup := by
  induction h with
  | empty => exact List.nodup_nil
  | extend n _ ih => exact nodup_extend ih n
  | union _ _ iht _ => exact nodup_union iht _
  | ofList nodes => exact nodup_union List.nodup_nil ⟨nodes⟩

theorem traces_form_sets :
    (∀ t : Trace, Built t → t.nodes.Nodup) ∧
      (∀ t u : Trace, Built t → Built u →
        (t.subset u = true ↔ t.nodes.toFinset ⊆ u.nodes.toFinset) ∧
        (t.sameNodes u = true ↔ t.nodes.toFinset = u.nodes.toFinset)) ∧
      Equivalence (fun t u : {t // Built t} => t.val.sameNodes u.val = true) ∧
      (∀ t u : Trace, (t.union u).nodes.toFinset = t.nodes.toFinset ∪ u.nodes.toFinset) ∧
      (∀ t u v : Trace, (t.union u).union v = t.union (u.union v)) ∧
      (∀ t : Trace, t.union t = t) ∧
      ∀ (t : Trace) (n : NodeId), (t.extend n).nodes.toFinset = insert n t.nodes.toFinset := by
  have hsame {t u : Trace} (ht : Built t) (hu : Built u) := sameNodes_iff_toFinset ht.nodup hu.nodup
  refine ⟨fun t => Built.nodup, fun t u ht hu => ⟨subset_iff_toFinset, hsame ht hu⟩, ⟨?_, ?_, ?_⟩,
    toFinset_union, union_assoc, union_self, toFinset_extend⟩
  · intro t
    exact sameNodes_refl t.val
  · intro t u h
    exact (hsame u.2 t.2).mpr ((hsame t.2 u.2).mp h).symm
  · intro t u v htu huv
    exact (hsame t.2 v.2).mpr (((hsame t.2 u.2).mp htu).trans ((hsame u.2 v.2).mp huv))

theorem turned_traces_same :
    Built (ofList [0, 1, 3, 1]) ∧ Built ((ofList [0, 3]).union (ofList [1, 0])) ∧
      (ofList [0, 1, 3, 1]).nodes.Nodup ∧
      (ofList [0, 1, 3, 1]).sameNodes ((ofList [0, 3]).union (ofList [1, 0])) = true := by
  have ht : Built (ofList [0, 1, 3, 1]) := .ofList _
  have hu : Built ((ofList [0, 3]).union (ofList [1, 0])) := .union (.ofList _) (.ofList _)
  obtain ⟨hnodup, hsets, -⟩ := traces_form_sets
  exact ⟨ht, hu, hnodup _ ht, (hsets _ _ ht hu).2.mpr (by decide)⟩

end Tracewise.Trace
