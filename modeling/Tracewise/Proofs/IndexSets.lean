import Tracewise.Proofs.Inclusion

namespace Tracewise.ElemSet

def indices (s : ElemSet) : Finset Nat := (Finset.range maxLiterals).filter (· ∈ s)

variable {s t : ElemSet} {i n : Nat}

@[simp] lemma mem_indices : i ∈ s.indices ↔ i ∈ s := by
  rw [indices, Finset.mem_filter, Finset.mem_range, and_iff_right_iff_imp]
  exact lt_of_mem

lemma indices_injective : Function.Injective indices := by
  intro s t h
  refine ext_mem fun i => ?_
  rw [← mem_indices, h, mem_indices]

lemma indices_union (s t : ElemSet) : (s.union t).indices = s.indices ∪ t.indices := by
  ext i
  simp

lemma indices_inter (s t : ElemSet) : (s.inter t).indices = s.indices ∩ t.indices := by
  ext i
  simp

lemma indices_diff (s t : ElemSet) : (s.diff t).indices = s.indices \ t.indices := by
  ext i
  simp

lemma subset_iff_indices : s.subset t = true ↔ s.indices ⊆ t.indices := by
  rw [subset_eq_true_iff]
  simp only [Finset.subset_iff, mem_indices]
  rfl

lemma pairwise_toList (s : ElemSet) : s.toList.Pairwise (· < ·) := List.pairwise_lt_range.filter _

lemma toFinset_toList (s : ElemSet) : s.toList.toFinset = s.indices := by
  ext i
  simp

lemma size_eq_card (s : ElemSet) : s.size = s.indices.card := by
  have hnodup : s.toList.Nodup := s.pairwise_toList.imp Nat.ne_of_lt
  rw [size_eq_length, ← toFinset_toList, List.toFinset_card_of_nodup hnodup]

lemma full_min (n : Nat) : full (min n maxLiterals) = full n := by
  rcases le_total n maxLiterals with h | h
  · rw [min_eq_left h]
  · rw [min_eq_right h, full, full, if_pos le_rfl, if_pos h]

lemma indices_full (n : Nat) : (full n).indices = Finset.range (min n maxLiterals) := by
  ext i
  rw [← full_min, mem_indices, mem_full (min_le_right _ _), Finset.mem_range]

lemma indices_singleton (i : Fin maxLiterals) : (singleton i).indices = {i.val} := by
  ext j
  rw [mem_indices, mem_singleton, Finset.mem_singleton]

lemma size_eq_one_iff : s.size = 1 ↔ ∃ i, s = singleton i := by
  rw [size_eq_card, Finset.card_eq_one]
  constructor
  · rintro ⟨i, hi⟩
    have hmem : i ∈ s := by
      rw [← mem_indices, hi]
      exact Finset.mem_singleton_self i
    refine ⟨⟨i, lt_of_mem hmem⟩, indices_injective ?_⟩
    rw [hi, indices_singleton]
  · rintro ⟨i, rfl⟩
    exact ⟨i, indices_singleton i⟩

theorem masks_represent_sets :
    (∀ (s : ElemSet) (i : Nat), s.contains i = true ↔ i ∈ s.indices) ∧
      (∀ s : ElemSet, s.indices ⊆ Finset.range maxLiterals) ∧
      Function.Injective indices ∧
      (∀ s t : ElemSet, (s.union t).indices = s.indices ∪ t.indices ∧
        (s.inter t).indices = s.indices ∩ t.indices ∧
        (s.diff t).indices = s.indices \ t.indices ∧
        (s.subset t = true ↔ s.indices ⊆ t.indices)) ∧
      (∀ s : ElemSet, s.size = s.indices.card) ∧
      (∀ s : ElemSet, s.toList.Pairwise (· < ·) ∧ s.toList.toFinset = s.indices) ∧
      (∀ n : Nat, (full n).indices = Finset.range (min n maxLiterals)) ∧
      (∀ i : Fin maxLiterals, (singleton i).indices = {i.val}) ∧
      ∀ s t : ElemSet, s.size = 1 ∧ s = t ↔ ∃ i, s = singleton i ∧ t = singleton i := by
  refine ⟨fun s i => mem_indices.symm, fun s => Finset.filter_subset _ _, indices_injective,
    fun s t => ⟨indices_union s t, indices_inter s t, indices_diff s t, subset_iff_indices⟩,
    size_eq_card, fun s => ⟨s.pairwise_toList, s.toFinset_toList⟩, indices_full, indices_singleton,
    fun s t => ?_⟩
  rw [size_eq_one_iff]
  constructor
  · rintro ⟨⟨i, hs⟩, rfl⟩
    exact ⟨i, hs, hs⟩
  · rintro ⟨i, rfl, rfl⟩
    exact ⟨⟨i, rfl⟩, rfl⟩

end Tracewise.ElemSet
