import Mathlib.Data.Set.NAry
import Tracewise.Proofs.MonotoneDefinitions

/-! Arithmetic on intervals is the best possible: the bounds of a result are results on words of the
operands. Sums, differences and negations have no other elements. -/

namespace Tracewise

open Saturating

namespace Interval

variable {i j r : Interval}

def elements (i : Interval) : Set Int64 := {w | w ∈ i}

lemma mem_elements (w : Int64) (i : Interval) : w ∈ i.elements ↔ i.Spans w.toInt := by
  change w ∈ i ↔ _
  cases i with
  | empty => simp
  | range l h le => rw [mem_range, spans_range, Int64.le_iff_toInt_le, Int64.le_iff_toInt_le]

lemma exists_element {n : Int} (hn : i.Spans n) : ∃ w ∈ i.elements, w.toInt = n := by
  have hword := word_of_spans hn
  have hw : (Int64.ofInt n).toInt = n := Int64.toInt_ofInt_of_le (by omega) (by omega)
  exact ⟨Int64.ofInt n, (mem_elements _ i).mpr (hw.symm ▸ hn), hw⟩

lemma elements_eq_empty_iff (i : Interval) : i.elements = ∅ ↔ i.isEmpty = true := by
  rw [isEmpty_iff, Set.eq_empty_iff_forall_notMem]
  rfl

lemma spans_iff_of_bounds {l h : Int64} (hbounds : r.bounds? = some (l, h)) (n : Int) :
    r.Spans n ↔ l.toInt ≤ n ∧ n ≤ h.toInt := by
  cases r with
  | empty => cases hbounds
  | range low high le =>
    cases hbounds
    rfl

lemma bounds_mem {l h : Int64} (hbounds : r.bounds? = some (l, h)) :
    l ∈ r.elements ∧ h ∈ r.elements := by
  cases r with
  | empty => cases hbounds
  | range low high le =>
    cases hbounds
    exact ⟨(mem_elements ..).mpr (spans_low ..), (mem_elements ..).mpr (spans_high ..)⟩

structure Tightest (results : Set Int64) (r : Interval) : Prop where
  holds : results ⊆ r.elements
  attains : ∀ l h, r.bounds? = some (l, h) → l ∈ results ∧ h ∈ results
  least : ∀ k : Interval, results ⊆ k.elements → r.subset k = true

namespace Tightest

variable {results : Set Int64}

lemma of_bounds (hholds : results ⊆ r.elements)
    (hattains : ∀ l h, r.bounds? = some (l, h) → l ∈ results ∧ h ∈ results) :
    Tightest results r := by
  refine ⟨hholds, hattains, fun k hk => ?_⟩
  cases r with
  | empty => rfl
  | range l h le =>
    obtain ⟨hl, hh⟩ := hattains l h rfl
    have hlow := (mem_elements l k).mp (hk hl)
    have hhigh := (mem_elements h k).mp (hk hh)
    exact (subset_eq_true_iff _ k).mpr fun n hn => spans_of_le_of_le hlow hhigh hn.1 hn.2

lemma of_elements_eq (h : r.elements = results) : Tightest results r :=
  of_bounds h.ge fun _ _ hbounds => h ▸ bounds_mem hbounds

lemma isEmpty_iff (h : Tightest results r) : r.isEmpty = true ↔ results = ∅ := by
  rw [← elements_eq_empty_iff]
  constructor
  · exact Set.subset_eq_empty h.holds
  · intro hresults
    have hsubset := (subset_iff r .empty).mp (h.least .empty (hresults ▸ Set.empty_subset _))
    exact Set.eq_empty_of_forall_notMem fun w hw => not_mem_empty w (hsubset w hw)

end Tightest

section Binary

variable {sat : Int64 → Int64 → Int64} {op : Int → Int → Int}
  {f : Interval → Interval → Interval}

structure Abstracts (sat : Int64 → Int64 → Int64) (f : Interval → Interval → Interval) : Prop where
  isEmpty_iff : ∀ i j, (f i j).isEmpty = true ↔ i.isEmpty = true ∨ j.isEmpty = true
  tightest : ∀ i j, Tightest (Set.image2 sat i.elements j.elements) (f i j)

lemma Abstracts.of_tightest
    (h : ∀ i j, Tightest (Set.image2 sat i.elements j.elements) (f i j)) : Abstracts sat f := by
  refine ⟨fun i j => ?_, h⟩
  rw [(h i j).isEmpty_iff, Set.image2_eq_empty_iff, elements_eq_empty_iff, elements_eq_empty_iff]

variable (hsat : ∀ a b, (sat a b).toInt = nearest (op a.toInt b.toInt))
  (hf : ∀ {i j : Interval} {a b : Int}, i.Spans a → j.Spans b →
    (f i j).Spans (nearest (op a b)))

include hsat in
lemma exists_operands {a b : Int} (ha : i.Spans a) (hb : j.Spans b) :
    ∃ w ∈ Set.image2 sat i.elements j.elements, w.toInt = nearest (op a b) := by
  obtain ⟨v, hv, rfl⟩ := exists_element ha
  obtain ⟨w, hw, rfl⟩ := exists_element hb
  exact ⟨_, Set.mem_image2_of_mem hv hw, hsat v w⟩

include hsat hf in
lemma image2_subset_elements (i j : Interval) :
    Set.image2 sat i.elements j.elements ⊆ (f i j).elements := by
  rw [Set.image2_subset_iff]
  intro v hv w hw
  rw [mem_elements] at hv hw ⊢
  exact hsat v w ▸ hf hv hw

include hsat hf in
lemma tightest_of_tight (ht : Tight op f) (i j : Interval) :
    Tightest (Set.image2 sat i.elements j.elements) (f i j) := by
  have hholds := image2_subset_elements hsat hf i j
  refine .of_bounds hholds fun l h hbounds => ?_
  have hwithin : ∀ w ∈ Set.image2 sat i.elements j.elements,
      l.toInt ≤ w.toInt ∧ w.toInt ≤ h.toInt :=
    fun w hw => (spans_iff_of_bounds hbounds _).mp ((mem_elements ..).mp (hholds hw))
  obtain ⟨hl, hh⟩ := bounds_mem hbounds
  constructor
  · obtain ⟨a, b, _, _, ha, hb, _, _, hlow, _⟩ := ht i j _ ((mem_elements ..).mp hl)
    obtain ⟨w, hw, hword⟩ := exists_operands hsat ha hb
    obtain rfl : w = l := Int64.toInt_inj.mp (le_antisymm (hword ▸ hlow) (hwithin w hw).1)
    exact hw
  · obtain ⟨_, _, a, b, _, _, ha, hb, _, hhigh⟩ := ht i j _ ((mem_elements ..).mp hh)
    obtain ⟨w, hw, hword⟩ := exists_operands hsat ha hb
    obtain rfl : w = h := Int64.toInt_inj.mp (le_antisymm (hwithin w hw).2 (hword ▸ hhigh))
    exact hw

include hsat hf in
lemma elements_eq_image2
    (honto : ∀ {i j : Interval} {n : Int}, (f i j).Spans n →
      ∃ a b, i.Spans a ∧ j.Spans b ∧ nearest (op a b) = n) (i j : Interval) :
    (f i j).elements = Set.image2 sat i.elements j.elements := by
  refine Set.Subset.antisymm (fun n hn => ?_) (image2_subset_elements hsat hf i j)
  obtain ⟨a, b, ha, hb, hab⟩ := honto ((mem_elements ..).mp hn)
  obtain ⟨w, hw, hword⟩ := exists_operands hsat ha hb
  obtain rfl : w = n := Int64.toInt_inj.mp (hword.trans hab)
  exact hw

end Binary

lemma exists_nearest_eq {l h n : Int} (hlh : l ≤ h) (hl : nearest l ≤ n) (hh : n ≤ nearest h) :
    ∃ m, l ≤ m ∧ m ≤ h ∧ nearest m = n := by
  refine ⟨max l (min n h), by omega, by omega, ?_⟩
  simp only [nearest] at hl hh ⊢
  omega

lemma exists_sum_eq {l₁ h₁ l₂ h₂ n : Int} (h₁le : l₁ ≤ h₁) (h₂le : l₂ ≤ h₂) (hl : l₁ + l₂ ≤ n)
    (hh : n ≤ h₁ + h₂) : ∃ a b, (l₁ ≤ a ∧ a ≤ h₁) ∧ (l₂ ≤ b ∧ b ≤ h₂) ∧ a + b = n :=
  ⟨max l₁ (n - h₂), n - max l₁ (n - h₂), by omega, by omega, by omega⟩

lemma exists_of_spans_add {n : Int} (hn : (i.add j).Spans n) :
    ∃ a b, i.Spans a ∧ j.Spans b ∧ nearest (a + b) = n := by
  cases i with
  | empty => exact hn.elim
  | range l₁ h₁ le₁ =>
    cases j with
    | empty => exact hn.elim
    | range l₂ h₂ le₂ =>
      rw [Int64.le_iff_toInt_le] at le₁ le₂
      rw [add, spans_between, toInt_add, toInt_add] at hn
      obtain ⟨m, hl, hh, rfl⟩ := exists_nearest_eq (by omega) hn.1 hn.2
      obtain ⟨a, b, ha, hb, rfl⟩ := exists_sum_eq le₁ le₂ hl hh
      exact ⟨a, b, ha, hb, rfl⟩

lemma exists_of_spans_sub {n : Int} (hn : (i.sub j).Spans n) :
    ∃ a b, i.Spans a ∧ j.Spans b ∧ nearest (a - b) = n := by
  cases i with
  | empty => exact hn.elim
  | range l₁ h₁ le₁ =>
    cases j with
    | empty => exact hn.elim
    | range l₂ h₂ le₂ =>
      rw [Int64.le_iff_toInt_le] at le₁ le₂
      rw [sub, spans_between, toInt_sub, toInt_sub] at hn
      obtain ⟨m, hl, hh, rfl⟩ := exists_nearest_eq (by omega) hn.1 hn.2
      obtain ⟨a, b, ha, hb, rfl⟩ := exists_sum_eq le₁ (neg_le_neg le₂) hl hh
      exact ⟨a, -b, ha, ⟨by omega, by omega⟩, by rw [sub_neg_eq_add]⟩

lemma exists_of_spans_neg {n : Int} (hn : i.neg.Spans n) : ∃ a, i.Spans a ∧ nearest (-a) = n := by
  cases i with
  | empty => exact hn.elim
  | range l h le =>
    rw [Int64.le_iff_toInt_le] at le
    rw [neg, spans_between, toInt_neg, toInt_neg] at hn
    obtain ⟨m, hl, hh, rfl⟩ := exists_nearest_eq (by omega) hn.1 hn.2
    exact ⟨-m, ⟨by omega, by omega⟩, by rw [neg_neg]⟩

lemma neg_elements (i : Interval) : i.neg.elements = Saturating.neg '' i.elements := by
  ext n
  rw [Set.mem_image, mem_elements]
  constructor
  · intro hn
    obtain ⟨a, ha, hneg⟩ := exists_of_spans_neg hn
    obtain ⟨w, hw, rfl⟩ := exists_element ha
    exact ⟨w, hw, Int64.toInt_inj.mp ((toInt_neg w).trans hneg)⟩
  · rintro ⟨w, hw, rfl⟩
    rw [toInt_neg]
    exact spans_neg ((mem_elements w i).mp hw)

theorem arithmetic_best_abstraction :
    Abstracts Saturating.add add ∧ Abstracts Saturating.sub sub ∧ Abstracts Saturating.mul mul ∧
      (∀ i : Interval, (i.neg.isEmpty = true ↔ i.isEmpty = true) ∧
        Tightest (Saturating.neg '' i.elements) i.neg) ∧
      ∀ i j : Interval,
        (i.add j).elements = Set.image2 Saturating.add i.elements j.elements ∧
        (i.sub j).elements = Set.image2 Saturating.sub i.elements j.elements ∧
        i.neg.elements = Saturating.neg '' i.elements := by
  have hadd := elements_eq_image2 toInt_add spans_add exists_of_spans_add
  have hsub := elements_eq_image2 toInt_sub spans_sub exists_of_spans_sub
  refine ⟨.of_tightest fun i j => .of_elements_eq (hadd i j),
    .of_tightest fun i j => .of_elements_eq (hsub i j),
    .of_tightest (tightest_of_tight toInt_mul spans_mul tight_mul), fun i => ?_,
    fun i j => ⟨hadd i j, hsub i j, neg_elements i⟩⟩
  have hneg := Tightest.of_elements_eq (neg_elements i)
  exact ⟨by rw [hneg.isEmpty_iff, Set.image_eq_empty, elements_eq_empty_iff], hneg⟩

end Interval

end Tracewise
