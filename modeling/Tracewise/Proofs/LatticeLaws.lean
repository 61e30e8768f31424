import Mathlib.Order.Bounds.Basic
import Tracewise.Proofs.Inclusion
import Tracewise.Proofs.StoredBounds

namespace Tracewise

open Fallible

namespace Domain

variable {dom : Domain} {a b c : Value}

lemma accepts_bottom (dom : Domain) : dom.accepts dom.bottom = true := by
  cases dom <;> rfl

lemma not_mem_bottom (dom : Domain) (d : Datum) : d ∉ dom.bottom := by
  cases dom with
  | bool => simp [bottom, BoolSet.ops, Value.mem_bools]
  | int r => simp [bottom, Range.ops, Value.mem_ints]
  | finite e => simp [bottom, Enumeration.ops, Value.mem_elems, ElemSet.not_mem_empty]

lemma le_meet_iff (h : dom.meet a b = .ok c) (k : Value) : k ≤ c ↔ k ≤ a ∧ k ≤ b := by
  obtain ⟨ha, hb⟩ := accepts_of_dispatch h
  obtain ⟨c', hc', _, hmem⟩ := meet_spec ha hb
  obtain rfl := Except.ok.inj (h.symm.trans hc')
  constructor
  · intro hk
    exact ⟨fun d hd => ((hmem d).mp (hk d hd)).1, fun d hd => ((hmem d).mp (hk d hd)).2⟩
  · rintro ⟨hka, hkb⟩ d hd
    exact (hmem d).mpr ⟨hka d hd, hkb d hd⟩

lemma join_le_widen {j w : Value} (hj : dom.join a b = .ok j) (hw : dom.widen a b = .ok w) :
    j ≤ w := by
  obtain ⟨ha, hb⟩ := accepts_of_dispatch hj
  obtain ⟨w', hw', hacc, hmem, _⟩ := widen_spec ha hb
  obtain rfl := Except.ok.inj (hw.symm.trans hw')
  exact (join_le_iff ha hb hacc hj).mpr
    ⟨fun d hd => hmem d (Or.inl hd), fun d hd => hmem d (Or.inr hd)⟩

structure Element (dom : Domain) where
  value : Value
  accepted : dom.accepts value = true

namespace Element

variable {dom : Domain}

@[ext] lemma ext {a b : dom.Element} (h : a.value = b.value) : a = b := by
  cases a
  cases b
  cases h
  rfl

def Below (a b : dom.Element) : Prop := dom.le a.value b.value = .ok true

lemma below_iff {a b : dom.Element} : a.Below b ↔ a.value ≤ b.value :=
  le_eq_true_iff a.accepted b.accepted

instance : PartialOrder dom.Element where
  le := Below
  le_refl a := below_iff.mpr le_rfl
  le_trans a b c hab hbc := below_iff.mpr ((below_iff.mp hab).trans (below_iff.mp hbc))
  le_antisymm a b hab hba :=
    ext (eq_of_le_of_le a.accepted b.accepted (below_iff.mp hab) (below_iff.mp hba))

lemma le_iff {a b : dom.Element} : a ≤ b ↔ a.value ≤ b.value := below_iff

lemma exists_join (a b : dom.Element) :
    ∃ j : dom.Element, dom.join a.value b.value = .ok j.value ∧ IsLUB {a, b} j := by
  obtain ⟨j, hj, hacc, _⟩ := join_spec a.accepted b.accepted
  refine ⟨⟨j, hacc⟩, hj, isLUB_iff_le_iff.mpr fun k => ?_⟩
  simpa [le_iff] using join_le_iff a.accepted b.accepted k.accepted hj

lemma exists_meet (a b : dom.Element) :
    ∃ k : dom.Element, dom.meet a.value b.value = .ok k.value ∧ IsGLB {a, b} k := by
  obtain ⟨k, hk, hacc, _⟩ := meet_spec a.accepted b.accepted
  refine ⟨⟨k, hacc⟩, hk, isGLB_iff_le_iff.mpr fun c => ?_⟩
  simpa [le_iff] using le_meet_iff hk c.value

lemma exists_widen {a b j : dom.Element} (hj : dom.join a.value b.value = .ok j.value) :
    ∃ w : dom.Element, dom.widen a.value b.value = .ok w.value ∧ j ≤ w := by
  obtain ⟨w, hw, hacc, _⟩ := widen_spec a.accepted b.accepted
  exact ⟨⟨w, hacc⟩, hw, le_iff.mpr (join_le_widen hj hw)⟩

end Element

theorem lattice_laws (dom : Domain) :
    IsPartialOrder dom.Element Element.Below ∧
    (∀ a b : dom.Element, ∃ holds, dom.le a.value b.value = .ok holds ∧
      (holds = true ↔ ∀ d : Datum, d ∈ a.value → d ∈ b.value)) ∧
    (∀ a b : dom.Element, ∃ j k w : dom.Element,
      dom.join a.value b.value = .ok j.value ∧ IsLUB {a, b} j ∧
      dom.meet a.value b.value = .ok k.value ∧ IsGLB {a, b} k ∧
      dom.widen a.value b.value = .ok w.value ∧ j ≤ w) ∧
    (∀ l h : Int64,
      (Bounds.between l h).Stores (.between l h) ∧ (Bounds.constant l).Stores (.constant l)) ∧
    ∀ a b : Bounds, a.Canonical → b.Canonical →
      (a.join b).Stores (a.interval.join b.interval) ∧
      (a.meet b).Stores (a.interval.meet b.interval) ∧
      (a.add b).Stores (a.interval.add b.interval) ∧
      (a.sub b).Stores (a.interval.sub b.interval) ∧
      (a.mul b).Stores (a.interval.mul b.interval) ∧
      a.neg.Stores a.interval.neg ∧
      (∀ n, (a.removeEnd n).Stores (a.interval.removeEnd n)) ∧
      ∀ r : Range, (a.clamp r).Stores (r.clamp a.interval) ∧
        (a.widen r b).Stores (r.widen a.interval b.interval) := by
  refine ⟨?_, ?_, ?_, ?_, ?_⟩
  · exact instIsPartialOrderLe
  · intro a b
    obtain ⟨holds, hle⟩ := exists_le a.accepted b.accepted
    refine ⟨holds, hle, ?_⟩
    have hiff := le_eq_true_iff a.accepted b.accepted
    rw [hle, Except.ok.injEq] at hiff
    exact hiff
  · intro a b
    obtain ⟨j, hj, hlub⟩ := a.exists_join b
    obtain ⟨k, hk, hglb⟩ := a.exists_meet b
    obtain ⟨w, hw, hle⟩ := Element.exists_widen hj
    exact ⟨j, k, w, hj, hlub, hk, hglb, hw, hle⟩
  · intro l h
    exact ⟨Bounds.stores_iff.mpr (Bounds.between_eq_stored l h),
      Bounds.stores_iff.mpr (Bounds.constant_eq_stored l)⟩
  · intro a b ha hb
    obtain ⟨i, rfl⟩ := Bounds.canonical_iff.mp ha
    obtain ⟨j, rfl⟩ := Bounds.canonical_iff.mp hb
    simp only [Bounds.interval_stored, Bounds.stores_iff]
    exact ⟨Bounds.join_stored i j, Bounds.meet_stored i j, Bounds.add_stored i j,
      Bounds.sub_stored i j, Bounds.mul_stored i j, Bounds.neg_stored i, Bounds.removeEnd_stored i,
      fun r => ⟨Bounds.clamp_stored i r, Bounds.widen_stored i j r⟩⟩

theorem lattice_beyond_top :
    (⟨-5, 2⟩ : Bounds).Canonical ∧ (⟨7, 9⟩ : Bounds).Canonical ∧
      (Bounds.meet ⟨-5, 2⟩ ⟨7, 9⟩).Stores .empty ∧
      (Bounds.widen ⟨-5, 2⟩ ⟨0, 3, by decide⟩ ⟨7, 9⟩).Stores (.between (-5) 9) := by
  have hlow : (⟨-5, 2⟩ : Bounds).Canonical := Or.inl (by decide)
  have hhigh : (⟨7, 9⟩ : Bounds).Canonical := Or.inl (by decide)
  obtain ⟨_, _, _, _, hoperations⟩ := lattice_laws (.int ⟨0, 3, by decide⟩)
  obtain ⟨_, hmeet, _, _, _, _, _, hrange⟩ := hoperations _ _ hlow hhigh
  exact ⟨hlow, hhigh, hmeet, (hrange ⟨0, 3, by decide⟩).2⟩

end Domain

end Tracewise
