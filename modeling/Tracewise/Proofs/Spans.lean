import Mathlib.Tactic
import Tracewise.Lattice.Interval

namespace Tracewise

open Saturating

namespace Saturating

/-- The integer nearest to `n` among the words. -/
def nearest (n : Int) : Int := max (-0x8000000000000000) (min n 0x7FFFFFFFFFFFFFFF)

lemma toInt_ofIntClamp (n : Int) : (Int64.ofIntClamp n).toInt = nearest n := by
  have hmin := Int64.toInt_minValue
  have hmax := Int64.toInt_maxValue
  simp only [Int64.ofIntClamp, nearest]
  split
  · split
    · rw [Int64.toInt_ofIntLE]
      omega
    · omega
  · omega

@[simp] lemma toInt_add (a b : Int64) : (add a b).toInt = nearest (a.toInt + b.toInt) :=
  toInt_ofIntClamp _

@[simp] lemma toInt_sub (a b : Int64) : (sub a b).toInt = nearest (a.toInt - b.toInt) :=
  toInt_ofIntClamp _

@[simp] lemma toInt_mul (a b : Int64) : (mul a b).toInt = nearest (a.toInt * b.toInt) :=
  toInt_ofIntClamp _

@[simp] lemma toInt_neg (a : Int64) : (neg a).toInt = nearest (-a.toInt) :=
  toInt_ofIntClamp _

lemma nearest_mono {m n : Int} (h : m ≤ n) : nearest m ≤ nearest n := by
  simp only [nearest]
  omega

lemma nearest_toInt (a : Int64) : nearest a.toInt = a.toInt := by
  have hl := a.le_toInt
  have hh := a.toInt_lt
  simp only [nearest]
  omega

lemma ofInt?_eq_some_iff (n : Int) (a : Int64) : ofInt? n = some a ↔ a.toInt = n := by
  have hmin := Int64.toInt_minValue
  have hmax := Int64.toInt_maxValue
  have hl := a.le_toInt
  have hh := a.toInt_lt
  simp only [ofInt?]
  constructor
  · intro h
    split at h
    · obtain rfl := Option.some.inj h
      exact Int64.toInt_ofInt_of_le (by omega) (by omega)
    · cases h
  · rintro rfl
    rw [if_pos ⟨by omega, by omega⟩, Int64.ofInt_toInt]

@[grind =] lemma min_def (a b : Int64) : min a b = if a ≤ b then a else b := rfl

@[grind =] lemma max_def (a b : Int64) : max a b = if a ≤ b then b else a := rfl

lemma le_nearest {m n : Int} (hm : -2 ^ 63 ≤ m) (hm' : m ≤ 2 ^ 63 - 1) (h : m ≤ n) :
    m ≤ nearest n := by
  simp only [nearest]
  omega

lemma nearest_le {m n : Int} (hn : -2 ^ 63 ≤ n) (hn' : n ≤ 2 ^ 63 - 1) (h : m ≤ n) :
    nearest m ≤ n := by
  simp only [nearest]
  omega

@[simp] lemma toInt_min (a b : Int64) : (min a b).toInt = min a.toInt b.toInt := by
  rw [min_def]
  split
  · rename_i h
    rw [Int64.le_iff_toInt_le] at h
    omega
  · rename_i h
    rw [Int64.le_iff_toInt_le] at h
    omega

@[simp] lemma toInt_max (a b : Int64) : (max a b).toInt = max a.toInt b.toInt := by
  rw [max_def]
  split
  · rename_i h
    rw [Int64.le_iff_toInt_le] at h
    omega
  · rename_i h
    rw [Int64.le_iff_toInt_le] at h
    omega

end Saturating

namespace Interval

@[simp] lemma not_mem_empty (n : Int64) : n ∉ empty := Bool.false_ne_true

@[simp] lemma mem_range (l h n : Int64) (le : l ≤ h) : n ∈ range l h le ↔ l ≤ n ∧ n ≤ h := by
  change (decide (l ≤ n) && decide (n ≤ h)) = true ↔ _
  simp

@[simp] lemma mem_between (l h n : Int64) : n ∈ between l h ↔ l ≤ n ∧ n ≤ h := by
  simp only [between]
  split
  · simp
  · rename_i hlh
    simp only [not_mem_empty, false_iff]
    exact fun hn => hlh (Int64.le_trans hn.1 hn.2)

lemma between_eq_empty_iff (l h : Int64) : between l h = empty ↔ h < l := by
  simp only [between]
  split
  · rename_i hlh
    simpa using hlh
  · rename_i hlh
    simpa using hlh

lemma isEmpty_iff (i : Interval) : i.isEmpty = true ↔ ∀ n, n ∉ i := by
  cases i with
  | empty => simp [isEmpty]
  | range l h le =>
    simp only [isEmpty, Bool.false_eq_true, false_iff]
    exact fun hi => hi l ((mem_range l h l le).mpr ⟨Int64.le_refl l, le⟩)

lemma subset_iff (i j : Interval) : i.subset j = true ↔ ∀ n, n ∈ i → n ∈ j := by
  cases i with
  | empty => simp [subset]
  | range l₁ h₁ le₁ =>
    cases j with
    | empty =>
      simp only [subset, Bool.false_eq_true, false_iff]
      exact fun hi => not_mem_empty l₁ (hi l₁ ((mem_range ..).mpr ⟨Int64.le_refl l₁, le₁⟩))
    | range l₂ h₂ le₂ =>
      simp only [subset, Bool.and_eq_true, decide_eq_true_eq, mem_range]
      constructor
      · exact fun hb n hn => ⟨Int64.le_trans hb.1 hn.1, Int64.le_trans hn.2 hb.2⟩
      · exact fun hb => ⟨(hb l₁ ⟨Int64.le_refl l₁, le₁⟩).1, (hb h₁ ⟨le₁, Int64.le_refl h₁⟩).2⟩

lemma join_subset_iff (i j k : Interval) :
    (i.join j).subset k = true ↔ i.subset k = true ∧ j.subset k = true := by
  cases i with
  | empty => simp [join, subset]
  | range l₁ h₁ le₁ =>
    cases j with
    | empty => simp [join, subset]
    | range l₂ h₂ le₂ =>
      have hle : min l₁ l₂ ≤ max h₁ h₂ := by grind
      cases k with
      | empty => simp [join, between, hle, subset]
      | range l h le => simp [join, between, hle, subset]; grind

def Spans : Interval → Int → Prop
  | empty, _ => False
  | range l h _, n => l.toInt ≤ n ∧ n ≤ h.toInt

instance : (i : Interval) → (n : Int) → Decidable (i.Spans n)
  | empty, _ => isFalse id
  | range l h _, n => inferInstanceAs (Decidable (l.toInt ≤ n ∧ n ≤ h.toInt))

@[simp] lemma not_spans_empty (n : Int) : ¬ empty.Spans n := id

@[simp] lemma spans_range (l h : Int64) (le : l ≤ h) (n : Int) :
    (range l h le).Spans n ↔ l.toInt ≤ n ∧ n ≤ h.toInt := Iff.rfl

@[simp] lemma spans_between (l h : Int64) (n : Int) :
    (between l h).Spans n ↔ l.toInt ≤ n ∧ n ≤ h.toInt := by
  rw [between]
  split
  · rfl
  · rename_i hlh
    rw [Int64.le_iff_toInt_le] at hlh
    simp only [not_spans_empty, false_iff]
    omega

lemma word_of_spans {i : Interval} {n : Int} (h : i.Spans n) : -2 ^ 63 ≤ n ∧ n ≤ 2 ^ 63 - 1 := by
  cases i with
  | empty => exact h.elim
  | range l r le =>
    have hl := l.le_toInt
    have hr := r.toInt_lt
    rw [spans_range] at h
    omega

lemma nearest_of_spans {i : Interval} {n : Int} (h : i.Spans n) : nearest n = n := by
  have := word_of_spans h
  simp only [nearest]
  omega

lemma isEmpty_eq_false {i : Interval} {n : Int} (h : i.Spans n) : i.isEmpty = false := by
  cases i with
  | empty => exact h.elim
  | range => rfl

lemma size_pos {i : Interval} {n : Int} (h : i.Spans n) : 0 < i.size := by
  cases i with
  | empty => exact h.elim
  | range l r le =>
    rw [spans_range] at h
    simp only [size]
    omega

@[simp] lemma spans_meet (i j : Interval) (n : Int) :
    (i.meet j).Spans n ↔ i.Spans n ∧ j.Spans n := by
  cases i with
  | empty => simp [meet]
  | range l₁ h₁ le₁ =>
    cases j with
    | empty => simp [meet]
    | range l₂ h₂ le₂ =>
      simp only [meet, spans_between, spans_range, toInt_max, toInt_min]
      omega

lemma spans_join {i j : Interval} {n : Int} (h : i.Spans n ∨ j.Spans n) : (i.join j).Spans n := by
  cases i with
  | empty => simpa [join] using h
  | range l₁ h₁ le₁ =>
    cases j with
    | empty => simpa [join] using h
    | range l₂ h₂ le₂ =>
      simp only [spans_range] at h
      simp only [join, spans_between, toInt_min, toInt_max]
      omega

lemma spans_add {i j : Interval} {a b : Int} (ha : i.Spans a) (hb : j.Spans b) :
    (i.add j).Spans (nearest (a + b)) := by
  cases i with
  | empty => exact ha.elim
  | range l₁ h₁ le₁ =>
    cases j with
    | empty => exact hb.elim
    | range l₂ h₂ le₂ =>
      rw [spans_range] at ha hb
      simp only [add, spans_between, toInt_add]
      exact ⟨nearest_mono (by omega), nearest_mono (by omega)⟩

lemma spans_sub {i j : Interval} {a b : Int} (ha : i.Spans a) (hb : j.Spans b) :
    (i.sub j).Spans (nearest (a - b)) := by
  cases i with
  | empty => exact ha.elim
  | range l₁ h₁ le₁ =>
    cases j with
    | empty => exact hb.elim
    | range l₂ h₂ le₂ =>
      rw [spans_range] at ha hb
      simp only [sub, spans_between, toInt_sub]
      exact ⟨nearest_mono (by omega), nearest_mono (by omega)⟩

lemma spans_neg {i : Interval} {a : Int} (ha : i.Spans a) : i.neg.Spans (nearest (-a)) := by
  cases i with
  | empty => exact ha.elim
  | range l h le =>
    rw [spans_range] at ha
    simp only [neg, spans_between, toInt_neg]
    exact ⟨nearest_mono (by omega), nearest_mono (by omega)⟩

lemma mul_between {l a h : Int} (hl : l ≤ a) (hh : a ≤ h) (c : Int) :
    min (l * c) (h * c) ≤ a * c ∧ a * c ≤ max (l * c) (h * c) := by
  rcases le_total 0 c with hc | hc
  · exact ⟨min_le_of_left_le (Int.mul_le_mul_of_nonneg_right hl hc),
      le_max_of_le_right (Int.mul_le_mul_of_nonneg_right hh hc)⟩
  · exact ⟨min_le_of_right_le (Int.mul_le_mul_of_nonpos_right hh hc),
      le_max_of_le_left (Int.mul_le_mul_of_nonpos_right hl hc)⟩

lemma nearest_min (m n : Int) : nearest (min m n) = min (nearest m) (nearest n) := by
  simp only [nearest]
  omega

lemma nearest_max (m n : Int) : nearest (max m n) = max (nearest m) (nearest n) := by
  simp only [nearest]
  omega

lemma spans_mul {i j : Interval} {a b : Int} (ha : i.Spans a) (hb : j.Spans b) :
    (i.mul j).Spans (nearest (a * b)) := by
  cases i with
  | empty => exact ha.elim
  | range l₁ h₁ le₁ =>
    cases j with
    | empty => exact hb.elim
    | range l₂ h₂ le₂ =>
      rw [spans_range] at ha hb
      have hab := mul_between ha.1 ha.2 b
      have hl := mul_between hb.1 hb.2 l₁.toInt
      have hh := mul_between hb.1 hb.2 h₁.toInt
      simp only [mul_comm _ l₁.toInt, mul_comm _ h₁.toInt] at hl hh hab
      simp only [mul, spans_between, toInt_min, toInt_max, toInt_mul, ← nearest_min, ← nearest_max]
      exact ⟨nearest_mono (by omega), nearest_mono (by omega)⟩

lemma spans_removeEnd {i : Interval} {n : Int} {w : Int64} (h : i.Spans n) (hne : n ≠ w.toInt) :
    (i.removeEnd w).Spans n := by
  cases i with
  | empty => exact h.elim
  | range l r le =>
    have hw := word_of_spans h
    have hone : (1 : Int64).toInt = 1 := rfl
    rw [spans_range] at h
    simp only [removeEnd]
    split
    · rename_i hl
      subst hl
      simp only [spans_between, toInt_add, hone]
      exact ⟨nearest_le hw.1 hw.2 (by omega), h.2⟩
    · split
      · rename_i hr
        subst hr
        simp only [spans_between, toInt_sub, hone]
        exact ⟨h.1, le_nearest hw.1 hw.2 (by omega)⟩
      · exact h

lemma spans_of_constant {i : Interval} {w : Int64} (hc : i.constant? = some w) {n : Int}
    (h : i.Spans n) : n = w.toInt := by
  cases i with
  | empty => exact h.elim
  | range l r le =>
    simp only [constant?] at hc
    split at hc
    · rename_i hlr
      obtain rfl := Option.some.inj hc
      rw [spans_range, ← hlr] at h
      omega
    · cases hc

end Interval

namespace Range

def words : Range := ⟨Int64.minValue, Int64.maxValue, by decide⟩

lemma spans_top (r : Range) (n : Int) : r.top.Spans n ↔ r.min.toInt ≤ n ∧ n ≤ r.max.toInt :=
  Interval.spans_between _ _ _

lemma spans_widen (r : Range) {i j : Interval} {n : Int} (h : i.Spans n ∨ j.Spans n) :
    (r.widen i j).Spans n := by
  cases i with
  | empty => exact Interval.spans_join h
  | range l₁ h₁ le₁ =>
    cases j with
    | empty => exact Interval.spans_join h
    | range l₂ h₂ le₂ =>
      simp only [Interval.spans_range] at h
      simp only [widen, Interval.spans_between]
      constructor
      · split
        · rename_i hl
          rw [Int64.lt_iff_toInt_lt] at hl
          rw [toInt_min]
          omega
        · rename_i hl
          rw [Int64.lt_iff_toInt_lt] at hl
          omega
      · split
        · rename_i hr
          rw [Int64.lt_iff_toInt_lt] at hr
          rw [toInt_max]
          omega
        · rename_i hr
          rw [Int64.lt_iff_toInt_lt] at hr
          omega

lemma widen_self (r : Range) (i : Interval) : r.widen i i = i := by
  cases i with
  | empty => rfl
  | range l h le => simp [widen, Interval.between, le]

lemma widen_absorb (r : Range) (i j : Interval) : r.widen (r.widen i j) j = r.widen i j := by
  cases i with
  | empty => exact widen_self r j
  | range l₁ h₁ le₁ =>
    cases j with
    | empty => rfl
    | range l₂ h₂ le₂ =>
      simp only [widen]
      generalize hl : (if l₂ < l₁ then Min.min r.min l₂ else l₁) = l
      generalize hh : (if h₁ < h₂ then Max.max r.max h₂ else h₁) = h
      have hl₂ : l ≤ l₂ := by grind
      have hh₂ : h₂ ≤ h := by grind
      have hlh : l ≤ h := Int64.le_trans hl₂ (Int64.le_trans le₂ hh₂)
      simp [Interval.between, hlh, Int64.not_lt.mpr hl₂, Int64.not_lt.mpr hh₂]

end Range

end Tracewise
