import Tracewise.Proofs.MonotoneInverses

/-! Inverses of comparisons of integers leave the hull of the elements that take part in an expected
outcome. The one exception are operands that both hold the largest word and nothing else, where
different elements are expected. -/

namespace Tracewise

open Saturating

namespace Interval

def IsHull (s : Set Int) (i : Interval) : Prop := IsLeast {k : Interval | ∀ n ∈ s, k.Spans n} i

variable {s : Set Int} {i : Interval}

lemma isHull_of_spans_iff (h : ∀ n, i.Spans n ↔ n ∈ s) : IsHull s i :=
  ⟨fun n hn => (h n).mpr hn, fun _ hk n hn => hk n ((h n).mp hn)⟩

lemma isHull_of_ends {l h : Int64} {le : l ≤ h} (hs : ∀ n ∈ s, (range l h le).Spans n)
    (hl : l.toInt ∈ s) (hh : h.toInt ∈ s) : IsHull s (range l h le) :=
  ⟨hs, fun _ hk _ hn => spans_of_le_of_le (hk _ hl) (hk _ hh) hn.1 hn.2⟩

lemma IsHull.nonempty (h : IsHull s i) {n : Int} (hn : i.Spans n) : s.Nonempty := by
  by_contra hs
  rw [Set.not_nonempty_iff_eq_empty] at hs
  have hempty : ∀ k ∈ s, empty.Spans k := by simp [hs]
  exact h.2 hempty n hn

end Interval

namespace Backward

def related (R : Int → Int → Prop) (i j : Interval) : Set Int :=
  {a | i.Spans a ∧ ∃ b, j.Spans b ∧ R a b}

/-- The best answer for a relation: none if no elements are related, and else the hulls of those
that are. -/
def Best (R : Int → Int → Prop) (i j : Interval) (answer : Option (Interval × Interval)) : Prop :=
  (answer = none ↔ ∀ a b, i.Spans a → j.Spans b → ¬ R a b) ∧
    ∀ p, answer = some p →
      Interval.IsHull (related R i j) p.1 ∧ Interval.IsHull (related (flip R) j i) p.2

section Relations

variable {R S : Int → Int → Prop} {i j k l : Interval}

lemma Best.congr {answer : Option (Interval × Interval)} (h : Best R i j answer)
    (hRS : ∀ a b, R a b ↔ S a b) : Best S i j answer := by
  have hRS : R = S := by
    funext a b
    exact propext (hRS a b)
  exact hRS ▸ h

lemma Best.swap {answer : Option (Interval × Interval)} (h : Best R j i answer) :
    Best (flip R) i j (answer.map Prod.swap) := by
  constructor
  · rw [Option.map_eq_none_iff, h.1]
    exact ⟨fun hnone a b ha hb => hnone b a hb ha, fun hnone a b ha hb => hnone b a hb ha⟩
  · intro p hp
    obtain ⟨q, hq, rfl⟩ := Option.map_eq_some_iff.mp hp
    exact (h.2 q hq).symm

lemma best_nonempty
    (hhulls : (∃ a b, i.Spans a ∧ j.Spans b ∧ R a b) →
      Interval.IsHull (related R i j) k ∧ Interval.IsHull (related (flip R) j i) l)
    (hrelated : ∀ m n, k.Spans m → l.Spans n → ∃ a b, i.Spans a ∧ j.Spans b ∧ R a b) :
    Best R i j (nonempty k l) := by
  constructor
  · constructor
    · intro hnone a b ha hb hab
      obtain ⟨hk, hl⟩ := hhulls ⟨a, b, ha, hb, hab⟩
      rw [nonempty_of_spans (hk.1 a ⟨ha, b, hb, hab⟩) (hl.1 b ⟨hb, a, ha, hab⟩)] at hnone
      cases hnone
    · intro hnone
      cases hanswer : nonempty k l with
      | none => rfl
      | some p =>
        obtain ⟨_, ⟨m, hm⟩, n, hn⟩ := nonempty_eq_some hanswer
        obtain ⟨a, b, ha, hb, hab⟩ := hrelated m n hm hn
        exact absurd hab (hnone a b ha hb)
  · intro p hp
    obtain ⟨rfl, ⟨m, hm⟩, n, hn⟩ := nonempty_eq_some hp
    exact hhulls (hrelated m n hm hn)

lemma best_of_hulls (hk : Interval.IsHull (related R i j) k)
    (hl : Interval.IsHull (related (flip R) j i) l) : Best R i j (nonempty k l) := by
  refine best_nonempty (fun _ => ⟨hk, hl⟩) fun m n hm _ => ?_
  obtain ⟨a, ha, b, hb, hab⟩ := hk.nonempty hm
  exact ⟨a, b, ha, hb, hab⟩

lemma best_of_symm [Std.Symm R] (hk : Interval.IsHull (related R i j) k)
    (hl : Interval.IsHull (related R j i) l) : Best R i j (nonempty k l) := by
  apply best_of_hulls hk
  rwa [Std.Symm.flip_eq]

end Relations

lemma invertRelation_singleton {α : Type} (join : α → α → α)
    (whenTrue whenFalse : α → α → Option (α × α)) (outcome : Bool) (l r : α) :
    invertRelation join whenTrue whenFalse (.singleton outcome) l r =
      if outcome then whenTrue l r else whenFalse l r := by
  cases outcome with
  | true =>
    simp only [invertRelation, BoolSet.singleton, BoolSet.contains, Bool.not_true, if_true]
    cases whenTrue l r <;> rfl
  | false => rfl

lemma spans_meet_atMost (i : Interval) (w : Int64) (n : Int) :
    (i.meet (.atMost w)).Spans n ↔ i.Spans n ∧ n ≤ w.toInt := by
  rw [Interval.spans_meet]
  exact and_congr_right fun hn => spans_atMost w hn

lemma spans_meet_atLeast (i : Interval) (w : Int64) (n : Int) :
    (i.meet (.atLeast w)).Spans n ↔ i.Spans n ∧ w.toInt ≤ n := by
  rw [Interval.spans_meet]
  exact and_congr_right fun hn => spans_atLeast w hn

section Ranges

variable {l₁ h₁ l₂ h₂ : Int64} {le₁ : l₁ ≤ h₁} {le₂ : l₂ ≤ h₂}

lemma narrowLt_range :
    narrowLt (.range l₁ h₁ le₁) (.range l₂ h₂ le₂) =
      nonempty ((Interval.range l₁ h₁ le₁).meet (.atMost (sub h₂ 1)))
        ((Interval.range l₂ h₂ le₂).meet (.atLeast (add l₁ 1))) := rfl

lemma narrowLe_range :
    narrowLe (.range l₁ h₁ le₁) (.range l₂ h₂ le₂) =
      nonempty ((Interval.range l₁ h₁ le₁).meet (.atMost h₂))
        ((Interval.range l₂ h₂ le₂).meet (.atLeast l₁)) := rfl

lemma mem_related_upward {R : Int → Int → Prop} (hR : ∀ a b b', R a b → b ≤ b' → R a b')
    (i : Interval) (a : Int) :
    a ∈ related R i (.range l₂ h₂ le₂) ↔ i.Spans a ∧ R a h₂.toInt := by
  refine and_congr_right fun _ => ⟨?_, fun ha => ⟨_, Interval.spans_high l₂ h₂ le₂, ha⟩⟩
  rintro ⟨b, hb, hab⟩
  exact hR a b _ hab hb.2

lemma mem_related_downward {R : Int → Int → Prop} (hR : ∀ a b b', R a b → b' ≤ b → R a b')
    (i : Interval) (a : Int) :
    a ∈ related R i (.range l₂ h₂ le₂) ↔ i.Spans a ∧ R a l₂.toInt := by
  refine and_congr_right fun _ => ⟨?_, fun ha => ⟨_, Interval.spans_low l₂ h₂ le₂, ha⟩⟩
  rintro ⟨b, hb, hab⟩
  exact hR a b _ hab hb.1

lemma best_lt :
    Best (· < ·) (.range l₁ h₁ le₁) (.range l₂ h₂ le₂)
      (narrowLt (.range l₁ h₁ le₁) (.range l₂ h₂ le₂)) := by
  have hl₁ := l₁.le_toInt
  have hl₁' := l₁.toInt_lt
  have hh₂ := h₂.le_toInt
  have hh₂' := h₂.toInt_lt
  have hone : (1 : Int64).toInt = 1 := rfl
  rw [narrowLt_range]
  apply best_nonempty
  · rintro ⟨a, b, ha, hb, hab⟩
    rw [Interval.spans_range] at ha hb
    have hsub : (sub h₂ 1).toInt = h₂.toInt - 1 := by
      rw [toInt_sub, hone, nearest]
      omega
    have hadd : (add l₁ 1).toInt = l₁.toInt + 1 := by
      rw [toInt_add, hone, nearest]
      omega
    constructor
    · apply Interval.isHull_of_spans_iff
      intro n
      rw [spans_meet_atMost, hsub, Int.le_sub_one_iff]
      exact Iff.symm (mem_related_upward (fun _ _ _ => lt_of_lt_of_le) _ n)
    · apply Interval.isHull_of_spans_iff
      intro n
      rw [spans_meet_atLeast, hadd, Int.add_one_le_iff]
      exact Iff.symm (mem_related_downward (fun _ _ _ hab hb => lt_of_le_of_lt hb hab) _ n)
  · intro m n hm hn
    rw [spans_meet_atMost, Interval.spans_range, toInt_sub, hone, nearest] at hm
    rw [spans_meet_atLeast, Interval.spans_range, toInt_add, hone, nearest] at hn
    refine ⟨_, _, Interval.spans_low l₁ h₁ le₁, Interval.spans_high l₂ h₂ le₂, ?_⟩
    omega

lemma best_le :
    Best (· ≤ ·) (.range l₁ h₁ le₁) (.range l₂ h₂ le₂)
      (narrowLe (.range l₁ h₁ le₁) (.range l₂ h₂ le₂)) := by
  rw [narrowLe_range]
  apply best_of_hulls
  · apply Interval.isHull_of_spans_iff
    intro n
    rw [spans_meet_atMost]
    exact Iff.symm (mem_related_upward (fun _ _ _ => le_trans) _ n)
  · apply Interval.isHull_of_spans_iff
    intro n
    rw [spans_meet_atLeast]
    exact Iff.symm (mem_related_downward (fun _ _ _ hab hb => le_trans hb hab) _ n)

lemma mem_related_eq (i j : Interval) (a : Int) :
    a ∈ related (· = ·) i j ↔ i.Spans a ∧ j.Spans a := by
  refine and_congr_right fun _ => ⟨?_, fun ha => ⟨a, ha, rfl⟩⟩
  rintro ⟨_, hb, rfl⟩
  exact hb

lemma best_eq (i j : Interval) : Best (· = ·) i j (narrowEq i j) := by
  apply best_of_symm
  · apply Interval.isHull_of_spans_iff
    intro n
    rw [mem_related_eq, Interval.spans_meet]
  · apply Interval.isHull_of_spans_iff
    intro n
    rw [mem_related_eq, Interval.spans_meet, and_comm]

lemma mem_related_ne (hne : l₂ ≠ h₂) (i : Interval) (a : Int) :
    a ∈ related (· ≠ ·) i (.range l₂ h₂ le₂) ↔ i.Spans a := by
  refine and_iff_left_of_imp fun _ => ?_
  by_cases ha : a = l₂.toInt
  · refine ⟨_, Interval.spans_high l₂ h₂ le₂, ?_⟩
    rw [ha]
    exact fun h => hne (Int64.toInt_inj.mp h)
  · exact ⟨_, Interval.spans_low l₂ h₂ le₂, ha⟩

lemma mem_related_ne_constant {w : Int64} {le : w ≤ w} (i : Interval) (a : Int) :
    a ∈ related (· ≠ ·) i (.range w w le) ↔ i.Spans a ∧ a ≠ w.toInt := by
  refine and_congr_right fun _ => ⟨?_, fun ha => ⟨_, Interval.spans_low w w le, ha⟩⟩
  rintro ⟨b, hb, hab⟩
  rw [Interval.spans_range] at hb
  omega

lemma eq_constant_of_limit (h : Int64.maxValue ≤ l₁) :
    Interval.range l₁ h₁ le₁ = .constant Int64.maxValue := by
  have hh₁ := h₁.toInt_lt
  have hle₁ := Int64.le_iff_toInt_le.mp le₁
  rw [Int64.le_iff_toInt_le, Int64.toInt_maxValue] at h
  obtain rfl : l₁ = Int64.maxValue := Int64.toInt_inj.mp (by rw [Int64.toInt_maxValue]; omega)
  obtain rfl : h₁ = Int64.maxValue := Int64.toInt_inj.mp (by rw [Int64.toInt_maxValue]; omega)
  rw [Interval.constant, Interval.between, dif_pos le₁]

lemma isHull_removeEnd {w : Int64} {le : w ≤ w}
    (hlimit : ¬ (Interval.range l₁ h₁ le₁ = .constant Int64.maxValue ∧ w = Int64.maxValue)) :
    Interval.IsHull (related (· ≠ ·) (.range l₁ h₁ le₁) (.range w w le))
      ((Interval.range l₁ h₁ le₁).removeEnd w) := by
  have hl₁ := l₁.le_toInt
  have hh₁ := h₁.toInt_lt
  have hle₁ := Int64.le_iff_toInt_le.mp le₁
  have hone : (1 : Int64).toInt = 1 := rfl
  rw [Interval.removeEnd]
  split
  · rename_i hw
    subst hw
    have hlt : l₁.toInt < 2 ^ 63 - 1 := by
      by_contra hnot
      have hmax : Int64.maxValue ≤ l₁ := by
        rw [Int64.le_iff_toInt_le, Int64.toInt_maxValue]
        omega
      refine hlimit ⟨eq_constant_of_limit hmax, Int64.toInt_inj.mp ?_⟩
      rw [Int64.toInt_maxValue]
      omega
    apply Interval.isHull_of_spans_iff
    intro n
    rw [mem_related_ne_constant, Interval.spans_between, Interval.spans_range, toInt_add, hone,
      nearest]
    omega
  · rename_i hlw
    have hlw : l₁.toInt ≠ w.toInt := fun h => hlw (Int64.toInt_inj.mp h)
    split
    · rename_i hw
      subst hw
      apply Interval.isHull_of_spans_iff
      intro n
      rw [mem_related_ne_constant, Interval.spans_between, Interval.spans_range, toInt_sub, hone,
        nearest]
      omega
    · rename_i hhw
      have hhw : h₁.toInt ≠ w.toInt := fun h => hhw (Int64.toInt_inj.mp h)
      apply Interval.isHull_of_ends
      · exact fun n hn => hn.1
      · exact (mem_related_ne_constant _ _).mpr ⟨Interval.spans_low l₁ h₁ le₁, hlw⟩
      · exact (mem_related_ne_constant _ _).mpr ⟨Interval.spans_high l₁ h₁ le₁, hhw⟩

lemma isHull_other {i j : Interval} (hi : i = .range l₁ h₁ le₁) (hj : j = .range l₂ h₂ le₂)
    (hlimit : ¬ (i = .constant Int64.maxValue ∧ j = .constant Int64.maxValue)) :
    Interval.IsHull (related (· ≠ ·) i j) (j.constant?.elim i i.removeEnd) := by
  subst hi hj
  by_cases hne : l₂ = h₂
  · subst hne
    rw [Interval.constant?, if_pos rfl, Option.elim_some]
    apply isHull_removeEnd
    rintro ⟨hi, rfl⟩
    exact hlimit ⟨hi, eq_constant_of_limit le₂⟩
  · rw [Interval.constant?, if_neg hne, Option.elim_none]
    apply Interval.isHull_of_spans_iff
    intro n
    rw [mem_related_ne hne]

lemma best_ne (hlimit : ¬ (Interval.range l₁ h₁ le₁ = .constant Int64.maxValue ∧
      Interval.range l₂ h₂ le₂ = .constant Int64.maxValue)) :
    Best (· ≠ ·) (.range l₁ h₁ le₁) (.range l₂ h₂ le₂)
      (narrowNe (.range l₁ h₁ le₁) (.range l₂ h₂ le₂)) := by
  apply best_of_symm
  · exact isHull_other rfl rfl hlimit
  · exact isHull_other rfl rfl fun h => hlimit h.symm

end Ranges

end Backward

def BinOp.Separates : BinOp → Bool → Prop
  | .ne, true => True
  | .eq, false => True
  | _, _ => False

namespace Backward

lemma best_compareCases {op : BinOp} {cases : (Interval → Interval → Option (Interval × Interval)) ×
    (Interval → Interval → Option (Interval × Interval))} (h : compareCases? op = some cases)
    (outcome : Bool) {i j : Interval} (hi : i ≠ .empty) (hj : j ≠ .empty)
    (hlimit : op.Separates outcome →
      ¬ (i = .constant Int64.maxValue ∧ j = .constant Int64.maxValue)) :
    Best (fun a b => op.compute? (.int a) (.int b) = some (.bool outcome)) i j
      (if outcome then cases.1 i j else cases.2 i j) := by
  cases i with
  | empty => exact absurd rfl hi
  | range l₁ h₁ le₁ =>
    cases j with
    | empty => exact absurd rfl hj
    | range l₂ h₂ le₂ =>
      cases op <;> simp only [compareCases?, Option.some.injEq, reduceCtorEq] at h <;> subst h <;>
        cases outcome
      case eq.false => exact (best_ne (hlimit trivial)).congr fun a b => by simp [BinOp.compute?]
      case eq.true => exact (best_eq _ _).congr fun a b => by simp [BinOp.compute?]
      case ne.false => exact (best_eq _ _).congr fun a b => by simp [BinOp.compute?]
      case ne.true => exact (best_ne (hlimit trivial)).congr fun a b => by simp [BinOp.compute?]
      case lt.false => exact best_le.swap.congr fun a b => by simp [BinOp.compute?, flip]
      case lt.true => exact best_lt.congr fun a b => by simp [BinOp.compute?]
      case le.false => exact best_lt.swap.congr fun a b => by simp [BinOp.compute?, flip]
      case le.true => exact best_le.congr fun a b => by simp [BinOp.compute?]
      case gt.false => exact best_le.congr fun a b => by simp [BinOp.compute?]
      case gt.true => exact best_lt.swap.congr fun a b => by simp [BinOp.compute?, flip]
      case ge.false => exact best_lt.congr fun a b => by simp [BinOp.compute?]
      case ge.true => exact best_le.swap.congr fun a b => by simp [BinOp.compute?, flip]

theorem comparison_inverses_optimal {op : BinOp}
    (hop : op ∈ [BinOp.lt, .le, .gt, .ge, .eq, .ne]) (r₁ r₂ : Range) (outcome : Bool)
    {i j : Interval} (hi : i ≠ .empty) (hj : j ≠ .empty)
    (hlimit : op.Separates outcome →
      ¬ (i = .constant Int64.maxValue ∧ j = .constant Int64.maxValue)) :
    ∃ inverse result, inverse? (.binary op) ⟨[.int r₁, .int r₂], .bool⟩ = some inverse ∧
      inverse (.bools (.singleton outcome)) [.ints i, .ints j] = .ok result ∧
      (result = none ↔ ∀ a b, i.Spans a → j.Spans b →
        op.compute? (.int a) (.int b) ≠ some (.bool outcome)) ∧
      ∀ narrowed, result = some narrowed → ∃ l r, narrowed = [.ints l, .ints r] ∧
        Interval.IsHull {a | i.Spans a ∧ ∃ b, j.Spans b ∧
          op.compute? (.int a) (.int b) = some (.bool outcome)} l ∧
        Interval.IsHull {b | j.Spans b ∧ ∃ a, i.Spans a ∧
          op.compute? (.int a) (.int b) = some (.bool outcome)} r := by
  obtain ⟨cases, hcases⟩ : ∃ cases, compareCases? op = some cases := by
    cases op <;> simp_all [compareCases?]
  have hbest := best_compareCases hcases outcome hi hj hlimit
  rw [← invertRelation_singleton Interval.join] at hbest
  refine ⟨_, _, Option.map_eq_some_iff.mpr ⟨cases, hcases, rfl⟩, rfl, ?_, ?_⟩
  · rw [pair, Option.map_eq_none_iff]
    exact hbest.1
  · intro narrowed hn
    obtain ⟨p, hp, rfl⟩ := Option.map_eq_some_iff.mp hn
    exact ⟨p.1, p.2, rfl, hbest.2 p hp⟩

theorem separation_optimal_near_limit :
    ∃ inverse l r, inverse? (.binary .ne) ⟨[.int .words, .int .words], .bool⟩ = some inverse ∧
      inverse (.bools (.singleton true))
        [.ints (.between (Int64.maxValue - 1) Int64.maxValue), .ints (.constant Int64.maxValue)] =
          .ok (some [.ints l, .ints r]) ∧
      Interval.IsHull {a | (Interval.between (Int64.maxValue - 1) Int64.maxValue).Spans a ∧
        ∃ b, (Interval.constant Int64.maxValue).Spans b ∧
          BinOp.ne.compute? (.int a) (.int b) = some (.bool true)} l := by
  have hop : BinOp.ne ∈ [BinOp.lt, .le, .gt, .ge, .eq, .ne] := by decide
  have hi : Interval.between (Int64.maxValue - 1) Int64.maxValue ≠ .empty := by decide +kernel
  have hj : Interval.constant Int64.maxValue ≠ .empty := by decide +kernel
  have hlimit : ¬ (Interval.between (Int64.maxValue - 1) Int64.maxValue =
      .constant Int64.maxValue ∧ Interval.constant Int64.maxValue = .constant Int64.maxValue) := by
    decide +kernel
  obtain ⟨inverse, result, hinv, hresult, hnone, hsome⟩ :=
    comparison_inverses_optimal hop .words .words true hi hj fun _ => hlimit
  cases result with
  | none =>
    have hdiffer := hnone.mp rfl (2 ^ 63 - 2) (2 ^ 63 - 1) (by decide +kernel) (by decide +kernel)
    exact absurd rfl hdiffer
  | some narrowed =>
    obtain ⟨l, r, rfl, hl, _⟩ := hsome narrowed rfl
    exact ⟨inverse, l, r, hinv, hresult, hl⟩

theorem limit_separated_from_itself :
    ∃ inverse, inverse? (.binary .ne) ⟨[.int .words, .int .words], .bool⟩ = some inverse ∧
      inverse (.bools (.singleton true))
        [.ints (.constant Int64.maxValue), .ints (.constant Int64.maxValue)] =
          .ok (some [.ints (.constant Int64.maxValue), .ints (.constant Int64.maxValue)]) ∧
      ∀ a b, (Interval.constant Int64.maxValue).Spans a →
        (Interval.constant Int64.maxValue).Spans b →
          BinOp.ne.compute? (.int a) (.int b) ≠ some (.bool true) := by
  refine ⟨_, rfl, rfl, ?_⟩
  intro a b ha hb
  rw [Interval.constant, Interval.spans_between] at ha hb
  have hab : a = b := by omega
  simp [BinOp.compute?, hab]

end Backward

end Tracewise
