import Tracewise.Proofs.Definitions
import Tracewise.Proofs.IndexSets

namespace Tracewise

open Saturating

namespace Interval

variable {i i' j j' : Interval}

lemma meet_mono (hi : i ≤ i') (hj : j ≤ j') : i.meet j ≤ i'.meet j' := by
  intro n hn
  rw [spans_meet] at hn ⊢
  exact ⟨hi n hn.1, hj n hn.2⟩

lemma neg_mono (hi : i ≤ i') : i.neg ≤ i'.neg := by
  cases i with
  | empty => exact empty_le _
  | range l h le =>
    have hl := spans_neg (hi _ (spans_low l h le))
    have hh := spans_neg (hi _ (spans_high l h le))
    intro n hn
    rw [neg, spans_between, toInt_neg, toInt_neg] at hn
    exact spans_of_le_of_le hh hl hn.1 hn.2

def Tight (op : Int → Int → Int) (f : Interval → Interval → Interval) : Prop :=
  ∀ i j n, (f i j).Spans n → ∃ a b a' b', i.Spans a ∧ j.Spans b ∧ i.Spans a' ∧ j.Spans b' ∧
    nearest (op a b) ≤ n ∧ n ≤ nearest (op a' b')

lemma tight_add : Tight (· + ·) add := by
  intro i j n hn
  cases i with
  | empty => exact hn.elim
  | range l₁ h₁ le₁ =>
    cases j with
    | empty => exact hn.elim
    | range l₂ h₂ le₂ =>
      rw [add, spans_between, toInt_add, toInt_add] at hn
      exact ⟨_, _, _, _, spans_low _ _ _, spans_low _ _ _, spans_high _ _ _, spans_high _ _ _, hn⟩

lemma tight_sub : Tight (· - ·) sub := by
  intro i j n hn
  cases i with
  | empty => exact hn.elim
  | range l₁ h₁ le₁ =>
    cases j with
    | empty => exact hn.elim
    | range l₂ h₂ le₂ =>
      rw [sub, spans_between, toInt_sub, toInt_sub] at hn
      exact ⟨_, _, _, _, spans_low _ _ _, spans_high _ _ _, spans_high _ _ _, spans_low _ _ _, hn⟩

lemma tight_mul : Tight (· * ·) mul := by
  intro i j n hn
  cases i with
  | empty => exact hn.elim
  | range l₁ h₁ le₁ =>
    cases j with
    | empty => exact hn.elim
    | range l₂ h₂ le₂ =>
      simp only [mul, spans_between, toInt_min, toInt_max, toInt_mul, min_le_iff, le_max_iff] at hn
      obtain ⟨hlow, hhigh⟩ := hn
      have hl₁ := spans_low l₁ h₁ le₁
      have hh₁ := spans_high l₁ h₁ le₁
      have hl₂ := spans_low l₂ h₂ le₂
      have hh₂ := spans_high l₂ h₂ le₂
      obtain ⟨a, b, ha, hb, hab⟩ : ∃ a b, (range l₁ h₁ le₁).Spans a ∧ (range l₂ h₂ le₂).Spans b ∧
          nearest (a * b) ≤ n := by
        rcases hlow with (h | h) | h | h
        · exact ⟨_, _, hl₁, hl₂, h⟩
        · exact ⟨_, _, hl₁, hh₂, h⟩
        · exact ⟨_, _, hh₁, hl₂, h⟩
        · exact ⟨_, _, hh₁, hh₂, h⟩
      obtain ⟨a', b', ha', hb', hab'⟩ : ∃ a b, (range l₁ h₁ le₁).Spans a ∧
          (range l₂ h₂ le₂).Spans b ∧ n ≤ nearest (a * b) := by
        rcases hhigh with (h | h) | h | h
        · exact ⟨_, _, hl₁, hl₂, h⟩
        · exact ⟨_, _, hl₁, hh₂, h⟩
        · exact ⟨_, _, hh₁, hl₂, h⟩
        · exact ⟨_, _, hh₁, hh₂, h⟩
      exact ⟨a, b, a', b', ha, hb, ha', hb', hab, hab'⟩

lemma Tight.mono {op : Int → Int → Int} {f : Interval → Interval → Interval} (ht : Tight op f)
    (hf : ∀ {i j : Interval} {a b : Int}, i.Spans a → j.Spans b → (f i j).Spans (nearest (op a b)))
    (hi : i ≤ i') (hj : j ≤ j') : f i j ≤ f i' j' := by
  intro n hn
  obtain ⟨a, b, a', b', ha, hb, ha', hb', hlow, hhigh⟩ := ht i j n hn
  exact spans_of_le_of_le (hf (hi a ha) (hj b hb)) (hf (hi a' ha') (hj b' hb')) hlow hhigh

lemma add_mono (hi : i ≤ i') (hj : j ≤ j') : i.add j ≤ i'.add j' :=
  tight_add.mono spans_add hi hj

lemma sub_mono (hi : i ≤ i') (hj : j ≤ j') : i.sub j ≤ i'.sub j' :=
  tight_sub.mono spans_sub hi hj

lemma mul_mono (hi : i ≤ i') (hj : j ≤ j') : i.mul j ≤ i'.mul j' :=
  tight_mul.mono spans_mul hi hj

end Interval

lemma ElemSet.exists_mem {s : ElemSet} (h : s.isEmpty = false) : ∃ i : Nat, i ∈ s := by
  by_contra hnone
  rw [not_exists] at hnone
  have hs : s = empty := ext_mem fun i => iff_of_false (hnone i) (not_mem_empty i)
  rw [hs] at h
  cases h

lemma ElemSet.size_eq_one {s : ElemSet} {i : Nat} (hi : i ∈ s) (h : ∀ j : Nat, j ∈ s → j = i) :
    s.size = 1 := by
  rw [size_eq_card, Finset.card_eq_one]
  refine ⟨i, Finset.eq_singleton_iff_unique_mem.mpr ⟨mem_indices.mpr hi, fun j hj => ?_⟩⟩
  exact h j (mem_indices.mp hj)

lemma exists_ne_or_only {α : Type} {P Q : α → Prop} (hP : ∃ a, P a) (hQ : ∃ b, Q b) :
    (∃ a b, P a ∧ Q b ∧ a ≠ b) ∨ ∃ a, (∀ n, P n ↔ n = a) ∧ ∀ n, Q n ↔ n = a := by
  by_cases hne : ∃ a b, P a ∧ Q b ∧ a ≠ b
  · exact Or.inl hne
  · push Not at hne
    obtain ⟨a, ha⟩ := hP
    obtain ⟨b, hb⟩ := hQ
    obtain rfl := hne a b ha hb
    refine Or.inr ⟨a, fun n => ⟨fun hn => hne n a hn hb, ?_⟩,
      fun n => ⟨fun hn => (hne a n ha hn).symm, ?_⟩⟩
    · rintro rfl
      exact ha
    · rintro rfl
      exact hb

namespace Forward

variable {i i' j j' : Interval} {s s' t t' : ElemSet} {op : BinOp}

lemma liftBool_mono (f : Bool → Bool → Bool) {l l' r r' : BoolSet} (hl : l ≤ l') (hr : r ≤ r') :
    liftBool f l r ≤ liftBool f l' r' := by
  intro c hc
  rw [mem_liftBool] at hc ⊢
  obtain ⟨a, b, ha, hb, h⟩ := hc
  exact ⟨a, b, hl a ha, hr b hb, h⟩

lemma intArith_mono {f : Interval → Interval → Interval} (h : intArith? op = some f) (hi : i ≤ i')
    (hj : j ≤ j') : f i j ≤ f i' j' := by
  cases op <;> simp only [intArith?, Option.some.injEq, reduceCtorEq] at h <;> subst h
  · exact Interval.add_mono hi hj
  · exact Interval.sub_mono hi hj
  · exact Interval.mul_mono hi hj

lemma exists_of_mem_lt {c : Bool} (h : c ∈ lt i j) :
    ∃ a b, i.Spans a ∧ j.Spans b ∧ decide (a < b) = c := by
  cases i with
  | empty => exact absurd h (BoolSet.not_mem_empty c)
  | range l₁ h₁ le₁ =>
    cases j with
    | empty => exact absurd h (BoolSet.not_mem_empty c)
    | range l₂ h₂ le₂ =>
      cases c with
      | true =>
        rw [lt, BoolSet.true_mem_ofFlags, decide_eq_true_eq, Int64.lt_iff_toInt_lt] at h
        exact ⟨_, _, Interval.spans_low _ _ _, Interval.spans_high _ _ _, decide_eq_true h⟩
      | false =>
        rw [lt, BoolSet.false_mem_ofFlags, decide_eq_true_eq, Int64.le_iff_toInt_le] at h
        exact ⟨_, _, Interval.spans_high _ _ _, Interval.spans_low _ _ _,
          decide_eq_false (not_lt.mpr h)⟩

lemma exists_of_mem_le {c : Bool} (h : c ∈ le i j) :
    ∃ a b, i.Spans a ∧ j.Spans b ∧ decide (a ≤ b) = c := by
  cases i with
  | empty => exact absurd h (BoolSet.not_mem_empty c)
  | range l₁ h₁ le₁ =>
    cases j with
    | empty => exact absurd h (BoolSet.not_mem_empty c)
    | range l₂ h₂ le₂ =>
      cases c with
      | true =>
        rw [le, BoolSet.true_mem_ofFlags, decide_eq_true_eq, Int64.le_iff_toInt_le] at h
        exact ⟨_, _, Interval.spans_low _ _ _, Interval.spans_high _ _ _, decide_eq_true h⟩
      | false =>
        rw [le, BoolSet.false_mem_ofFlags, decide_eq_true_eq, Int64.lt_iff_toInt_lt] at h
        exact ⟨_, _, Interval.spans_high _ _ _, Interval.spans_low _ _ _,
          decide_eq_false (not_le.mpr h)⟩

lemma exists_of_mem_eqInts {c : Bool} (h : c ∈ eqInts i j) :
    ∃ a b, i.Spans a ∧ j.Spans b ∧ decide (a = b) = c := by
  rw [eqInts] at h
  split at h
  · exact absurd h (BoolSet.not_mem_empty c)
  · rename_i hempty
    rw [Bool.or_eq_true, not_or, Bool.not_eq_true, Bool.not_eq_true] at hempty
    cases c with
    | true =>
      rw [BoolSet.true_mem_ofFlags, Bool.not_eq_true'] at h
      obtain ⟨n, hn⟩ := Interval.exists_spans h
      rw [Interval.spans_meet] at hn
      exact ⟨n, n, hn.1, hn.2, decide_eq_true rfl⟩
    | false =>
      rw [BoolSet.false_mem_ofFlags, Bool.not_eq_true'] at h
      obtain ⟨a, b, ha, hb, hne⟩ | ⟨a, hi, hj⟩ :=
        exists_ne_or_only (Interval.exists_spans hempty.1) (Interval.exists_spans hempty.2)
      · exact ⟨a, b, ha, hb, decide_eq_false hne⟩
      · obtain rfl : i = j := Interval.ext_spans fun n => (hi n).trans (hj n).symm
        cases i with
        | empty => cases hempty.1
        | range l r le =>
          have hl := (hi _).mp (Interval.spans_low l r le)
          have hr := (hi _).mp (Interval.spans_high l r le)
          obtain rfl := Int64.toInt_inj.mp (hl.trans hr.symm)
          simp [Interval.constant?] at h

lemma exists_of_mem_eqElems {c : Bool} (h : c ∈ eqElems s t) :
    ∃ a b : Nat, a ∈ s ∧ b ∈ t ∧ decide (a = b) = c := by
  rw [eqElems] at h
  split at h
  · exact absurd h (BoolSet.not_mem_empty c)
  · rename_i hempty
    rw [Bool.or_eq_true, not_or, Bool.not_eq_true, Bool.not_eq_true] at hempty
    cases c with
    | true =>
      rw [BoolSet.true_mem_ofFlags, Bool.not_eq_true'] at h
      obtain ⟨n, hn⟩ := ElemSet.exists_mem h
      rw [ElemSet.mem_inter] at hn
      exact ⟨n, n, hn.1, hn.2, decide_eq_true rfl⟩
    | false =>
      rw [BoolSet.false_mem_ofFlags, Bool.not_eq_true'] at h
      obtain ⟨a, b, ha, hb, hne⟩ | ⟨a, hs, ht⟩ :=
        exists_ne_or_only (ElemSet.exists_mem hempty.1) (ElemSet.exists_mem hempty.2)
      · exact ⟨a, b, ha, hb, decide_eq_false hne⟩
      · obtain rfl : s = t := ElemSet.ext_mem fun n => (hs n).trans (ht n).symm
        have hsize := ElemSet.size_eq_one ((hs a).mpr rfl) fun n hn => (hs n).mp hn
        simp [hsize] at h

lemma exists_of_mem_intCompare {f : Interval → Interval → BoolSet} (h : intCompare? op = some f)
    {c : Bool} (hc : c ∈ f i j) :
    ∃ a b, i.Spans a ∧ j.Spans b ∧ op.compute? (.int a) (.int b) = some (.bool c) := by
  cases op <;> simp only [intCompare?, Option.some.injEq, reduceCtorEq] at h <;> subst h
  case eq =>
    obtain ⟨a, b, ha, hb, rfl⟩ := exists_of_mem_eqInts hc
    exact ⟨a, b, ha, hb, by simp [BinOp.compute?]⟩
  case ne =>
    obtain ⟨_, hmem, rfl⟩ := (BoolSet.mem_map _ _ _).mp hc
    obtain ⟨a, b, ha, hb, rfl⟩ := exists_of_mem_eqInts hmem
    exact ⟨a, b, ha, hb, by simp [BinOp.compute?]⟩
  case lt =>
    obtain ⟨a, b, ha, hb, rfl⟩ := exists_of_mem_lt hc
    exact ⟨a, b, ha, hb, rfl⟩
  case le =>
    obtain ⟨a, b, ha, hb, rfl⟩ := exists_of_mem_le hc
    exact ⟨a, b, ha, hb, rfl⟩
  case gt =>
    obtain ⟨a, b, ha, hb, rfl⟩ := exists_of_mem_lt hc
    exact ⟨b, a, hb, ha, rfl⟩
  case ge =>
    obtain ⟨a, b, ha, hb, rfl⟩ := exists_of_mem_le hc
    exact ⟨b, a, hb, ha, rfl⟩

lemma exists_of_mem_setCompare {f : ElemSet → ElemSet → BoolSet} (h : setCompare? op = some f)
    {c : Bool} (hc : c ∈ f s t) :
    ∃ a b : Nat, a ∈ s ∧ b ∈ t ∧ op.compute? (.elem a) (.elem b) = some (.bool c) := by
  cases op <;> simp only [setCompare?, Option.some.injEq, reduceCtorEq] at h <;> subst h
  case eq =>
    obtain ⟨a, b, ha, hb, rfl⟩ := exists_of_mem_eqElems hc
    exact ⟨a, b, ha, hb, by simp [BinOp.compute?]⟩
  case ne =>
    obtain ⟨_, hmem, rfl⟩ := (BoolSet.mem_map _ _ _).mp hc
    obtain ⟨a, b, ha, hb, rfl⟩ := exists_of_mem_eqElems hmem
    exact ⟨a, b, ha, hb, by simp [BinOp.compute?]⟩

lemma intCompare_mono {f : Interval → Interval → BoolSet} (h : intCompare? op = some f)
    (hi : i ≤ i') (hj : j ≤ j') : f i j ≤ f i' j' := by
  intro c hc
  obtain ⟨a, b, ha, hb, hcompute⟩ := exists_of_mem_intCompare h hc
  obtain ⟨c', hc', hmem⟩ := mem_intCompare h (hi a ha) (hj b hb)
  cases hcompute.symm.trans hc'
  exact hmem

lemma setCompare_mono {f : ElemSet → ElemSet → BoolSet} (h : setCompare? op = some f) (hs : s ≤ s')
    (ht : t ≤ t') : f s t ≤ f s' t' := by
  intro c hc
  obtain ⟨a, b, ha, hb, hcompute⟩ := exists_of_mem_setCompare h hc
  obtain ⟨c', hc', hmem⟩ := mem_setCompare h (hs a ha) (ht b hb)
  cases hcompute.symm.trans hc'
  exact hmem

lemma bools_le_top (s : BoolSet) : Value.bools s ≤ Domain.bool.top := by
  intro d hd
  obtain ⟨b, rfl, _⟩ := Value.mem_bools.mp hd
  exact (Domain.mem_top _ _).mpr trivial

lemma clamp_le_top (r : Range) (i : Interval) : Value.ints (r.clamp i) ≤ (Domain.int r).top := by
  rw [Domain.top, Value.ints_le_ints]
  exact fun n hn => ((Interval.spans_meet _ _ _).mp hn).2

theorem mono_definition {op : Op} {sig : Signature} {definition : Definition}
    (h : definition? op sig = some definition) {args args' : List Value}
    (hargs : List.Forall₂ (fun dom v => dom.accepts v = true) sig.operands args)
    (hargs' : List.Forall₂ (fun dom v => dom.accepts v = true) sig.operands args')
    (hle : List.Forall₂ (· ≤ ·) args args') {v v' : Value} (hv : definition args = .ok v)
    (hv' : definition args' = .ok v') : v ≤ v' ∧ v ≤ sig.result.top := by
  obtain ⟨_, hok, hdefines⟩ := exists_defines h hargs
  obtain ⟨_, hok', hdefines'⟩ := exists_defines h hargs'
  cases hok.symm.trans hv
  cases hok'.symm.trans hv'
  cases hdefines with
  | not s =>
    cases hdefines' with
    | not s' =>
      have hs := (Value.bools_le_bools s s').mp (List.forall₂_cons.mp hle).1
      refine ⟨(Value.bools_le_bools _ _).mpr fun b hb => ?_, bools_le_top _⟩
      obtain ⟨c, hc, rfl⟩ := (BoolSet.mem_map _ _ _).mp hb
      exact (BoolSet.mem_map _ _ _).mpr ⟨c, hs c hc, rfl⟩
  | neg r range i =>
    cases hdefines' with
    | neg _ _ i' =>
      have hi := (Value.ints_le_ints i i').mp (List.forall₂_cons.mp hle).1
      exact ⟨(Value.ints_le_ints _ _).mpr (Interval.meet_mono (Interval.neg_mono hi) le_rfl),
        clamp_le_top _ _⟩
  | @boolOp op f hf s t =>
    cases hdefines' with
    | boolOp hf' s' t' =>
      obtain rfl := Option.some.inj (hf.symm.trans hf')
      simp only [List.forall₂_cons, Value.bools_le_bools] at hle
      exact ⟨(Value.bools_le_bools _ _).mpr (liftBool_mono f hle.1 hle.2.1), bools_le_top _⟩
  | intArith hf r₁ r₂ range i j =>
    cases hdefines' with
    | intArith hf' _ _ _ i' j' =>
      obtain rfl := Option.some.inj (hf.symm.trans hf')
      simp only [List.forall₂_cons, Value.ints_le_ints] at hle
      exact ⟨(Value.ints_le_ints _ _).mpr
        (Interval.meet_mono (intArith_mono hf hle.1 hle.2.1) le_rfl), clamp_le_top _ _⟩
  | intCompare hf r₁ r₂ i j =>
    cases hdefines' with
    | intCompare hf' _ _ i' j' =>
      obtain rfl := Option.some.inj (hf.symm.trans hf')
      simp only [List.forall₂_cons, Value.ints_le_ints] at hle
      exact ⟨(Value.bools_le_bools _ _).mpr (intCompare_mono hf hle.1 hle.2.1), bools_le_top _⟩
  | setCompare hf e₁ e₂ s t =>
    cases hdefines' with
    | setCompare hf' _ _ s' t' =>
      obtain rfl := Option.some.inj (hf.symm.trans hf')
      simp only [List.forall₂_cons, Value.elems_le_elems] at hle
      exact ⟨(Value.bools_le_bools _ _).mpr (setCompare_mono hf hle.1 hle.2.1), bools_le_top _⟩

end Forward

end Tracewise
