import Tracewise.Operator.Backward
import Tracewise.Proofs.Definitions

namespace Tracewise.Backward

open Saturating

section Narrowing

variable {α β : Type} (mem : α → β → Prop)

def Narrows (R : β → β → Prop) (narrow : α → α → Option (α × α)) : Prop :=
  ∀ l r a b, mem l a → mem r b → R a b → ∃ p, narrow l r = some p ∧ mem p.1 a ∧ mem p.2 b

variable {mem}

lemma Narrows.swap {R : β → β → Prop} {narrow : α → α → Option (α × α)} (h : Narrows mem R narrow) :
    Narrows mem (fun a b => R b a) (fun l r => (narrow r l).map Prod.swap) := by
  intro l r a b ha hb hab
  obtain ⟨p, hp, hb', ha'⟩ := h r l b a hb ha hab
  exact ⟨p.swap, by simp only [hp, Option.map_some], ha', hb'⟩

lemma Narrows.congr {R S : β → β → Prop} {narrow : α → α → Option (α × α)}
    (h : Narrows mem R narrow) (hRS : ∀ a b, S a b → R a b) : Narrows mem S narrow := by
  intro l r a b ha hb hab
  exact h l r a b ha hb (hRS a b hab)

lemma mem_invertRelation {join : α → α → α} (hjoin : ∀ s t b, mem s b ∨ mem t b → mem (join s t) b)
    {R : β → β → Prop} [DecidableRel R] {whenTrue whenFalse : α → α → Option (α × α)}
    (ht : Narrows mem R whenTrue) (hf : Narrows mem (fun a b => ¬ R a b) whenFalse)
    {expected : BoolSet} {l r : α} {a b : β} (ha : mem l a) (hb : mem r b)
    (he : decide (R a b) ∈ expected) :
    ∃ p, invertRelation join whenTrue whenFalse expected l r = some p ∧ mem p.1 a ∧ mem p.2 b := by
  by_cases hab : R a b
  · obtain ⟨p, hp, hpa, hpb⟩ := ht l r a b ha hb hab
    have htrue : expected.contains true = true := by
      rw [← BoolSet.mem_iff]
      simpa [hab] using he
    rcases hq : (if expected.contains false then whenFalse l r else none) with _ | q
    · exact ⟨p, by simp [invertRelation, htrue, hp, hq], hpa, hpb⟩
    · exact ⟨(join p.1 q.1, join p.2 q.2), by simp [invertRelation, htrue, hp, hq],
        hjoin _ _ _ (.inl hpa), hjoin _ _ _ (.inl hpb)⟩
  · obtain ⟨p, hp, hpa, hpb⟩ := hf l r a b ha hb hab
    have hfalse : expected.contains false = true := by
      rw [← BoolSet.mem_iff]
      simpa [hab] using he
    rcases hq : (if expected.contains true then whenTrue l r else none) with _ | q
    · exact ⟨p, by simp [invertRelation, hfalse, hp, hq], hpa, hpb⟩
    · exact ⟨(join q.1 p.1, join q.2 p.2), by simp [invertRelation, hfalse, hp, hq],
        hjoin _ _ _ (.inr hpa), hjoin _ _ _ (.inr hpb)⟩

end Narrowing

lemma nonempty_of_spans {i j : Interval} {a b : Int} (ha : i.Spans a) (hb : j.Spans b) :
    nonempty i j = some (i, j) := by
  simp [nonempty, Interval.isEmpty_eq_false ha, Interval.isEmpty_eq_false hb]

lemma nonemptySets_of_mem {s t : ElemSet} {a b : Nat} (ha : a ∈ s) (hb : b ∈ t) :
    nonemptySets s t = some (s, t) := by
  simp [nonemptySets, ElemSet.isEmpty_eq_false ha, ElemSet.isEmpty_eq_false hb]

lemma spans_atMost (w : Int64) {i : Interval} {n : Int} (hi : i.Spans n) :
    (Interval.atMost w).Spans n ↔ n ≤ w.toInt := by
  have := Interval.word_of_spans hi
  rw [Interval.atMost, Interval.spans_between, Int64.toInt_minValue]
  omega

lemma spans_atLeast (w : Int64) {i : Interval} {n : Int} (hi : i.Spans n) :
    (Interval.atLeast w).Spans n ↔ w.toInt ≤ n := by
  have := Interval.word_of_spans hi
  rw [Interval.atLeast, Interval.spans_between, Int64.toInt_maxValue]
  omega

lemma narrows_lt : Narrows Interval.Spans (· < ·) narrowLt := by
  intro i j a b ha hb hab
  cases i with
  | empty => exact ha.elim
  | range l₁ h₁ le₁ =>
    cases j with
    | empty => exact hb.elim
    | range l₂ h₂ le₂ =>
      have hone : (1 : Int64).toInt = 1 := rfl
      have hwa := Interval.word_of_spans ha
      have hwb := Interval.word_of_spans hb
      have hl : ((Interval.range l₁ h₁ le₁).meet (.atMost (sub h₂ 1))).Spans a := by
        rw [Interval.spans_meet, spans_atMost _ ha, toInt_sub, hone]
        rw [Interval.spans_range] at hb
        exact ⟨ha, le_nearest hwa.1 hwa.2 (by omega)⟩
      have hr : ((Interval.range l₂ h₂ le₂).meet (.atLeast (add l₁ 1))).Spans b := by
        rw [Interval.spans_meet, spans_atLeast _ hb, toInt_add, hone]
        rw [Interval.spans_range] at ha
        exact ⟨hb, nearest_le hwb.1 hwb.2 (by omega)⟩
      exact ⟨_, nonempty_of_spans hl hr, hl, hr⟩

lemma narrows_le : Narrows Interval.Spans (· ≤ ·) narrowLe := by
  intro i j a b ha hb hab
  cases i with
  | empty => exact ha.elim
  | range l₁ h₁ le₁ =>
    cases j with
    | empty => exact hb.elim
    | range l₂ h₂ le₂ =>
      have hl : ((Interval.range l₁ h₁ le₁).meet (.atMost h₂)).Spans a := by
        rw [Interval.spans_meet, spans_atMost _ ha]
        rw [Interval.spans_range] at hb
        exact ⟨ha, by omega⟩
      have hr : ((Interval.range l₂ h₂ le₂).meet (.atLeast l₁)).Spans b := by
        rw [Interval.spans_meet, spans_atLeast _ hb]
        rw [Interval.spans_range] at ha
        exact ⟨hb, by omega⟩
      exact ⟨_, nonempty_of_spans hl hr, hl, hr⟩

lemma narrows_gt : Narrows Interval.Spans (· > ·) narrowGt := narrows_lt.swap

lemma narrows_ge : Narrows Interval.Spans (· ≥ ·) narrowGe := narrows_le.swap

lemma narrows_eq : Narrows Interval.Spans (· = ·) narrowEq := by
  rintro i j a _ ha hb rfl
  have h := (Interval.spans_meet i j a).mpr ⟨ha, hb⟩
  exact ⟨_, nonempty_of_spans h h, h, h⟩

lemma spans_other {i j : Interval} {a b : Int} (ha : i.Spans a) (hb : j.Spans b) (hab : a ≠ b) :
    (j.constant?.elim i i.removeEnd).Spans a := by
  rcases hc : j.constant? with _ | w
  · exact ha
  · exact Interval.spans_removeEnd ha (Interval.spans_of_constant hc hb ▸ hab)

lemma narrows_ne : Narrows Interval.Spans (· ≠ ·) narrowNe := by
  intro i j a b ha hb hab
  have hl := spans_other ha hb hab
  have hr := spans_other hb ha hab.symm
  exact ⟨_, nonempty_of_spans hl hr, hl, hr⟩

lemma narrows_eqElems : Narrows (fun s (i : Nat) => i ∈ s) (· = ·) narrowEqElems := by
  rintro s t a _ ha hb rfl
  have h := (ElemSet.mem_inter s t a).mpr ⟨ha, hb⟩
  exact ⟨_, nonemptySets_of_mem h h, h, h⟩

lemma mem_other {s t : ElemSet} {a b : Nat} (ha : a ∈ s) (hb : b ∈ t) (hab : a ≠ b) :
    a ∈ (if t.size == 1 then s.diff t else s) := by
  split
  · rename_i ht
    rw [beq_iff_eq] at ht
    exact (ElemSet.mem_diff s t a).mpr ⟨ha, fun ha' => hab (ElemSet.eq_of_size_eq_one ht ha' hb)⟩
  · exact ha

lemma narrows_neElems : Narrows (fun s (i : Nat) => i ∈ s) (· ≠ ·) narrowNeElems := by
  intro s t a b ha hb hab
  have hl := mem_other ha hb hab
  have hr := mem_other hb ha hab.symm
  exact ⟨_, nonemptySets_of_mem hl hr, hl, hr⟩

lemma mem_compareCases {op : BinOp} {cases : (Interval → Interval → Option (Interval × Interval)) ×
    (Interval → Interval → Option (Interval × Interval))} (h : compareCases? op = some cases)
    {expected : BoolSet} {i j : Interval} {a b : Int} {d : Datum} (ha : i.Spans a) (hb : j.Spans b)
    (hd : op.compute? (.int a) (.int b) = some d) (he : d ∈ Value.bools expected) :
    ∃ p, invertRelation .join cases.1 cases.2 expected i j = some p ∧ p.1.Spans a ∧ p.2.Spans b := by
  have hjoin : ∀ (s t : Interval) n, s.Spans n ∨ t.Spans n → (s.join t).Spans n :=
    fun s t n => Interval.spans_join
  cases op <;> simp only [compareCases?, Option.some.injEq, reduceCtorEq] at h <;> subst h <;>
    obtain rfl := Option.some.inj hd
  case eq =>
    exact mem_invertRelation hjoin narrows_eq narrows_ne ha hb (by simpa using he)
  case ne =>
    refine mem_invertRelation hjoin narrows_ne (narrows_eq.congr fun a b => ?_) ha hb
      (by simpa using he)
    exact not_not.mp
  case lt =>
    exact mem_invertRelation hjoin narrows_lt (narrows_ge.congr fun a b => not_lt.mp) ha hb he
  case le =>
    exact mem_invertRelation hjoin narrows_le (narrows_gt.congr fun a b => not_le.mp) ha hb he
  case gt =>
    exact mem_invertRelation hjoin narrows_gt (narrows_le.congr fun a b => not_lt.mp) ha hb he
  case ge =>
    exact mem_invertRelation hjoin narrows_ge (narrows_lt.congr fun a b => not_le.mp) ha hb he

lemma mem_setCompareCases {op : BinOp} {cases : (ElemSet → ElemSet → Option (ElemSet × ElemSet)) ×
    (ElemSet → ElemSet → Option (ElemSet × ElemSet))} (h : setCompareCases? op = some cases)
    {expected : BoolSet} {s t : ElemSet} {a b : Nat} {d : Datum} (ha : a ∈ s) (hb : b ∈ t)
    (hd : op.compute? (.elem a) (.elem b) = some d) (he : d ∈ Value.bools expected) :
    ∃ p, invertRelation .union cases.1 cases.2 expected s t = some p ∧ a ∈ p.1 ∧ b ∈ p.2 := by
  have hunion : ∀ (s t : ElemSet) (n : Nat), n ∈ s ∨ n ∈ t → n ∈ s.union t :=
    fun s t n => (ElemSet.mem_union s t n).mpr
  cases op <;> simp only [setCompareCases?, Option.some.injEq, reduceCtorEq] at h <;> subst h <;>
    obtain rfl := Option.some.inj hd
  case eq =>
    exact mem_invertRelation hunion narrows_eqElems narrows_neElems ha hb (by simpa using he)
  case ne =>
    refine mem_invertRelation hunion narrows_neElems (narrows_eqElems.congr fun a b => ?_) ha hb
      (by simpa using he)
    exact not_not.mp

lemma nonempty_meet {i j k l : Interval} {a b : Int} (ha : i.Spans a) (hb : j.Spans b)
    (hk : k.Spans (nearest a)) (hl : l.Spans (nearest b)) :
    ∃ p, nonempty (i.meet k) (j.meet l) = some p ∧ p.1.Spans a ∧ p.2.Spans b := by
  rw [Interval.nearest_of_spans ha] at hk
  rw [Interval.nearest_of_spans hb] at hl
  have ha' := (Interval.spans_meet i k a).mpr ⟨ha, hk⟩
  have hb' := (Interval.spans_meet j l b).mpr ⟨hb, hl⟩
  exact ⟨_, nonempty_of_spans ha' hb', ha', hb'⟩

lemma mem_invertArith {op : BinOp}
    {f : Interval → Interval → Interval → Option (Interval × Interval)}
    (h : invertArith? op = some f) {e i j : Interval} {a b : Int} {d : Datum} (ha : i.Spans a)
    (hb : j.Spans b) (hd : op.compute? (.int a) (.int b) = some d) (he : d ∈ Value.ints e) :
    ∃ p, f e i j = some p ∧ p.1.Spans a ∧ p.2.Spans b := by
  cases op <;> simp only [invertArith?, Option.some.injEq, reduceCtorEq] at h <;> subst h <;>
    obtain rfl := Option.some.inj hd <;> rw [Value.int_mem_ints] at he
  case add =>
    have hl := Interval.spans_sub he hb
    have hr := Interval.spans_sub he ha
    rw [show a + b - b = a by omega] at hl
    rw [show a + b - a = b by omega] at hr
    exact nonempty_meet ha hb hl hr
  case sub =>
    have hl := Interval.spans_add he hb
    have hr := Interval.spans_sub ha he
    rw [show a - b + b = a by omega] at hl
    rw [show a - (a - b) = b by omega] at hr
    exact nonempty_meet ha hb hl hr
  case mul =>
    have hmul := Interval.spans_mul ha hb
    rw [Interval.nearest_of_spans he] at hmul
    have hmeet := Interval.isEmpty_eq_false ((Interval.spans_meet e _ _).mpr ⟨he, hmul⟩)
    exact ⟨(i, j), by simp [hmeet, nonempty_of_spans ha hb], ha, hb⟩

section Booleans

variable {f : Bool → Bool → Bool} {e s t : BoolSet}

lemma mem_pairs {q : Bool × Bool} :
    q ∈ (s.toList.flatMap fun a => t.toList.map fun b => (a, b)).filter
      (fun p => e.contains (f p.1 p.2)) ↔ q.1 ∈ s ∧ q.2 ∈ t ∧ f q.1 q.2 ∈ e := by
  obtain ⟨a, b⟩ := q
  simp only [List.mem_filter, List.mem_flatMap, List.mem_map, BoolSet.mem_toList, Prod.mk.injEq]
  constructor
  · rintro ⟨⟨_, ha, _, hb, rfl, rfl⟩, he⟩
    exact ⟨ha, hb, he⟩
  · rintro ⟨ha, hb, he⟩
    exact ⟨⟨a, ha, b, hb, rfl, rfl⟩, he⟩

lemma invertBool_eq_some {p : BoolSet × BoolSet} (h : invertBool f e s t = some p) :
    (∃ a, a ∈ p.1) ∧ (∀ a, a ∈ p.1 ↔ a ∈ s ∧ ∃ b ∈ t, f a b ∈ e) ∧
      ∀ b, b ∈ p.2 ↔ b ∈ t ∧ ∃ a ∈ s, f a b ∈ e := by
  simp only [invertBool] at h
  obtain ⟨hsome, ⟨⟩⟩ := Option.ite_none_left_eq_some.mp h
  refine ⟨BoolSet.exists_mem (Bool.eq_false_of_not_eq_true hsome), fun a => ?_, fun b => ?_⟩
  · rw [BoolSet.mem_ofList, List.mem_map]
    constructor
    · rintro ⟨q, hq, rfl⟩
      obtain ⟨ha, hb, he⟩ := mem_pairs.mp hq
      exact ⟨ha, q.2, hb, he⟩
    · rintro ⟨ha, b, hb, he⟩
      exact ⟨(a, b), mem_pairs.mpr ⟨ha, hb, he⟩, rfl⟩
  · rw [BoolSet.mem_ofList, List.mem_map]
    constructor
    · rintro ⟨q, hq, rfl⟩
      obtain ⟨ha, hb, he⟩ := mem_pairs.mp hq
      exact ⟨hb, q.1, ha, he⟩
    · rintro ⟨hb, a, ha, he⟩
      exact ⟨(a, b), mem_pairs.mpr ⟨ha, hb, he⟩, rfl⟩

lemma exists_invertBool {a b : Bool} (ha : a ∈ s) (hb : b ∈ t) (he : f a b ∈ e) :
    ∃ p, invertBool f e s t = some p := by
  have hpair := mem_pairs.mpr (show (a, b).1 ∈ s ∧ (a, b).2 ∈ t ∧ f (a, b).1 (a, b).2 ∈ e from
    ⟨ha, hb, he⟩)
  have hleft := (BoolSet.mem_ofList _ a).mpr (List.mem_map_of_mem (f := Prod.fst) hpair)
  simp only [invertBool, BoolSet.isEmpty_eq_false hleft]
  exact ⟨_, rfl⟩

lemma mem_invertBool {op : BinOp} (h : Forward.boolOp? op = some f) {a b : Bool} {d : Datum}
    (ha : a ∈ s) (hb : b ∈ t) (hd : op.compute? (.bool a) (.bool b) = some d)
    (he : d ∈ Value.bools e) : ∃ p, invertBool f e s t = some p ∧ a ∈ p.1 ∧ b ∈ p.2 := by
  obtain rfl := Option.some.inj ((Forward.apply_boolOp h a b).symm.trans hd)
  obtain ⟨p, hp⟩ := exists_invertBool ha hb he
  obtain ⟨_, hl, hr⟩ := invertBool_eq_some hp
  exact ⟨p, hp, (hl a).mpr ⟨ha, b, hb, he⟩, (hr b).mpr ⟨hb, a, ha, he⟩⟩

end Booleans

/-- What an inverse must do for an operator: be defined on values of the right kinds, and keep the
data of the operands that give an expected result. -/
def Sound (op : Op) (sig : Signature) (inverse : Inverse) : Prop :=
  ∀ expected args, sig.result.accepts expected = true →
    List.Forall₂ (fun dom v => dom.accepts v = true) sig.operands args →
    ∃ res, inverse expected args = .ok res ∧
      (∀ narrowed, res = some narrowed →
        List.Forall₂ (fun dom v => dom.accepts v = true) sig.operands narrowed) ∧
      ∀ data d, List.Forall₂ (· ∈ ·) data args → op.compute? data = some d → d ∈ expected →
        ∃ narrowed, res = some narrowed ∧ List.Forall₂ (· ∈ ·) data narrowed

section Kinds

variable {α δ : Type} (k : Kind α δ)

lemma keeps_unary {op : UnOp} {dom : Domain} {expected : Value} {s narrowed : α} {empty : Bool}
    (hdom : dom.accepts (k.value narrowed) = true)
    (h : ∀ x d, k.Mem s x → op.compute? (k.datum x) = some d → d ∈ expected →
      empty = false ∧ k.Mem narrowed x) :
    (∀ l, (if empty then none else some [k.value narrowed]) = some l →
        List.Forall₂ (fun dom v => dom.accepts v = true) [dom] l) ∧
      ∀ data d, List.Forall₂ (· ∈ ·) data [k.value s] → (Op.unary op).compute? data = some d →
        d ∈ expected → ∃ l, (if empty then none else some [k.value narrowed]) = some l ∧
          List.Forall₂ (· ∈ ·) data l := by
  constructor
  · intro l hl
    split at hl
    · cases hl
    · obtain rfl := Option.some.inj hl
      exact .cons hdom .nil
  · intro data d hdata hd he
    obtain ⟨x, rfl, hx⟩ := k.data_unary hdata
    obtain ⟨hempty, hmem⟩ := h x d hx hd he
    exact ⟨_, by rw [hempty]; rfl, .cons (k.datum_mem hmem) .nil⟩

lemma keeps_binary {op : BinOp} {doml domr : Domain} {expected : Value} {s t : α}
    {narrowed : Option (α × α)} (hdoml : ∀ s, doml.accepts (k.value s) = true)
    (hdomr : ∀ s, domr.accepts (k.value s) = true)
    (h : ∀ x y d, k.Mem s x → k.Mem t y → op.compute? (k.datum x) (k.datum y) = some d →
      d ∈ expected → ∃ p, narrowed = some p ∧ k.Mem p.1 x ∧ k.Mem p.2 y) :
    (∀ l, pair k.value narrowed = some l →
        List.Forall₂ (fun dom v => dom.accepts v = true) [doml, domr] l) ∧
      ∀ data d, List.Forall₂ (· ∈ ·) data [k.value s, k.value t] →
        (Op.binary op).compute? data = some d → d ∈ expected →
          ∃ l, pair k.value narrowed = some l ∧ List.Forall₂ (· ∈ ·) data l := by
  constructor
  · intro l hl
    obtain ⟨p, _, rfl⟩ := Option.map_eq_some_iff.mp hl
    exact .cons (hdoml p.1) (.cons (hdomr p.2) .nil)
  · intro data d hdata hd he
    obtain ⟨x, y, rfl, hx, hy⟩ := k.data_binary hdata
    obtain ⟨p, rfl, hpx, hpy⟩ := h x y d hx hy hd he
    exact ⟨_, rfl, .cons (k.datum_mem hpx) (.cons (k.datum_mem hpy) .nil)⟩

end Kinds

lemma mem_invertNot {e s : BoolSet} {b : Bool} (hb : b ∈ s) (he : (!b) ∈ e) :
    b ∈ s.inter (e.map not) :=
  (BoolSet.mem_inter _ _ _).mpr ⟨hb, (BoolSet.mem_map _ _ _).mpr ⟨!b, he, Bool.not_not b⟩⟩

lemma spans_invertNeg {e i : Interval} {n : Int} (hn : i.Spans n) (he : e.Spans (-n)) :
    (i.meet e.neg).Spans n := by
  have hneg := Interval.spans_neg he
  rw [neg_neg, Interval.nearest_of_spans hn] at hneg
  exact (Interval.spans_meet i e.neg n).mpr ⟨hn, hneg⟩

inductive Inverts : Op → Signature → Value → List Value → Option (List Value) → Prop
  | not (e s : BoolSet) : Inverts (.unary .not) ⟨[.bool], .bool⟩ (.bools e) [.bools s]
      (if (s.inter (e.map not)).isEmpty then none else some [.bools (s.inter (e.map not))])
  | neg (r range : Range) (e i : Interval) :
      Inverts (.unary .neg) ⟨[.int r], .int range⟩ (.ints e) [.ints i]
        (if (i.meet e.neg).isEmpty then none else some [.ints (i.meet e.neg)])
  | boolOp {op : BinOp} {f : Bool → Bool → Bool} (hf : Forward.boolOp? op = some f)
      (e s t : BoolSet) :
      Inverts (.binary op) ⟨[.bool, .bool], .bool⟩ (.bools e) [.bools s, .bools t]
        (pair .bools (invertBool f e s t))
  | arith {op : BinOp} {f : Interval → Interval → Interval → Option (Interval × Interval)}
      (hf : invertArith? op = some f) (r₁ r₂ range : Range) (e i j : Interval) :
      Inverts (.binary op) ⟨[.int r₁, .int r₂], .int range⟩ (.ints e) [.ints i, .ints j]
        (pair .ints (f e i j))
  | compare {op : BinOp} {cases : (Interval → Interval → Option (Interval × Interval)) ×
        (Interval → Interval → Option (Interval × Interval))} (hf : compareCases? op = some cases)
      (r₁ r₂ : Range) (e : BoolSet) (i j : Interval) :
      Inverts (.binary op) ⟨[.int r₁, .int r₂], .bool⟩ (.bools e) [.ints i, .ints j]
        (pair .ints (invertRelation .join cases.1 cases.2 e i j))
  | setCompare {op : BinOp} {cases : (ElemSet → ElemSet → Option (ElemSet × ElemSet)) ×
        (ElemSet → ElemSet → Option (ElemSet × ElemSet))} (hf : setCompareCases? op = some cases)
      (e₁ e₂ : Enumeration) (e : BoolSet) (s t : ElemSet) :
      Inverts (.binary op) ⟨[.finite e₁, .finite e₂], .bool⟩ (.bools e) [.elems s, .elems t]
        (pair .elems (invertRelation .union cases.1 cases.2 e s t))

lemma exists_inverts {op : Op} {sig : Signature} {inverse : Inverse}
    (h : inverse? op sig = some inverse) {expected : Value}
    (hexp : sig.result.accepts expected = true) {args : List Value}
    (hargs : List.Forall₂ (fun dom v => dom.accepts v = true) sig.operands args) :
    ∃ result, inverse expected args = .ok result ∧ Inverts op sig expected args result := by
  unfold inverse? at h
  split at h
  · obtain rfl := Option.some.inj h
    obtain ⟨a, rfl, ha⟩ := Forward.operands_unary hargs
    obtain ⟨s, rfl⟩ := Domain.accepts_bool.mp ha
    obtain ⟨e, rfl⟩ := Domain.accepts_bool.mp hexp
    exact ⟨_, rfl, .not e s⟩
  · obtain rfl := Option.some.inj h
    obtain ⟨a, rfl, ha⟩ := Forward.operands_unary hargs
    obtain ⟨i, rfl⟩ := Domain.accepts_int.mp ha
    obtain ⟨e, rfl⟩ := Domain.accepts_int.mp hexp
    exact ⟨_, rfl, .neg _ _ e i⟩
  · obtain ⟨f, hf, rfl⟩ := Option.map_eq_some_iff.mp h
    obtain ⟨s, t, rfl⟩ := Forward.operands_bools hargs
    obtain ⟨e, rfl⟩ := Domain.accepts_bool.mp hexp
    exact ⟨_, rfl, .boolOp hf e s t⟩
  · obtain ⟨f, hf, rfl⟩ := Option.map_eq_some_iff.mp h
    obtain ⟨i, j, rfl⟩ := Forward.operands_ints hargs
    obtain ⟨e, rfl⟩ := Domain.accepts_int.mp hexp
    exact ⟨_, rfl, .arith hf _ _ _ e i j⟩
  · obtain ⟨cases, hf, rfl⟩ := Option.map_eq_some_iff.mp h
    obtain ⟨i, j, rfl⟩ := Forward.operands_ints hargs
    obtain ⟨e, rfl⟩ := Domain.accepts_bool.mp hexp
    exact ⟨_, rfl, .compare hf _ _ e i j⟩
  · obtain ⟨cases, hf, rfl⟩ := Option.map_eq_some_iff.mp h
    obtain ⟨s, t, rfl⟩ := Forward.operands_elems hargs
    obtain ⟨e, rfl⟩ := Domain.accepts_bool.mp hexp
    exact ⟨_, rfl, .setCompare hf _ _ e s t⟩
  · cases h

theorem sound_inverse {op : Op} {sig : Signature} {inverse : Inverse}
    (h : inverse? op sig = some inverse) : Sound op sig inverse := by
  intro expected args hexp hargs
  obtain ⟨result, hresult, hinverts⟩ := exists_inverts h hexp hargs
  refine ⟨result, hresult, ?_⟩
  cases hinverts with
  | not e s =>
    apply keeps_unary .bools rfl
    rintro b _ hb ⟨⟩ he
    have hmem := mem_invertNot hb he
    exact ⟨BoolSet.isEmpty_eq_false hmem, hmem⟩
  | neg r range e i =>
    apply keeps_unary .ints rfl
    rintro n _ hn ⟨⟩ he
    have hmem := spans_invertNeg hn he
    exact ⟨Interval.isEmpty_eq_false hmem, hmem⟩
  | boolOp hf e s t =>
    apply keeps_binary .bools (fun _ => rfl) (fun _ => rfl)
    intro x y d
    exact mem_invertBool hf
  | arith hf r₁ r₂ range e i j =>
    apply keeps_binary .ints (fun _ => rfl) (fun _ => rfl)
    intro x y d
    exact mem_invertArith hf
  | compare hf r₁ r₂ e i j =>
    apply keeps_binary .ints (fun _ => rfl) (fun _ => rfl)
    intro x y d
    exact mem_compareCases hf
  | setCompare hf e₁ e₂ e s t =>
    apply keeps_binary .elems (fun _ => rfl) (fun _ => rfl)
    intro x y d
    exact mem_setCompareCases hf

end Tracewise.Backward
