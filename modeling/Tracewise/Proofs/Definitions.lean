import Tracewise.Operator.Forward
import Tracewise.Proofs.Datum

namespace Tracewise

def Op.compute? : Op → List Datum → Option Datum
  | .unary op, [a] => op.compute? a
  | .binary op, [a, b] => op.compute? a b
  | _, _ => none

structure Kind (α δ : Type) where
  value : α → Value
  datum : δ → Datum
  Mem : α → δ → Prop
  mem_value : ∀ {s : α} {d : Datum}, d ∈ value s ↔ ∃ x, d = datum x ∧ Mem s x

namespace Kind

def bools : Kind BoolSet Bool := ⟨.bools, .bool, fun s b => b ∈ s, Value.mem_bools⟩

def ints : Kind Interval Int := ⟨.ints, .int, Interval.Spans, Value.mem_ints⟩

def elems : Kind ElemSet Nat := ⟨.elems, .elem, fun s i => i ∈ s, Value.mem_elems⟩

variable {α δ : Type} (k : Kind α δ)

lemma data_unary {data : List Datum} {s : α} (h : List.Forall₂ (· ∈ ·) data [k.value s]) :
    ∃ x, data = [k.datum x] ∧ k.Mem s x := by
  cases h with
  | cons hd h =>
    cases h
    obtain ⟨x, rfl, hx⟩ := k.mem_value.mp hd
    exact ⟨x, rfl, hx⟩

lemma data_binary {data : List Datum} {s t : α}
    (h : List.Forall₂ (· ∈ ·) data [k.value s, k.value t]) :
    ∃ x y, data = [k.datum x, k.datum y] ∧ k.Mem s x ∧ k.Mem t y := by
  cases h with
  | cons hd h =>
    obtain ⟨x, rfl, hx⟩ := k.mem_value.mp hd
    obtain ⟨y, rfl, hy⟩ := k.data_unary h
    exact ⟨x, y, rfl, hx, hy⟩

lemma datum_mem {s : α} {x : δ} (h : k.Mem s x) : k.datum x ∈ k.value s :=
  k.mem_value.mpr ⟨x, rfl, h⟩

end Kind

namespace Forward

lemma mem_liftBool (f : Bool → Bool → Bool) (l r : BoolSet) (c : Bool) :
    c ∈ liftBool f l r ↔ ∃ a b, a ∈ l ∧ b ∈ r ∧ f a b = c := by
  simp only [liftBool, BoolSet.mem_ofList, List.mem_flatMap, List.mem_map, BoolSet.mem_toList]
  constructor
  · rintro ⟨a, ha, b, hb, h⟩
    exact ⟨a, b, ha, hb, h⟩
  · rintro ⟨a, b, ha, hb, h⟩
    exact ⟨a, ha, b, hb, h⟩

lemma apply_boolOp {op : BinOp} {f : Bool → Bool → Bool} (h : boolOp? op = some f) (a b : Bool) :
    op.compute? (.bool a) (.bool b) = some (.bool (f a b)) := by
  cases op <;> simp only [boolOp?, Option.some.injEq, reduceCtorEq] at h <;> subst h <;>
    cases a <;> cases b <;> rfl

lemma spans_intArith {op : BinOp} {f : Interval → Interval → Interval} (h : intArith? op = some f)
    {i j : Interval} {a b : Int} (ha : i.Spans a) (hb : j.Spans b) :
    ∃ n, op.compute? (.int a) (.int b) = some (.int n) ∧ (f i j).Spans (Saturating.nearest n) := by
  cases op <;> simp only [intArith?, Option.some.injEq, reduceCtorEq] at h <;> subst h
  · exact ⟨a + b, rfl, Interval.spans_add ha hb⟩
  · exact ⟨a - b, rfl, Interval.spans_sub ha hb⟩
  · exact ⟨a * b, rfl, Interval.spans_mul ha hb⟩

lemma mem_lt {i j : Interval} {a b : Int} (ha : i.Spans a) (hb : j.Spans b) :
    decide (a < b) ∈ lt i j := by
  cases i with
  | empty => exact ha.elim
  | range l₁ h₁ le₁ =>
    cases j with
    | empty => exact hb.elim
    | range l₂ h₂ le₂ =>
      rw [Interval.spans_range] at ha hb
      by_cases hab : a < b
      · simp only [lt, hab, decide_true, BoolSet.true_mem_ofFlags, decide_eq_true_eq,
          Int64.lt_iff_toInt_lt]
        omega
      · simp only [lt, hab, decide_false, BoolSet.false_mem_ofFlags, decide_eq_true_eq,
          Int64.le_iff_toInt_le]
        omega

lemma mem_le {i j : Interval} {a b : Int} (ha : i.Spans a) (hb : j.Spans b) :
    decide (a ≤ b) ∈ le i j := by
  cases i with
  | empty => exact ha.elim
  | range l₁ h₁ le₁ =>
    cases j with
    | empty => exact hb.elim
    | range l₂ h₂ le₂ =>
      rw [Interval.spans_range] at ha hb
      by_cases hab : a ≤ b
      · simp only [le, hab, decide_true, BoolSet.true_mem_ofFlags, decide_eq_true_eq,
          Int64.le_iff_toInt_le]
        omega
      · simp only [le, hab, decide_false, BoolSet.false_mem_ofFlags, decide_eq_true_eq,
          Int64.lt_iff_toInt_lt]
        omega

lemma mem_eqInts {i j : Interval} {a b : Int} (ha : i.Spans a) (hb : j.Spans b) :
    decide (a = b) ∈ eqInts i j := by
  rw [eqInts, Interval.isEmpty_eq_false ha, Interval.isEmpty_eq_false hb]
  simp only [Bool.or_self, Bool.false_eq_true, if_false]
  by_cases hab : a = b
  · subst hab
    have hmeet := Interval.isEmpty_eq_false ((Interval.spans_meet i j a).mpr ⟨ha, hb⟩)
    simp [hmeet]
  · simp only [hab, decide_false, BoolSet.false_mem_ofFlags, Bool.not_eq_true',
      Bool.and_eq_false_imp, Option.isSome_iff_exists, beq_eq_false_iff_ne]
    rintro ⟨w, hw⟩ rfl
    exact hab ((Interval.spans_of_constant hw ha).trans (Interval.spans_of_constant hw hb).symm)

lemma mem_eqElems {s t : ElemSet} {a b : Nat} (ha : a ∈ s) (hb : b ∈ t) :
    decide (a = b) ∈ eqElems s t := by
  rw [eqElems, ElemSet.isEmpty_eq_false ha, ElemSet.isEmpty_eq_false hb]
  simp only [Bool.or_self, Bool.false_eq_true, if_false]
  by_cases hab : a = b
  · subst hab
    have hinter := ElemSet.isEmpty_eq_false ((ElemSet.mem_inter s t a).mpr ⟨ha, hb⟩)
    simp [hinter]
  · simp only [hab, decide_false, BoolSet.false_mem_ofFlags, Bool.not_eq_true',
      Bool.and_eq_false_imp, beq_iff_eq, beq_eq_false_iff_ne]
    rintro hs rfl
    exact hab (ElemSet.eq_of_size_eq_one hs ha hb)

lemma mem_intCompare {op : BinOp} {f : Interval → Interval → BoolSet} (h : intCompare? op = some f)
    {i j : Interval} {a b : Int} (ha : i.Spans a) (hb : j.Spans b) :
    ∃ c, op.compute? (.int a) (.int b) = some (.bool c) ∧ c ∈ f i j := by
  cases op <;> simp only [intCompare?, Option.some.injEq, reduceCtorEq] at h <;> subst h
  case eq => exact ⟨decide (a = b), by simp [BinOp.compute?], mem_eqInts ha hb⟩
  case ne => exact ⟨!decide (a = b), by simp [BinOp.compute?],
    (BoolSet.mem_map _ _ _).mpr ⟨decide (a = b), mem_eqInts ha hb, rfl⟩⟩
  case lt => exact ⟨decide (a < b), rfl, mem_lt ha hb⟩
  case le => exact ⟨decide (a ≤ b), rfl, mem_le ha hb⟩
  case gt => exact ⟨decide (b < a), rfl, mem_lt hb ha⟩
  case ge => exact ⟨decide (b ≤ a), rfl, mem_le hb ha⟩

lemma mem_setCompare {op : BinOp} {f : ElemSet → ElemSet → BoolSet} (h : setCompare? op = some f)
    {s t : ElemSet} {a b : Nat} (ha : a ∈ s) (hb : b ∈ t) :
    ∃ c, op.compute? (.elem a) (.elem b) = some (.bool c) ∧ c ∈ f s t := by
  cases op <;> simp only [setCompare?, Option.some.injEq, reduceCtorEq] at h <;> subst h
  case eq => exact ⟨decide (a = b), by simp [BinOp.compute?], mem_eqElems ha hb⟩
  case ne => exact ⟨!decide (a = b), by simp [BinOp.compute?],
    (BoolSet.mem_map _ _ _).mpr ⟨decide (a = b), mem_eqElems ha hb, rfl⟩⟩

/-- What a definition must do for an operator: be defined on operands of the right kinds, and keep
every result that the result's domain has. -/
def Sound (op : Op) (sig : Signature) (definition : Definition) : Prop :=
  ∀ args, List.Forall₂ (fun dom v => dom.accepts v = true) sig.operands args →
    ∃ v, definition args = .ok v ∧ sig.result.accepts v = true ∧
      ∀ data d, List.Forall₂ (· ∈ ·) data args → op.compute? data = some d → sig.result.Has d → d ∈ v

lemma operands_unary {α β : Type} {R : α → β → Prop} {x : α} {args : List β}
    (h : List.Forall₂ R [x] args) : ∃ a, args = [a] ∧ R x a := by
  obtain ⟨a, as, ha, has, rfl⟩ := List.forall₂_cons_left_iff.mp h
  obtain rfl := List.forall₂_nil_left_iff.mp has
  exact ⟨a, rfl, ha⟩

lemma operands_binary {α β : Type} {R : α → β → Prop} {x y : α} {args : List β}
    (h : List.Forall₂ R [x, y] args) : ∃ a b, args = [a, b] ∧ R x a ∧ R y b := by
  obtain ⟨a, as, ha, has, rfl⟩ := List.forall₂_cons_left_iff.mp h
  obtain ⟨b, rfl, hb⟩ := operands_unary has
  exact ⟨a, b, rfl, ha, hb⟩

section Operands

variable {args : List Value}

lemma operands_bools
    (h : List.Forall₂ (fun dom v => dom.accepts v = true) [Domain.bool, .bool] args) :
    ∃ s t, args = [.bools s, .bools t] := by
  obtain ⟨a, b, rfl, ha, hb⟩ := operands_binary h
  obtain ⟨s, rfl⟩ := Domain.accepts_bool.mp ha
  obtain ⟨t, rfl⟩ := Domain.accepts_bool.mp hb
  exact ⟨s, t, rfl⟩

lemma operands_ints {r₁ r₂ : Range}
    (h : List.Forall₂ (fun dom v => dom.accepts v = true) [Domain.int r₁, .int r₂] args) :
    ∃ i j, args = [.ints i, .ints j] := by
  obtain ⟨a, b, rfl, ha, hb⟩ := operands_binary h
  obtain ⟨i, rfl⟩ := Domain.accepts_int.mp ha
  obtain ⟨j, rfl⟩ := Domain.accepts_int.mp hb
  exact ⟨i, j, rfl⟩

lemma operands_elems {e₁ e₂ : Enumeration}
    (h : List.Forall₂ (fun dom v => dom.accepts v = true) [Domain.finite e₁, .finite e₂] args) :
    ∃ s t, args = [.elems s, .elems t] := by
  obtain ⟨a, b, rfl, ha, hb⟩ := operands_binary h
  obtain ⟨s, rfl⟩ := Domain.accepts_finite.mp ha
  obtain ⟨t, rfl⟩ := Domain.accepts_finite.mp hb
  exact ⟨s, t, rfl⟩

end Operands

inductive Defines : Op → Signature → List Value → Value → Prop
  | not (s : BoolSet) : Defines (.unary .not) ⟨[.bool], .bool⟩ [.bools s] (.bools (s.map not))
  | neg (r range : Range) (i : Interval) :
      Defines (.unary .neg) ⟨[.int r], .int range⟩ [.ints i] (.ints (range.clamp i.neg))
  | boolOp {op : BinOp} {f : Bool → Bool → Bool} (hf : boolOp? op = some f) (s t : BoolSet) :
      Defines (.binary op) ⟨[.bool, .bool], .bool⟩ [.bools s, .bools t] (.bools (liftBool f s t))
  | intArith {op : BinOp} {f : Interval → Interval → Interval} (hf : intArith? op = some f)
      (r₁ r₂ range : Range) (i j : Interval) :
      Defines (.binary op) ⟨[.int r₁, .int r₂], .int range⟩ [.ints i, .ints j]
        (.ints (range.clamp (f i j)))
  | intCompare {op : BinOp} {f : Interval → Interval → BoolSet} (hf : intCompare? op = some f)
      (r₁ r₂ : Range) (i j : Interval) :
      Defines (.binary op) ⟨[.int r₁, .int r₂], .bool⟩ [.ints i, .ints j] (.bools (f i j))
  | setCompare {op : BinOp} {f : ElemSet → ElemSet → BoolSet} (hf : setCompare? op = some f)
      (e₁ e₂ : Enumeration) (s t : ElemSet) :
      Defines (.binary op) ⟨[.finite e₁, .finite e₂], .bool⟩ [.elems s, .elems t] (.bools (f s t))

lemma exists_defines {op : Op} {sig : Signature} {definition : Definition}
    (h : definition? op sig = some definition) {args : List Value}
    (hargs : List.Forall₂ (fun dom v => dom.accepts v = true) sig.operands args) :
    ∃ v, definition args = .ok v ∧ Defines op sig args v := by
  unfold definition? at h
  split at h
  · obtain rfl := Option.some.inj h
    obtain ⟨a, rfl, ha⟩ := operands_unary hargs
    obtain ⟨s, rfl⟩ := Domain.accepts_bool.mp ha
    exact ⟨_, rfl, .not s⟩
  · obtain rfl := Option.some.inj h
    obtain ⟨a, rfl, ha⟩ := operands_unary hargs
    obtain ⟨i, rfl⟩ := Domain.accepts_int.mp ha
    exact ⟨_, rfl, .neg _ _ i⟩
  · obtain ⟨f, hf, rfl⟩ := Option.map_eq_some_iff.mp h
    obtain ⟨s, t, rfl⟩ := operands_bools hargs
    exact ⟨_, rfl, .boolOp hf s t⟩
  · obtain ⟨f, hf, rfl⟩ := Option.map_eq_some_iff.mp h
    obtain ⟨i, j, rfl⟩ := operands_ints hargs
    exact ⟨_, rfl, .intArith hf _ _ _ i j⟩
  · obtain ⟨f, hf, rfl⟩ := Option.map_eq_some_iff.mp h
    obtain ⟨i, j, rfl⟩ := operands_ints hargs
    exact ⟨_, rfl, .intCompare hf _ _ i j⟩
  · obtain ⟨f, hf, rfl⟩ := Option.map_eq_some_iff.mp h
    obtain ⟨s, t, rfl⟩ := operands_elems hargs
    exact ⟨_, rfl, .setCompare hf _ _ s t⟩
  · cases h

lemma mem_clamped {r : Range} {i : Interval} {n : Int} (h : i.Spans (Saturating.nearest n))
    (hn : (Domain.int r).Has (.int n)) : Datum.int n ∈ Value.ints (r.clamp i) := by
  have htop := (r.spans_top n).mpr hn
  rw [Interval.nearest_of_spans htop] at h
  exact (Interval.spans_meet _ _ _).mpr ⟨h, htop⟩

lemma holds_unary {α δ : Type} (k : Kind α δ) {op : UnOp} {result : Domain} {s : α} {v : Value}
    (h : ∀ x, k.Mem s x → ∃ d, op.compute? (k.datum x) = some d ∧ (result.Has d → d ∈ v))
    (data : List Datum) (d : Datum) (hdata : List.Forall₂ (· ∈ ·) data [k.value s])
    (hd : (Op.unary op).compute? data = some d) (hhas : result.Has d) : d ∈ v := by
  obtain ⟨x, rfl, hx⟩ := k.data_unary hdata
  obtain ⟨d', hd', hmem⟩ := h x hx
  obtain rfl := Option.some.inj (hd'.symm.trans hd)
  exact hmem hhas

lemma holds_binary {α δ : Type} (k : Kind α δ) {op : BinOp} {result : Domain} {s t : α} {v : Value}
    (h : ∀ x y, k.Mem s x → k.Mem t y →
      ∃ d, op.compute? (k.datum x) (k.datum y) = some d ∧ (result.Has d → d ∈ v))
    (data : List Datum) (d : Datum) (hdata : List.Forall₂ (· ∈ ·) data [k.value s, k.value t])
    (hd : (Op.binary op).compute? data = some d) (hhas : result.Has d) : d ∈ v := by
  obtain ⟨x, y, rfl, hx, hy⟩ := k.data_binary hdata
  obtain ⟨d', hd', hmem⟩ := h x y hx hy
  obtain rfl := Option.some.inj (hd'.symm.trans hd)
  exact hmem hhas

theorem sound_definition {op : Op} {sig : Signature} {definition : Definition}
    (h : definition? op sig = some definition) : Sound op sig definition := by
  intro args hargs
  obtain ⟨v, hv, hdefines⟩ := exists_defines h hargs
  refine ⟨v, hv, ?_⟩
  cases hdefines with
  | not s =>
    refine ⟨rfl, holds_unary .bools fun b hb => ?_⟩
    exact ⟨_, rfl, fun _ => (BoolSet.mem_map _ _ _).mpr ⟨b, hb, rfl⟩⟩
  | neg r range i =>
    refine ⟨rfl, holds_unary .ints fun n hn => ?_⟩
    exact ⟨_, rfl, mem_clamped (Interval.spans_neg hn)⟩
  | @boolOp op f hf s t =>
    refine ⟨rfl, holds_binary .bools fun x y hx hy => ?_⟩
    exact ⟨_, apply_boolOp hf x y, fun _ => (mem_liftBool f s t _).mpr ⟨x, y, hx, hy, rfl⟩⟩
  | intArith hf r₁ r₂ range i j =>
    refine ⟨rfl, holds_binary .ints fun x y hx hy => ?_⟩
    obtain ⟨n, hn, hspans⟩ := spans_intArith hf hx hy
    exact ⟨_, hn, mem_clamped hspans⟩
  | intCompare hf r₁ r₂ i j =>
    refine ⟨rfl, holds_binary .ints fun x y hx hy => ?_⟩
    obtain ⟨c, hc, hmem⟩ := mem_intCompare hf hx hy
    exact ⟨_, hc, fun _ => hmem⟩
  | setCompare hf e₁ e₂ s t =>
    refine ⟨rfl, holds_binary .elems fun x y hx hy => ?_⟩
    obtain ⟨c, hc, hmem⟩ := mem_setCompare hf hx hy
    exact ⟨_, hc, fun _ => hmem⟩

end Forward

end Tracewise
