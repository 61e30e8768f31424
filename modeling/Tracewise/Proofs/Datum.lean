import Tracewise.Operator.Semantics
import Tracewise.Proofs.Elements
import Tracewise.Proofs.Spans

namespace Tracewise

inductive Datum
  | bool (b : Bool)
  | int (n : Int)
  | elem (i : Nat)
deriving DecidableEq

instance : Membership Datum Value where
  mem
    | .bools s, .bool b => b ∈ s
    | .ints i, .int n => i.Spans n
    | .elems s, .elem i => i ∈ s
    | _, _ => False

instance : (d : Datum) → (v : Value) → Decidable (d ∈ v)
  | .bool b, .bools s => inferInstanceAs (Decidable (b ∈ s))
  | .int n, .ints i => inferInstanceAs (Decidable (i.Spans n))
  | .elem i, .elems s => inferInstanceAs (Decidable (i ∈ s))
  | .bool _, .ints _ => isFalse id
  | .bool _, .elems _ => isFalse id
  | .int _, .bools _ => isFalse id
  | .int _, .elems _ => isFalse id
  | .elem _, .bools _ => isFalse id
  | .elem _, .ints _ => isFalse id

def Domain.Has : Domain → Datum → Prop
  | .bool, .bool _ => True
  | .int r, .int n => r.min.toInt ≤ n ∧ n ≤ r.max.toInt
  | .finite e, .elem i => i < e.literals.length
  | _, _ => False

def UnOp.compute? : UnOp → Datum → Option Datum
  | .not, .bool b => some (.bool !b)
  | .neg, .int n => some (.int (-n))
  | _, _ => none

def BinOp.compute? : BinOp → Datum → Datum → Option Datum
  | .eq, a, b => some (.bool (a = b))
  | .ne, a, b => some (.bool (a ≠ b))
  | .and, .bool a, .bool b => some (.bool (a && b))
  | .or, .bool a, .bool b => some (.bool (a || b))
  | .lt, .int a, .int b => some (.bool (a < b))
  | .le, .int a, .int b => some (.bool (a ≤ b))
  | .gt, .int a, .int b => some (.bool (a > b))
  | .ge, .int a, .int b => some (.bool (a ≥ b))
  | .add, .int a, .int b => some (.int (a + b))
  | .sub, .int a, .int b => some (.int (a - b))
  | .mul, .int a, .int b => some (.int (a * b))
  | _, _, _ => none

namespace Value

lemma mem_bools {d : Datum} {s : BoolSet} : d ∈ bools s ↔ ∃ b, d = .bool b ∧ b ∈ s := by
  cases d with
  | bool b => exact ⟨fun h => ⟨b, rfl, h⟩, by rintro ⟨_, ⟨⟩, h⟩; exact h⟩
  | int n => exact ⟨False.elim, by rintro ⟨_, ⟨⟩, _⟩⟩
  | elem i => exact ⟨False.elim, by rintro ⟨_, ⟨⟩, _⟩⟩

lemma mem_ints {d : Datum} {i : Interval} : d ∈ ints i ↔ ∃ n, d = .int n ∧ i.Spans n := by
  cases d with
  | bool b => exact ⟨False.elim, by rintro ⟨_, ⟨⟩, _⟩⟩
  | int n => exact ⟨fun h => ⟨n, rfl, h⟩, by rintro ⟨_, ⟨⟩, h⟩; exact h⟩
  | elem i => exact ⟨False.elim, by rintro ⟨_, ⟨⟩, _⟩⟩

lemma mem_elems {d : Datum} {s : ElemSet} : d ∈ elems s ↔ ∃ i, d = .elem i ∧ i ∈ s := by
  cases d with
  | bool b => exact ⟨False.elim, by rintro ⟨_, ⟨⟩, _⟩⟩
  | int n => exact ⟨False.elim, by rintro ⟨_, ⟨⟩, _⟩⟩
  | elem i => exact ⟨fun h => ⟨i, rfl, h⟩, by rintro ⟨_, ⟨⟩, h⟩; exact h⟩

@[simp] lemma bool_mem_bools (b : Bool) (s : BoolSet) : .bool b ∈ bools s ↔ b ∈ s := Iff.rfl

@[simp] lemma int_mem_ints (n : Int) (i : Interval) : .int n ∈ ints i ↔ i.Spans n := Iff.rfl

@[simp] lemma elem_mem_elems (i : Nat) (s : ElemSet) : .elem i ∈ elems s ↔ i ∈ s := Iff.rfl

lemma isEmpty_eq_false {v : Value} {d : Datum} (h : d ∈ v) : v.isEmpty = false := by
  have hpos : 0 < v.size := by
    cases v with
    | bools s => obtain ⟨b, rfl, hb⟩ := mem_bools.mp h; exact BoolSet.size_pos hb
    | ints i => obtain ⟨n, rfl, hn⟩ := mem_ints.mp h; exact Interval.size_pos hn
    | elems s => obtain ⟨i, rfl, hi⟩ := mem_elems.mp h; exact ElemSet.size_pos hi
  simp only [isEmpty, beq_eq_false_iff_ne]
  omega

end Value

namespace Domain

lemma mem_top (dom : Domain) (d : Datum) : d ∈ dom.top ↔ dom.Has d := by
  cases dom with
  | bool => cases d <;> simp [top, Has, Value.mem_bools, BoolSet.ops]
  | int r => cases d <;> simp [top, Has, Value.mem_ints, Range.ops, Range.spans_top]
  | finite e =>
    cases d <;> simp [top, Has, Value.mem_elems, Enumeration.ops, Enumeration.top,
      ElemSet.mem_full e.fits]

lemma accepts_bool {v : Value} : Domain.bool.accepts v = true ↔ ∃ s, v = .bools s := by
  cases v <;> simp [accepts]

lemma accepts_int {r : Range} {v : Value} : (int r).accepts v = true ↔ ∃ i, v = .ints i := by
  cases v <;> simp [accepts]

lemma accepts_finite {e : Enumeration} {v : Value} :
    (finite e).accepts v = true ↔ ∃ s, v = .elems s := by
  cases v <;> simp [accepts]

lemma accepts_top (dom : Domain) : dom.accepts dom.top = true := by
  cases dom <;> rfl

lemma accepts_clamp {dom : Domain} {v : Value} (h : dom.accepts v = true) :
    dom.accepts (dom.clamp v) = true := by
  cases dom with
  | bool => exact h
  | finite e => exact h
  | int r => obtain ⟨i, rfl⟩ := accepts_int.mp h; rfl

lemma mem_clamp {dom : Domain} {v : Value} {d : Datum} (h : d ∈ v) (hd : dom.Has d) :
    d ∈ dom.clamp v := by
  cases dom with
  | bool => exact h
  | finite e => exact h
  | int r =>
    cases v with
    | bools s => exact h
    | elems s => exact h
    | ints i =>
      obtain ⟨n, rfl, hn⟩ := Value.mem_ints.mp h
      exact (Interval.spans_meet _ _ _).mpr ⟨hn, (r.spans_top n).mpr hd⟩

lemma accepts_of_canHold {target source : Domain} {v : Value} (h : target.canHold source = true)
    (hv : source.accepts v = true) : target.accepts v = true := by
  cases target <;> cases source <;> simp_all [canHold, accepts]
  cases v <;> simp_all

section Lattice

variable {dom : Domain} {a b : Value}

lemma exists_le (ha : dom.accepts a = true) (hb : dom.accepts b = true) :
    ∃ result, dom.le a b = .ok result := by
  cases dom with
  | bool =>
    obtain ⟨s, rfl⟩ := accepts_bool.mp ha
    obtain ⟨t, rfl⟩ := accepts_bool.mp hb
    exact ⟨_, rfl⟩
  | int r =>
    obtain ⟨i, rfl⟩ := accepts_int.mp ha
    obtain ⟨j, rfl⟩ := accepts_int.mp hb
    exact ⟨_, rfl⟩
  | finite e =>
    obtain ⟨s, rfl⟩ := accepts_finite.mp ha
    obtain ⟨t, rfl⟩ := accepts_finite.mp hb
    exact ⟨_, rfl⟩

lemma meet_spec (ha : dom.accepts a = true) (hb : dom.accepts b = true) :
    ∃ c, dom.meet a b = .ok c ∧ dom.accepts c = true ∧ ∀ d, d ∈ c ↔ d ∈ a ∧ d ∈ b := by
  cases dom with
  | bool =>
    obtain ⟨s, rfl⟩ := accepts_bool.mp ha
    obtain ⟨t, rfl⟩ := accepts_bool.mp hb
    exact ⟨.bools (s.inter t), rfl, rfl, fun d => by cases d <;> simp [Value.mem_bools]⟩
  | int r =>
    obtain ⟨i, rfl⟩ := accepts_int.mp ha
    obtain ⟨j, rfl⟩ := accepts_int.mp hb
    exact ⟨.ints (i.meet j), rfl, rfl, fun d => by cases d <;> simp [Value.mem_ints]⟩
  | finite e =>
    obtain ⟨s, rfl⟩ := accepts_finite.mp ha
    obtain ⟨t, rfl⟩ := accepts_finite.mp hb
    exact ⟨.elems (s.inter t), rfl, rfl, fun d => by cases d <;> simp [Value.mem_elems]⟩

lemma mem_bools_union {s t : BoolSet} {d : Datum} (h : d ∈ Value.bools s ∨ d ∈ Value.bools t) :
    d ∈ Value.bools (s.union t) := by
  cases d <;> simp_all [Value.mem_bools]

lemma mem_elems_union {s t : ElemSet} {d : Datum} (h : d ∈ Value.elems s ∨ d ∈ Value.elems t) :
    d ∈ Value.elems (s.union t) := by
  cases d <;> simp_all [Value.mem_elems]

lemma join_spec (ha : dom.accepts a = true) (hb : dom.accepts b = true) :
    ∃ c, dom.join a b = .ok c ∧ dom.accepts c = true ∧ ∀ d, d ∈ a ∨ d ∈ b → d ∈ c := by
  cases dom with
  | bool =>
    obtain ⟨s, rfl⟩ := accepts_bool.mp ha
    obtain ⟨t, rfl⟩ := accepts_bool.mp hb
    exact ⟨.bools (s.union t), rfl, rfl, fun d => mem_bools_union⟩
  | int r =>
    obtain ⟨i, rfl⟩ := accepts_int.mp ha
    obtain ⟨j, rfl⟩ := accepts_int.mp hb
    refine ⟨.ints (i.join j), rfl, rfl, fun d h => ?_⟩
    cases d with
    | int n => exact Interval.spans_join h
    | bool b => exact h.elim id id
    | elem k => exact h.elim id id
  | finite e =>
    obtain ⟨s, rfl⟩ := accepts_finite.mp ha
    obtain ⟨t, rfl⟩ := accepts_finite.mp hb
    exact ⟨.elems (s.union t), rfl, rfl, fun d => mem_elems_union⟩

lemma widen_spec (ha : dom.accepts a = true) (hb : dom.accepts b = true) :
    ∃ c, dom.widen a b = .ok c ∧ dom.accepts c = true ∧ (∀ d, d ∈ a ∨ d ∈ b → d ∈ c) ∧
      dom.widen c b = .ok c := by
  cases dom with
  | bool =>
    obtain ⟨s, rfl⟩ := accepts_bool.mp ha
    obtain ⟨t, rfl⟩ := accepts_bool.mp hb
    refine ⟨.bools (s.union t), rfl, rfl, fun d => mem_bools_union, ?_⟩
    change Except.ok (Value.bools ((s.union t).union t)) = _
    rw [BoolSet.union_absorb]
  | int r =>
    obtain ⟨i, rfl⟩ := accepts_int.mp ha
    obtain ⟨j, rfl⟩ := accepts_int.mp hb
    refine ⟨.ints (r.widen i j), rfl, rfl, fun d h => ?_, ?_⟩
    · cases d with
      | int n => exact r.spans_widen h
      | bool b => exact h.elim id id
      | elem k => exact h.elim id id
    · change Except.ok (Value.ints (r.widen (r.widen i j) j)) = _
      rw [Range.widen_absorb]
  | finite e =>
    obtain ⟨s, rfl⟩ := accepts_finite.mp ha
    obtain ⟨t, rfl⟩ := accepts_finite.mp hb
    refine ⟨.elems (s.union t), rfl, rfl, fun d => mem_elems_union, ?_⟩
    change Except.ok (Value.elems ((s.union t).union t)) = _
    rw [ElemSet.union_absorb]

lemma widen_self (ha : dom.accepts a = true) : dom.widen a a = .ok a := by
  cases dom with
  | bool =>
    obtain ⟨s, rfl⟩ := accepts_bool.mp ha
    change Except.ok (Value.bools (s.union s)) = _
    rw [BoolSet.union_self]
  | int r =>
    obtain ⟨i, rfl⟩ := accepts_int.mp ha
    change Except.ok (Value.ints (r.widen i i)) = _
    rw [Range.widen_self]
  | finite e =>
    obtain ⟨s, rfl⟩ := accepts_finite.mp ha
    change Except.ok (Value.elems (s.union s)) = _
    rw [ElemSet.union_self]

end Lattice

end Domain

end Tracewise
