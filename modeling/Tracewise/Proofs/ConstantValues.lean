import Tracewise.Proofs.Exactness
import Tracewise.Proofs.Folding

/-! Constant expressions have one value: folding them over the integers and evaluating them
abstractly agree, as long as no result leaves the domain of its node. -/

namespace Tracewise

open Saturating Fallible

/-- Whether a datum is of the kind that a domain is made for, be it in its range or not. -/
def Domain.Sorts : Domain → Datum → Prop
  | .bool, .bool _ => True
  | .int _, .int _ => True
  | .finite _, .elem _ => True
  | _, _ => False

namespace Domain

variable {d : Datum}

lemma sorts_bool : Domain.bool.Sorts d ↔ ∃ b, d = .bool b := by
  cases d <;> simp [Sorts]

lemma sorts_int {r : Range} : (Domain.int r).Sorts d ↔ ∃ n, d = .int n := by
  cases d <;> simp [Sorts]

lemma sorts_finite {e : Enumeration} : (Domain.finite e).Sorts d ↔ ∃ i, d = .elem i := by
  cases d <;> simp [Sorts]

end Domain

def Value.Only (v : Value) (d : Datum) : Prop := ∀ d', d' ∈ v ↔ d' = d

lemma Value.Only.ints {i : Interval} {d : Datum} (h : (Value.ints i).Only d) :
    ∃ a, d = .int a ∧ i.Spans a ∧ ∀ n, i.Spans n → n = a := by
  obtain ⟨a, rfl, ha⟩ := Value.mem_ints.mp ((h d).mpr rfl)
  exact ⟨a, rfl, ha, fun n hn => Datum.int.inj ((h (.int n)).mp hn)⟩

namespace Interval

variable {i j : Interval} {a b n : Int}

lemma Tight.eq_nearest {op : Int → Int → Int} {f : Interval → Interval → Interval}
    (hf : Tight op f) (hi : ∀ n, i.Spans n → n = a) (hj : ∀ n, j.Spans n → n = b)
    (h : (f i j).Spans n) : n = nearest (op a b) := by
  obtain ⟨x, y, x', y', hx, hy, hx', hy', hlow, hhigh⟩ := hf i j n h
  rw [hi x hx, hj y hy] at hlow
  rw [hi x' hx', hj y' hy'] at hhigh
  exact le_antisymm hhigh hlow

lemma eq_constant (hn : i.Spans n) (hall : ∀ k, i.Spans k → k = n) :
    ∃ w, w.toInt = n ∧ i = constant w := by
  cases i with
  | empty => exact hn.elim
  | range low high le =>
    have hlow := hall _ (spans_low low high le)
    obtain rfl := Int64.toInt_inj.mp (hlow.trans (hall _ (spans_high low high le)).symm)
    exact ⟨low, hlow, by rw [constant, between, dif_pos le]⟩

lemma eq_nearest_of_spans_neg (hi : ∀ n, i.Spans n → n = a) (h : i.neg.Spans n) :
    n = nearest (-a) := by
  cases i with
  | empty => exact h.elim
  | range low high le =>
    rw [neg, spans_between, toInt_neg, toInt_neg, hi _ (spans_low low high le),
      hi _ (spans_high low high le)] at h
    exact le_antisymm h.2 h.1

end Interval

namespace Forward

lemma tight_intArith {op : BinOp} {f : Interval → Interval → Interval} (h : intArith? op = some f) :
    ∃ g, Interval.Tight g f ∧ ∀ a b, op.compute? (.int a) (.int b) = some (.int (g a b)) := by
  cases op <;> simp only [intArith?, Option.some.injEq, reduceCtorEq] at h <;> subst h
  · exact ⟨_, Interval.tight_add, fun _ _ => rfl⟩
  · exact ⟨_, Interval.tight_sub, fun _ _ => rfl⟩
  · exact ⟨_, Interval.tight_mul, fun _ _ => rfl⟩

lemma compute_intCompare {op : BinOp} {f : Interval → Interval → BoolSet}
    (h : intCompare? op = some f) (a b : Int) :
    ∃ c, op.compute? (.int a) (.int b) = some (.bool c) := by
  cases op <;> simp only [intCompare?, reduceCtorEq] at h <;> exact ⟨_, rfl⟩

lemma compute_setCompare {op : BinOp} {f : ElemSet → ElemSet → BoolSet}
    (h : setCompare? op = some f) (a b : Nat) :
    ∃ c, op.compute? (.elem a) (.elem b) = some (.bool c) := by
  cases op <;> simp only [setCompare?, reduceCtorEq] at h <;> exact ⟨_, rfl⟩

section

variable {op : Op} {sig : Signature} {args : List Value} {data : List Datum} {v : Value}

lemma Defines.exists_compute (h : Defines op sig args v)
    (hdata : List.Forall₂ Domain.Sorts sig.operands data) :
    ∃ d, op.compute? data = some d ∧ sig.result.Sorts d := by
  cases h with
  | not s =>
    obtain ⟨d, rfl, hd⟩ := operands_unary hdata
    obtain ⟨b, rfl⟩ := Domain.sorts_bool.mp hd
    exact ⟨_, rfl, trivial⟩
  | neg r range i =>
    obtain ⟨d, rfl, hd⟩ := operands_unary hdata
    obtain ⟨n, rfl⟩ := Domain.sorts_int.mp hd
    exact ⟨_, rfl, trivial⟩
  | boolOp hf s t =>
    obtain ⟨d, d', rfl, hd, hd'⟩ := operands_binary hdata
    obtain ⟨a, rfl⟩ := Domain.sorts_bool.mp hd
    obtain ⟨b, rfl⟩ := Domain.sorts_bool.mp hd'
    exact ⟨_, apply_boolOp hf a b, trivial⟩
  | intArith hf r₁ r₂ range i j =>
    obtain ⟨d, d', rfl, hd, hd'⟩ := operands_binary hdata
    obtain ⟨a, rfl⟩ := Domain.sorts_int.mp hd
    obtain ⟨b, rfl⟩ := Domain.sorts_int.mp hd'
    obtain ⟨g, _, hg⟩ := tight_intArith hf
    exact ⟨_, hg a b, trivial⟩
  | intCompare hf r₁ r₂ i j =>
    obtain ⟨d, d', rfl, hd, hd'⟩ := operands_binary hdata
    obtain ⟨a, rfl⟩ := Domain.sorts_int.mp hd
    obtain ⟨b, rfl⟩ := Domain.sorts_int.mp hd'
    obtain ⟨c, hc⟩ := compute_intCompare hf a b
    exact ⟨_, hc, trivial⟩
  | setCompare hf e₁ e₂ s t =>
    obtain ⟨d, d', rfl, hd, hd'⟩ := operands_binary hdata
    obtain ⟨a, rfl⟩ := Domain.sorts_finite.mp hd
    obtain ⟨b, rfl⟩ := Domain.sorts_finite.mp hd'
    obtain ⟨c, hc⟩ := compute_setCompare hf a b
    exact ⟨_, hc, trivial⟩

lemma data_of_only (hargs : List.Forall₂ Value.Only args data) {data' : List Datum}
    (h : List.Forall₂ (· ∈ ·) data' args) : data' = data := by
  induction hargs generalizing data' with
  | nil => exact List.forall₂_nil_right_iff.mp h
  | cons hv _ ih =>
    obtain ⟨d, rest, hd, hrest, rfl⟩ := List.forall₂_cons_right_iff.mp h
    rw [(hv d).mp hd, ih hrest]

lemma eq_of_spans_clamp {r : Range} {i : Interval} {m n : Int} (h : ∀ k, i.Spans k → k = nearest m)
    (hm : (Domain.int r).Has (.int m)) (hn : (r.clamp i).Spans n) : n = m := by
  rw [h n ((Interval.spans_meet _ _ _).mp hn).1]
  exact Interval.nearest_of_spans ((r.spans_top m).mpr hm)

lemma Defines.eq_of_mem (h : Defines op sig args v) (hargs : List.Forall₂ Value.Only args data)
    {d d' : Datum} (hd : op.compute? data = some d) (hhas : sig.result.Has d) (hmem : d' ∈ v) :
    d' = d := by
  have hbool : ∀ {doms}, sig = ⟨doms, .bool⟩ → d' = d := by
    rintro doms rfl
    obtain ⟨s, rfl, hexact⟩ := h.exact
    obtain ⟨b, rfl, hb⟩ := Value.mem_bools.mp hmem
    obtain ⟨data', hdata', hcompute⟩ := (hexact b).mp hb
    rw [data_of_only hargs hdata'] at hcompute
    exact Option.some.inj (hcompute.symm.trans hd)
  cases h with
  | not s => exact hbool rfl
  | boolOp hf s t => exact hbool rfl
  | intCompare hf r₁ r₂ i j => exact hbool rfl
  | setCompare hf e₁ e₂ s t => exact hbool rfl
  | neg r range i =>
    obtain ⟨x, rfl, hx⟩ := operands_unary hargs
    obtain ⟨a, rfl, _, ha⟩ := hx.ints
    obtain ⟨n, rfl, hn⟩ := Value.mem_ints.mp hmem
    cases hd
    rw [eq_of_spans_clamp (fun k => Interval.eq_nearest_of_spans_neg ha) hhas hn]
  | intArith hf r₁ r₂ range i j =>
    obtain ⟨x, y, rfl, hx, hy⟩ := operands_binary hargs
    obtain ⟨a, rfl, _, ha⟩ := hx.ints
    obtain ⟨b, rfl, _, hb⟩ := hy.ints
    obtain ⟨n, rfl, hn⟩ := Value.mem_ints.mp hmem
    obtain ⟨g, htight, hg⟩ := tight_intArith hf
    cases (hg a b).symm.trans hd
    rw [eq_of_spans_clamp (fun k => htight.eq_nearest ha hb) hhas hn]

lemma definition_only {definition : Definition} (h : definition? op sig = some definition)
    (haccepts : List.Forall₂ (fun dom v => dom.accepts v = true) sig.operands args)
    (hargs : List.Forall₂ Value.Only args data) {d : Datum} (hd : op.compute? data = some d)
    (hhas : sig.result.Has d) :
    ∃ v, definition args = .ok v ∧ sig.result.accepts v = true ∧ v.Only d := by
  obtain ⟨v, hv, haccepts', hsound⟩ := sound_definition h args haccepts
  obtain ⟨v', hv', hdefines⟩ := exists_defines h haccepts
  cases hv'.symm.trans hv
  have hdata : List.Forall₂ (· ∈ ·) data args :=
    List.Forall₂.flip (hargs.imp fun v d hv => (hv d).mpr rfl)
  refine ⟨v, hv, haccepts', fun d' => ⟨hdefines.eq_of_mem hargs hd hhas, ?_⟩⟩
  rintro rfl
  exact hsound data _ hdata hd hhas

lemma exists_compute {definition : Definition} (h : definition? op sig = some definition)
    (hdata : List.Forall₂ Domain.Sorts sig.operands data) :
    ∃ d, op.compute? data = some d ∧ sig.result.Sorts d := by
  have htops : List.Forall₂ (fun dom v => dom.accepts v = true) sig.operands
      (sig.operands.map Domain.top) :=
    List.forall₂_map_right_iff.mpr (List.forall₂_same.mpr fun dom _ => dom.accepts_top)
  obtain ⟨v, _, hdefines⟩ := exists_defines h htops
  exact hdefines.exists_compute hdata

end

end Forward

namespace Constant

def datum? : Constant → Option Datum
  | int n => some (.int n)
  | bool b => some (.bool b)
  | symbol _ => none

def singleton? : Constant → Option Value
  | int n => (ofInt? n).map fun w => .ints (.constant w)
  | bool b => some (.bools (.singleton b))
  | symbol _ => none

lemma datum?_eq_some {c : Constant} {d : Datum} (h : c.datum? = some d) :
    (∃ n, c = int n ∧ d = .int n) ∨ ∃ b, c = bool b ∧ d = .bool b := by
  cases c with
  | int n => exact .inl ⟨n, rfl, (Option.some.inj h).symm⟩
  | bool b => exact .inr ⟨b, rfl, (Option.some.inj h).symm⟩
  | symbol s => cases h

lemma applyUnary?_eq_some {op : UnOp} {c : Constant} {a d : Datum} (hc : c.datum? = some a)
    (hd : op.compute? a = some d) : ∃ c', applyUnary? op c = some c' ∧ c'.datum? = some d := by
  rcases datum?_eq_some hc with ⟨n, rfl, rfl⟩ | ⟨b, rfl, rfl⟩ <;> cases op <;> cases hd <;>
    exact ⟨_, rfl, rfl⟩

lemma applyBinary?_eq_some {op : BinOp} {c c' : Constant} {a b d : Datum} (hc : c.datum? = some a)
    (hc' : c'.datum? = some b) (hd : op.compute? a b = some d) :
    ∃ c'', applyBinary? op c c' = some c'' ∧ c''.datum? = some d := by
  have heq : (c == c') = decide (a = b) := by
    rcases datum?_eq_some hc with ⟨n, rfl, rfl⟩ | ⟨x, rfl, rfl⟩ <;>
      rcases datum?_eq_some hc' with ⟨k, rfl, rfl⟩ | ⟨y, rfl, rfl⟩ <;>
      rw [Bool.eq_iff_iff] <;> simp
  cases op
  case eq => exact ⟨_, rfl, by rw [heq]; exact hd⟩
  case ne => exact ⟨_, rfl, by rw [bne, heq, ← decide_not]; exact hd⟩
  all_goals
    rcases datum?_eq_some hc with ⟨n, rfl, rfl⟩ | ⟨x, rfl, rfl⟩ <;>
      rcases datum?_eq_some hc' with ⟨k, rfl, rfl⟩ | ⟨y, rfl, rfl⟩ <;> cases hd
  all_goals exact ⟨_, rfl, rfl⟩

lemma singleton?_of_only {c : Constant} {d : Datum} (hc : c.datum? = some d) {v : Value}
    (h : v.Only d) : c.singleton? = some v := by
  rcases datum?_eq_some hc with ⟨n, rfl, rfl⟩ | ⟨b, rfl, rfl⟩
  · cases v with
    | ints i =>
      obtain ⟨_, ⟨⟩, hn, hall⟩ := h.ints
      obtain ⟨w, hw, rfl⟩ := Interval.eq_constant hn hall
      rw [singleton?, (ofInt?_eq_some_iff n w).mpr hw, Option.map_some]
    | bools s => exact ((h (.int n)).mpr rfl).elim
    | elems s => exact ((h (.int n)).mpr rfl).elim
  · cases v with
    | bools s =>
      have hs : s = .singleton b := BoolSet.ext_mem fun c => by
        rw [BoolSet.mem_singleton, ← Value.bool_mem_bools, h (.bool c), Datum.bool.injEq]
      rw [hs]
      rfl
    | ints i => exact ((h (.bool b)).mpr rfl).elim
    | elems s => exact ((h (.bool b)).mpr rfl).elim

end Constant

lemma parse_of_boolLiteral {text : String} {value : Value}
    (h : Interpretation.boolLiteral? text = some value) :
    ∃ b, Constant.parse text = .bool b ∧ value.Only (.bool b) := by
  have honly : ∀ b, (Value.bools (.singleton b)).Only (.bool b) := fun b d => by
    rw [Value.mem_bools]
    simp
  rw [Interpretation.boolLiteral?] at h
  split at h
  · cases h
    exact ⟨true, if_pos ‹_›, honly true⟩
  · split at h
    · cases h
      exact ⟨false, by rw [Constant.parse, if_neg ‹_›, if_pos ‹_›], honly false⟩
    · cases h

lemma Constant.parse_eq_int_iff {text : String} {n : Int} :
    parse text = int n ↔ Text.Numeral.parse? text = some n := by
  by_cases htrue : text = "true"
  · subst htrue
    constructor <;> intro h <;> cases h
  by_cases hfalse : text = "false"
  · subst hfalse
    constructor <;> intro h <;> cases h
  rw [parse, if_neg htrue, if_neg hfalse]
  cases Text.Numeral.parse? text <;> simp

lemma Interpretation.intLiteral?_eq_some_iff {range : Range} {text : String} {value : Value} :
    intLiteral? range text = some value ↔
      ∃ w : Int64, Constant.parse text = .int w.toInt ∧ range.min ≤ w ∧ w ≤ range.max ∧
        value = .ints (.constant w) := by
  simp only [Constant.parse_eq_int_iff]
  constructor
  · intro h
    obtain ⟨n, hn, h⟩ := Option.bind_eq_some_iff.mp h
    obtain ⟨w, hw, h⟩ := Option.bind_eq_some_iff.mp h
    rw [ofInt?_eq_some_iff] at hw
    split at h
    · rename_i hrange
      exact ⟨w, by rw [hw, hn], hrange.1, hrange.2, (Option.some.inj h).symm⟩
    · cases h
  · rintro ⟨w, hn, hmin, hmax, rfl⟩
    simp [intLiteral?, hn, (ofInt?_eq_some_iff w.toInt w).mpr rfl, hmin, hmax]

lemma only_constant (w : Int64) : (Value.ints (.constant w)).Only (.int w.toInt) := by
  intro d
  rw [Value.mem_ints]
  constructor
  · rintro ⟨k, rfl, hk⟩
    rw [Interval.constant, Interval.spans_between] at hk
    rw [le_antisymm hk.2 hk.1]
  · rintro rfl
    exact ⟨_, rfl, (Interval.spans_between _ _ _).mpr ⟨le_rfl, le_rfl⟩⟩

lemma parse_of_intLiteral {range : Range} {text : String} {value : Value}
    (h : Interpretation.intLiteral? range text = some value) :
    ∃ n, Constant.parse text = .int n ∧ value.Only (.int n) := by
  obtain ⟨w, hparse, -, -, rfl⟩ := Interpretation.intLiteral?_eq_some_iff.mp h
  exact ⟨w.toInt, hparse, only_constant w⟩

namespace Model

variable {m : Model} {e x : Expr}

structure Closed (m : Model) (e : Expr) : Prop where
  evaluates : m.Evaluates e
  idents : ∀ x ∈ e.nodes, x.ident? = none
  spells : ∀ {info text}, .lit info text ∈ e.nodes → ∃ t value d,
    m.entry? (.lit info text) = some (.lit t value) ∧ t.domain.accepts value = true ∧
      (Constant.parse text).datum? = some d ∧ t.domain.Sorts d ∧ value.Only d

lemma Closed.operand (h : m.Closed e) (hx : x ∈ e.operands) : m.Closed x where
  evaluates := h.evaluates.operand hx
  idents y hy := h.idents y (Expr.mem_nodes_of_operand hx hy)
  spells hy := h.spells (Expr.mem_nodes_of_operand hx hy)

def InRange (m : Model) (e : Expr) : Prop :=
  ∀ x ∈ e.nodes, ∀ r n, m.exprDomain? x = some (.int r) → x.folded = .ok (.int n) →
    r.min.toInt ≤ n ∧ n ≤ r.max.toInt

lemma InRange.operand (h : m.InRange e) (hx : x ∈ e.operands) : m.InRange x :=
  fun y hy => h y (Expr.mem_nodes_of_operand hx hy)

lemma InRange.has (h : m.InRange e) {c : Constant} {d : Datum} {dom : Domain}
    (hc : e.folded = .ok c) (hd : c.datum? = some d) (hdom : m.exprDomain? e = some dom)
    (hsorts : dom.Sorts d) : dom.Has d := by
  cases dom with
  | bool =>
    obtain ⟨b, rfl⟩ := Domain.sorts_bool.mp hsorts
    exact trivial
  | int r =>
    rcases Constant.datum?_eq_some hd with ⟨n, rfl, rfl⟩ | ⟨b, rfl, rfl⟩
    · exact h e e.mem_nodes_self r n hdom hc
    · exact hsorts.elim
  | finite enum => rcases Constant.datum?_eq_some hd with ⟨n, rfl, rfl⟩ | ⟨b, rfl, rfl⟩ <;>
      exact hsorts.elim

def Settles (m : Model) (e : Expr) (d : Datum) : Prop :=
  ∃ c dom, e.folded = .ok c ∧ c.datum? = some d ∧ m.exprDomain? e = some dom ∧ dom.Sorts d ∧
    (m.InRange e → ∀ env, ∃ v, m.eval env e = .ok v ∧ dom.accepts v = true ∧ v.Only d)

theorem Closed.settles (h : m.Closed e) : ∃ d, m.Settles e d := by
  induction e with
  | ident info v => cases h.idents _ (Expr.mem_nodes_self _)
  | lit info text =>
    obtain ⟨t, value, d, ht, hacc, hd, hsorts, honly⟩ := h.spells (Expr.mem_nodes_self _)
    refine ⟨d, _, _, rfl, hd, exprDomain_of_entry ht, hsorts, fun _ env => ?_⟩
    exact ⟨value, by simp [eval, ht], hacc, honly⟩
  | unary info op x ih =>
    have hx : x ∈ (Expr.unary info op x).operands := List.mem_singleton_self x
    obtain ⟨a, c, dom, hc, ha, hdom, hsorts, heval⟩ := ih (h.operand hx)
    obtain ⟨t, definition, inverse, doms, ht, hdoms, hdef, _⟩ := h.evaluates.node rfl
    obtain ⟨_, rfl, hdom'⟩ := Forward.operands_unary hdoms
    cases hdom.symm.trans hdom'
    obtain ⟨d, hd, hsorts'⟩ := Forward.exists_compute hdef (.cons hsorts .nil)
    obtain ⟨c', hc', hd'⟩ := Constant.applyUnary?_eq_some ha hd
    have hfolded : (Expr.unary info op x).folded = .ok c' := by
      rw [Expr.folded, hc]
      simp only [ok_bind, Folded.ofUnary, hc']
    refine ⟨d, c', _, hfolded, hd', exprDomain_of_entry ht, hsorts', fun hrange env => ?_⟩
    obtain ⟨v, hv, hacc, honly⟩ := heval (hrange.operand hx) env
    obtain ⟨v', hv', hacc', honly'⟩ := Forward.definition_only hdef (.cons hacc .nil)
      (.cons honly .nil) hd (hrange.has hfolded hd' (exprDomain_of_entry ht) hsorts')
    exact ⟨v', by simpa [eval, ht, hv] using hv', hacc', honly'⟩
  | binary info op l r ihl ihr =>
    have hl : l ∈ (Expr.binary info op l r).operands := List.mem_cons_self
    have hr : r ∈ (Expr.binary info op l r).operands := List.mem_cons_of_mem _ List.mem_cons_self
    obtain ⟨a, cl, doml, hcl, ha, hdoml, hsortsl, hevall⟩ := ihl (h.operand hl)
    obtain ⟨b, cr, domr, hcr, hb, hdomr, hsortsr, hevalr⟩ := ihr (h.operand hr)
    obtain ⟨t, definition, inverse, doms, ht, hdoms, hdef, _⟩ := h.evaluates.node rfl
    obtain ⟨_, _, rfl, hdoml', hdomr'⟩ := Forward.operands_binary hdoms
    cases hdoml.symm.trans hdoml'
    cases hdomr.symm.trans hdomr'
    obtain ⟨d, hd, hsorts⟩ := Forward.exists_compute hdef (.cons hsortsl (.cons hsortsr .nil))
    obtain ⟨c, hc, hd'⟩ := Constant.applyBinary?_eq_some ha hb hd
    have hfolded : (Expr.binary info op l r).folded = .ok c := by
      rw [Expr.folded, hcl, hcr]
      simp only [ok_bind, Folded.ofBinary, hc]
    refine ⟨d, c, _, hfolded, hd', exprDomain_of_entry ht, hsorts, fun hrange env => ?_⟩
    obtain ⟨v, hv, hacc, honly⟩ := hevall (hrange.operand hl) env
    obtain ⟨w, hw, hacc', honly'⟩ := hevalr (hrange.operand hr) env
    obtain ⟨u, hu, haccu, honlyu⟩ := Forward.definition_only hdef (.cons hacc (.cons hacc' .nil))
      (.cons honly (.cons honly' .nil)) hd (hrange.has hfolded hd' (exprDomain_of_entry ht) hsorts)
    exact ⟨u, by simpa [eval, ht, hv, hw] using hu, haccu, honlyu⟩

open ModelBuilder

section Strict

variable {b : ModelBuilder} {programs : List Program} {known : Interpreted}

lemma literal_of_strict (hb : b.lenient = false) {info : ExprInfo} {text : String}
    {meaning : Meaning} {entry : Entry}
    (h : b.entry known (.lit info text) meaning = .ok (some entry)) :
    ∃ value, entry = .lit meaning.typed value ∧
      meaning.interpretation.literal? text = some value := by
  rw [ModelBuilder.entry, literalEntry] at h
  split at h
  · rename_i value hvalue
    cases h
    exact ⟨value, rfl, (Option.filter_eq_some_iff.mp hvalue).1⟩
  · rw [hb] at h
    cases h

lemma closed_of_strict (hb : b.interpreter = .standard) (hlenient : b.lenient = false)
    (hknown : b.Knows programs known) (hentries : b.entries known = .ok m.entries)
    (hids : Expr.Unambiguous (e.nodes ++ programs.flatMap Program.exprs))
    (hevaluates : m.Evaluates e)
    (hnodes : ∀ x ∈ e.nodes, x.ident? = none ∧
      (m.exprDomain? x = some .bool ∨ ∃ r, m.exprDomain? x = some (.int r))) : m.Closed e where
  evaluates := hevaluates
  idents x hx := (hnodes x hx).1
  spells := by
    intro info text hx
    obtain ⟨t, value, ht, hacc⟩ := hevaluates _ hx rfl
    obtain ⟨meaning, _, hmade, hmeaning⟩ := exists_meaning hknown hentries hx hids ht
    obtain ⟨_, hentry, hvalue⟩ := literal_of_strict hlenient hmade
    cases hentry
    refine ⟨meaning.typed, value, ?_⟩
    have hdom := (hnodes _ hx).2
    rw [exprDomain_of_entry ht, Entry.domain, Entry.typed, Meaning.typed] at hdom
    rcases interpretation_standard hb hmeaning with h | ⟨range, h⟩ | ⟨enum, h⟩
    · rw [h] at hvalue
      obtain ⟨b, hparse, honly⟩ := parse_of_boolLiteral hvalue
      refine ⟨.bool b, ht, hacc, by rw [hparse]; rfl, ?_, honly⟩
      rw [Meaning.typed, h]
      exact trivial
    · rw [h] at hvalue
      obtain ⟨n, hparse, honly⟩ := parse_of_intLiteral hvalue
      refine ⟨.int n, ht, hacc, by rw [hparse]; rfl, ?_, honly⟩
      rw [Meaning.typed, h]
      exact trivial
    · rw [h] at hdom
      rcases hdom with hdom | ⟨r, hdom⟩ <;> cases hdom

end Strict

theorem constants_agree {b : ModelBuilder} {cache : ModelCache} {programs : List Program}
    (hb : b.interpreter = .standard) (hlenient : b.lenient = false)
    (hcache : Reached b.typer b.interpreter cache) (hrun : (b.run cache programs).1 = .ok m)
    (hids : Expr.Unambiguous (e.nodes ++ programs.flatMap Program.exprs))
    (hnodes : ∀ x ∈ e.nodes, x.ident? = none ∧
      (m.exprDomain? x = some .bool ∨ ∃ r, m.exprDomain? x = some (.int r))) :
    ∃ c, (e.fold.run .empty).1 = .ok c ∧
      ((∀ x ∈ e.nodes, ∀ r n, m.exprDomain? x = some (.int r) →
          (x.fold.run .empty).1 = .ok (.int n) → r.min.toInt ≤ n ∧ n ≤ r.max.toInt) →
        ∃ v, c.singleton? = some v ∧ ∀ env, m.eval env e = .ok v) := by
  obtain ⟨known, hknown, hentries, _⟩ := known_of_run hcache hrun
  have hnames : Expr.Unambiguous e.nodes := fun x hx y hy =>
    hids x (List.mem_append_left _ hx) y (List.mem_append_left _ hy)
  have hfold : ∀ x ∈ e.nodes, (x.fold.run .empty).1 = x.folded := fun x hx =>
    (Expr.gives_fold hnames (Expr.nodes_subset hx)).answer
  have hevaluates : m.Evaluates e := by
    refine Standard.evaluates ⟨b, cache, hb, hcache, hrun⟩ hids fun x hx => ?_
    rw [← Option.isSome_map (f := Entry.domain)]
    rcases (hnodes x hx).2 with h | ⟨r, h⟩ <;> rw [exprDomain?] at h <;> rw [h] <;> rfl
  have hclosed := closed_of_strict hb hlenient hknown hentries hids hevaluates hnodes
  obtain ⟨d, c, dom, hc, hd, _, _, heval⟩ := hclosed.settles
  refine ⟨c, (hfold e e.mem_nodes_self).trans hc, fun hrange => ?_⟩
  have hinrange : m.InRange e := fun x hx r n hdom hn =>
    hrange x hx r n hdom ((hfold x hx).trans hn)
  obtain ⟨v, _, _, honly⟩ := heval hinrange .empty
  have hv := Constant.singleton?_of_only hd honly
  refine ⟨v, hv, fun env => ?_⟩
  obtain ⟨v', hv', _, honly'⟩ := heval hinrange env
  cases hv.symm.trans (Constant.singleton?_of_only hd honly')
  exact hv'

namespace Quota

def range : Range := ⟨-20, 20, by decide⟩

def product : Expr :=
  .binary ⟨⟨2⟩, some "quota"⟩ .mul (.lit ⟨⟨0⟩, some "quota"⟩ "3") (.lit ⟨⟨1⟩, some "quota"⟩ "+0_5")

def sum : Expr :=
  .binary ⟨⟨5⟩, some "quota"⟩ .add (.unary ⟨⟨3⟩, some "quota"⟩ .neg product)
    (.lit ⟨⟨4⟩, some "quota"⟩ "2")

def comparison : Expr :=
  .binary ⟨⟨9⟩, some "flag"⟩ .eq
    (.binary ⟨⟨7⟩, some "flag"⟩ .le sum (.lit ⟨⟨6⟩, some "quota"⟩ "7"))
    (.lit ⟨⟨8⟩, some "flag"⟩ "true")

def program : Program := ⟨"quota", #[], .atom (.assume comparison none) .done⟩

def builder : ModelBuilder :=
  ⟨fun hint => if hint = "flag" then some .bool else some (.int (-20) 20), .standard, false⟩

def model : Model := (builder.run .empty [program]).1.toOption.getD .empty

end Quota

theorem constants_agree_quota :
    Expr.Unambiguous (Quota.comparison.nodes ++ [Quota.program].flatMap Program.exprs) ∧
      (∀ x ∈ Quota.comparison.nodes, x.ident? = none ∧ (Quota.model.exprDomain? x = some .bool ∨
        Quota.model.exprDomain? x = some (.int Quota.range))) ∧
      (∀ x ∈ Quota.comparison.nodes, ∀ n ∈ (x.fold.run .empty).1.toOption.bind Constant.int?,
        -20 ≤ n ∧ n ≤ 20) ∧
      (Quota.comparison.fold.run .empty).1 = .ok (.bool true) ∧
      ∀ env, Quota.model.eval env Quota.comparison = .ok (.bools (.singleton true)) := by
  have hids : Expr.Unambiguous
      (Quota.comparison.nodes ++ [Quota.program].flatMap Program.exprs) := by
    decide
  have hnodes : ∀ x ∈ Quota.comparison.nodes, x.ident? = none ∧
      (Quota.model.exprDomain? x = some .bool ∨
        Quota.model.exprDomain? x = some (.int Quota.range)) := by
    decide +kernel
  have hrange : ∀ x ∈ Quota.comparison.nodes,
      ∀ n ∈ (x.fold.run .empty).1.toOption.bind Constant.int?, -20 ≤ n ∧ n ≤ 20 := by
    decide
  have hfold : (Quota.comparison.fold.run .empty).1 = .ok (.bool true) := by decide
  obtain ⟨c, hc, hagree⟩ := constants_agree (b := Quota.builder) rfl rfl .empty
    (run_of_isSome (by decide +kernel)) hids fun x hx => by
      obtain ⟨hident, hdom | hdom⟩ := hnodes x hx
      · exact ⟨hident, .inl hdom⟩
      · exact ⟨hident, .inr ⟨_, hdom⟩⟩
  cases hfold.symm.trans hc
  obtain ⟨v, hv, heval⟩ := hagree fun x hx r n hdom hn => by
    obtain ⟨_, hdom' | hdom'⟩ := hnodes x hx
    · cases hdom'.symm.trans hdom
    · cases hdom'.symm.trans hdom
      exact hrange x hx n (by rw [hn]; rfl)
  cases hv
  exact ⟨hids, hnodes, hrange, hfold, heval⟩

end Model

end Tracewise
