import Tracewise.Proofs.MonotoneDefinitions

namespace Tracewise

def Op.Decides : Op → List Domain → Prop
  | .unary .not, [.bool] => True
  | .binary op, [.bool, .bool] => op ∈ [BinOp.and, .or, .eq, .ne]
  | .binary op, [.int _, .int _] => op ∈ [BinOp.eq, .ne, .lt, .le, .gt, .ge]
  | .binary op, [.finite _, .finite _] => op ∈ [BinOp.eq, .ne]
  | _, _ => False

namespace Forward

lemma mem_boolOps_iff (op : BinOp) :
    op ∈ [BinOp.and, .or, .eq, .ne] ↔ ∃ f, boolOp? op = some f := by
  cases op <;> simp [boolOp?]

lemma mem_comparisons_iff (op : BinOp) :
    op ∈ [BinOp.eq, .ne, .lt, .le, .gt, .ge] ↔ ∃ f, intCompare? op = some f := by
  cases op <;> simp [intCompare?]

lemma mem_equalities_iff (op : BinOp) :
    op ∈ [BinOp.eq, .ne] ↔ ∃ f, setCompare? op = some f := by
  cases op <;> simp [setCompare?]

lemma exists_definition {op : Op} {doms : List Domain} (h : op.Decides doms) :
    ∃ definition, definition? op ⟨doms, .bool⟩ = some definition := by
  unfold Op.Decides at h
  split at h
  · exact ⟨_, rfl⟩
  · obtain ⟨f, hf⟩ := (mem_boolOps_iff _).mp h
    exact ⟨_, Option.map_eq_some_iff.mpr ⟨f, hf, rfl⟩⟩
  · obtain ⟨f, hf⟩ := (mem_comparisons_iff _).mp h
    exact ⟨_, Option.map_eq_some_iff.mpr ⟨f, hf, rfl⟩⟩
  · obtain ⟨f, hf⟩ := (mem_equalities_iff _).mp h
    exact ⟨_, Option.map_eq_some_iff.mpr ⟨f, hf, rfl⟩⟩
  · exact h.elim

/-- The set holds the results of an operator on the data of its operands, and no others. -/
def Exact (op : Op) (args : List Value) (s : BoolSet) : Prop :=
  ∀ b, b ∈ s ↔ ∃ data, List.Forall₂ (· ∈ ·) data args ∧ op.compute? data = some (.bool b)

lemma exact_not (s : BoolSet) : Exact (.unary .not) [.bools s] (s.map not) := by
  intro b
  rw [BoolSet.mem_map]
  constructor
  · rintro ⟨a, ha, rfl⟩
    exact ⟨[.bool a], .cons ha .nil, rfl⟩
  · rintro ⟨data, hdata, hb⟩
    obtain ⟨a, rfl, ha⟩ := Kind.bools.data_unary hdata
    cases hb
    exact ⟨a, ha, rfl⟩

lemma exact_binary {α δ : Type} (k : Kind α δ) {op : BinOp} {s t : α} {r : BoolSet}
    (hholds : ∀ x y, k.Mem s x → k.Mem t y →
      ∃ b, op.compute? (k.datum x) (k.datum y) = some (.bool b) ∧ b ∈ r)
    (harises : ∀ b, b ∈ r → ∃ x y, k.Mem s x ∧ k.Mem t y ∧
      op.compute? (k.datum x) (k.datum y) = some (.bool b)) :
    Exact (.binary op) [k.value s, k.value t] r := by
  intro b
  constructor
  · intro hb
    obtain ⟨x, y, hx, hy, hxy⟩ := harises b hb
    exact ⟨[k.datum x, k.datum y], .cons (k.datum_mem hx) (.cons (k.datum_mem hy) .nil), hxy⟩
  · rintro ⟨data, hdata, hb⟩
    obtain ⟨x, y, rfl, hx, hy⟩ := k.data_binary hdata
    obtain ⟨c, hc, hmem⟩ := hholds x y hx hy
    cases hc.symm.trans hb
    exact hmem

lemma exact_boolOp {op : BinOp} {f : Bool → Bool → Bool} (h : boolOp? op = some f) (s t : BoolSet) :
    Exact (.binary op) [.bools s, .bools t] (liftBool f s t) := by
  refine exact_binary .bools (fun x y hx hy => ?_) fun b hb => ?_
  · exact ⟨f x y, apply_boolOp h x y, (mem_liftBool f s t _).mpr ⟨x, y, hx, hy, rfl⟩⟩
  · obtain ⟨x, y, hx, hy, rfl⟩ := (mem_liftBool f s t b).mp hb
    exact ⟨x, y, hx, hy, apply_boolOp h x y⟩

lemma exact_intCompare {op : BinOp} {f : Interval → Interval → BoolSet}
    (h : intCompare? op = some f) (i j : Interval) :
    Exact (.binary op) [.ints i, .ints j] (f i j) :=
  exact_binary .ints (fun _ _ hx hy => mem_intCompare h hx hy) fun _ => exists_of_mem_intCompare h

lemma exact_setCompare {op : BinOp} {f : ElemSet → ElemSet → BoolSet} (h : setCompare? op = some f)
    (s t : ElemSet) : Exact (.binary op) [.elems s, .elems t] (f s t) :=
  exact_binary .elems (fun _ _ hx hy => mem_setCompare h hx hy) fun _ => exists_of_mem_setCompare h

section Results

variable {op : Op} {doms : List Domain} {args : List Value} {v : Value}

lemma Defines.decides (h : Defines op ⟨doms, .bool⟩ args v) : op.Decides doms := by
  cases h with
  | not s => exact trivial
  | boolOp hf s t => exact (mem_boolOps_iff _).mpr ⟨_, hf⟩
  | intCompare hf r₁ r₂ i j => exact (mem_comparisons_iff _).mpr ⟨_, hf⟩
  | setCompare hf e₁ e₂ s t => exact (mem_equalities_iff _).mpr ⟨_, hf⟩

lemma Defines.exact (h : Defines op ⟨doms, .bool⟩ args v) :
    ∃ s, v = .bools s ∧ Exact op args s := by
  cases h with
  | not s => exact ⟨_, rfl, exact_not s⟩
  | boolOp hf s t => exact ⟨_, rfl, exact_boolOp hf s t⟩
  | intCompare hf r₁ r₂ i j => exact ⟨_, rfl, exact_intCompare hf i j⟩
  | setCompare hf e₁ e₂ s t => exact ⟨_, rfl, exact_setCompare hf s t⟩

end Results

theorem boolean_definitions_exact (op : Op) (doms : List Domain) :
    (op.Decides doms ↔ ∃ definition, definition? op ⟨doms, .bool⟩ = some definition) ∧
      ∀ definition, definition? op ⟨doms, .bool⟩ = some definition →
        ∀ args, List.Forall₂ (fun dom v => dom.accepts v = true) doms args →
          ∃ s, definition args = .ok (.bools s) ∧
            ∀ b, b ∈ s ↔ ∃ data, List.Forall₂ (· ∈ ·) data args ∧
              op.compute? data = some (.bool b) := by
  refine ⟨⟨exists_definition, ?_⟩, ?_⟩
  · rintro ⟨definition, h⟩
    have htops : List.Forall₂ (fun dom v => dom.accepts v = true) doms (doms.map Domain.top) :=
      List.forall₂_map_right_iff.mpr (List.forall₂_same.mpr fun dom _ => dom.accepts_top)
    obtain ⟨v, _, hdefines⟩ := exists_defines h htops
    exact hdefines.decides
  · intro definition h args hargs
    obtain ⟨v, hv, hdefines⟩ := exists_defines h hargs
    obtain ⟨s, rfl, hexact⟩ := hdefines.exact
    exact ⟨s, hv, hexact⟩

theorem equality_with_limit_exact :
    ∃ definition s, definition? (.binary .eq) ⟨[.int .words, .int .words], .bool⟩ =
        some definition ∧
      definition [.ints Range.words.top, .ints (.constant Int64.maxValue)] = .ok (.bools s) ∧
      ∀ b, b ∈ s ↔ ∃ data, List.Forall₂ (· ∈ ·) data
        [Value.ints Range.words.top, .ints (.constant Int64.maxValue)] ∧
          (Op.binary .eq).compute? data = some (.bool b) := by
  have hops := boolean_definitions_exact (.binary .eq) [.int .words, .int .words]
  obtain ⟨definition, hdef⟩ := hops.1.mp List.mem_cons_self
  obtain ⟨s, hs, hexact⟩ := hops.2 definition hdef
    [.ints Range.words.top, .ints (.constant Int64.maxValue)] (.cons rfl (.cons rfl .nil))
  exact ⟨definition, s, hdef, hs, hexact⟩

end Forward

end Tracewise
