import Tracewise.Proofs.Exactness
import Tracewise.Proofs.Hulls
import Tracewise.Proofs.Layout
import Tracewise.Proofs.Monotonicity
import Tracewise.Proofs.Regularity
import Tracewise.Proofs.Soundness

/-! Evaluation and refinement agree on what is infeasible: where refinement of a boolean expression
leaves an environment, evaluation has one of the expected values. -/

namespace Tracewise

open Fallible

namespace Backward

def Attains (op : Op) (args : List Value) (e : BoolSet) : Prop :=
  ∃ b ∈ e, ∃ data, List.Forall₂ (· ∈ ·) data args ∧ op.compute? data = some (.bool b)

lemma attains_binary {α δ : Type} (k : Kind α δ) {op : BinOp} {s t : α} {e : BoolSet} {x y : δ}
    {b : Bool} (hb : b ∈ e) (hx : k.Mem s x) (hy : k.Mem t y)
    (hxy : op.compute? (k.datum x) (k.datum y) = some (.bool b)) :
    Attains (.binary op) [k.value s, k.value t] e :=
  ⟨b, hb, [k.datum x, k.datum y], .cons (k.datum_mem hx) (.cons (k.datum_mem hy) .nil), hxy⟩

lemma exists_outcome {α : Type} {join : α → α → α} {whenTrue whenFalse : α → α → Option (α × α)}
    {e : BoolSet} {l r : α} {p : α × α}
    (h : invertRelation join whenTrue whenFalse e l r = some p) :
    ∃ outcome ∈ e, ∃ q, (if outcome then whenTrue l r else whenFalse l r) = some q := by
  simp only [invertRelation] at h
  cases ht : (if e.contains true then whenTrue l r else none) with
  | some q =>
    obtain ⟨hmem, hq⟩ := Option.ite_none_right_eq_some.mp ht
    exact ⟨true, hmem, q, hq⟩
  | none =>
    rw [ht] at h
    obtain ⟨hmem, hq⟩ := Option.ite_none_right_eq_some.mp h
    exact ⟨false, hmem, p, hq⟩

section Literals

variable {s t : ElemSet} {p : ElemSet × ElemSet}

lemma exists_of_narrowEqElems (h : narrowEqElems s t = some p) : ∃ i : Nat, i ∈ s ∧ i ∈ t := by
  obtain ⟨_, ⟨i, hi⟩, _⟩ := nonemptySets_eq_some h
  exact ⟨i, (ElemSet.mem_inter s t i).mp hi⟩

lemma exists_of_narrowNeElems (h : narrowNeElems s t = some p) :
    ∃ i j : Nat, i ∈ s ∧ j ∈ t ∧ i ≠ j := by
  obtain ⟨_, ⟨i, hi⟩, j, hj⟩ := nonemptySets_eq_some h
  have his := otherElems_le s t i hi
  have hjt := otherElems_le t s j hj
  by_cases hsize : t.size = 1
  · rw [hsize] at hi
    have hit := ((ElemSet.mem_diff s t i).mp hi).2
    exact ⟨i, j, his, hjt, fun hij => hit (hij ▸ hjt)⟩
  · by_contra hall
    push Not at hall
    exact hsize (ElemSet.size_eq_one hjt fun k hk =>
      (hall i k his hk).symm.trans (hall i j his hjt))

lemma exists_of_setCompareCases {op : BinOp}
    {cases : (ElemSet → ElemSet → Option (ElemSet × ElemSet)) ×
      (ElemSet → ElemSet → Option (ElemSet × ElemSet))} (h : setCompareCases? op = some cases)
    {outcome : Bool} (hp : (if outcome then cases.1 s t else cases.2 s t) = some p) :
    ∃ i j : Nat, i ∈ s ∧ j ∈ t ∧ op.compute? (.elem i) (.elem j) = some (.bool outcome) := by
  cases op <;> simp only [setCompareCases?, Option.some.injEq, reduceCtorEq] at h <;> subst h <;>
    cases outcome
  case eq.false =>
    obtain ⟨i, j, hi, hj, hij⟩ := exists_of_narrowNeElems hp
    exact ⟨i, j, hi, hj, by simp [BinOp.compute?, hij]⟩
  case eq.true =>
    obtain ⟨i, hi, hj⟩ := exists_of_narrowEqElems hp
    exact ⟨i, i, hi, hj, by simp [BinOp.compute?]⟩
  case ne.false =>
    obtain ⟨i, hi, hj⟩ := exists_of_narrowEqElems hp
    exact ⟨i, i, hi, hj, by simp [BinOp.compute?]⟩
  case ne.true =>
    obtain ⟨i, j, hi, hj, hij⟩ := exists_of_narrowNeElems hp
    exact ⟨i, j, hi, hj, by simp [BinOp.compute?, hij]⟩

end Literals

lemma exists_of_compareCases {op : BinOp}
    {cases : (Interval → Interval → Option (Interval × Interval)) ×
      (Interval → Interval → Option (Interval × Interval))} (h : compareCases? op = some cases)
    {i j : Interval} (hi : i ≠ .empty) (hj : j ≠ .empty) (hlimit : i.BelowLimit)
    {outcome : Bool} {p : Interval × Interval}
    (hp : (if outcome then cases.1 i j else cases.2 i j) = some p) :
    ∃ a b, i.Spans a ∧ j.Spans b ∧ op.compute? (.int a) (.int b) = some (.bool outcome) := by
  have hbest := best_compareCases h outcome hi hj fun _ hmax => hlimit (by rw [hmax.1]; decide)
  by_contra hnone
  push Not at hnone
  rw [hbest.1.mpr hnone] at hp
  cases hp

lemma Inverts.attains {op : Op} {doms : List Domain} {e : BoolSet} {args : List Value}
    {result : Option (List Value)} (h : Inverts op ⟨doms, .bool⟩ (.bools e) args result)
    (hsome : ∀ a ∈ args, a.isEmpty = false)
    (hlimit : ∀ a ∈ args, Datum.int Int64.maxValue.toInt ∉ a) {narrowed : List Value}
    (hn : result = some narrowed) : Attains op args e := by
  cases h with
  | not e s =>
    obtain ⟨hempty, _⟩ := Option.ite_none_left_eq_some.mp hn
    obtain ⟨b, hb⟩ := BoolSet.exists_mem (Bool.eq_false_of_not_eq_true hempty)
    obtain ⟨hs, hb⟩ := (BoolSet.mem_inter _ _ b).mp hb
    obtain ⟨c, hc, rfl⟩ := (BoolSet.mem_map _ _ b).mp hb
    exact ⟨c, hc, [.bool !c], .cons hs .nil, by simp [Op.compute?, UnOp.compute?]⟩
  | boolOp hf e s t =>
    obtain ⟨p, hp, _⟩ := Option.map_eq_some_iff.mp hn
    obtain ⟨⟨a, ha⟩, hleft, _⟩ := invertBool_eq_some hp
    obtain ⟨has, b, hbt, hab⟩ := (hleft a).mp ha
    exact attains_binary .bools hab has hbt (Forward.apply_boolOp hf a b)
  | compare hf r₁ r₂ e i j =>
    obtain ⟨p, hp, _⟩ := Option.map_eq_some_iff.mp hn
    obtain ⟨outcome, hmem, q, hq⟩ := exists_outcome hp
    have hne : ∀ k, Value.ints k ∈ [Value.ints i, .ints j] → k ≠ .empty := by
      rintro k hk rfl
      cases hsome _ hk
    obtain ⟨a, b, ha, hb, hab⟩ := exists_of_compareCases hf (hne i List.mem_cons_self)
      (hne j (List.mem_cons_of_mem _ List.mem_cons_self)) (hlimit _ List.mem_cons_self) hq
    exact attains_binary .ints hmem ha hb hab
  | setCompare hf e₁ e₂ e s t =>
    obtain ⟨p, hp, _⟩ := Option.map_eq_some_iff.mp hn
    obtain ⟨outcome, hmem, q, hq⟩ := exists_outcome hp
    obtain ⟨i, j, hi, hj, hij⟩ := exists_of_setCompareCases hf hq
    exact attains_binary .elems hmem hi hj hij

end Backward

namespace Model

variable {m : Model} {e : Expr} {env f : Env} {expected value : Value}

lemma leaf_feasible {c : Value} {g : Env} (hc : ∀ d, d ∈ c ↔ d ∈ value ∧ d ∈ expected)
    (h : (.ok (if c.isEmpty then none else some g) : Except Fault (Option Env)) = .ok (some f)) :
    ∃ d, d ∈ value ∧ d ∈ expected := by
  obtain ⟨hempty, _⟩ := Option.ite_none_left_eq_some.mp (Except.ok.inj h)
  obtain ⟨d, hd⟩ := Value.exists_mem (Bool.eq_false_of_not_eq_true hempty)
  exact ⟨d, (hc d).mp hd⟩

lemma operation_feasible {op : Op} {t : TypedDomain} {definition : Definition} {inverse : Inverse}
    {doms : List Domain} (ht : t.domain = .bool)
    (hdef : Forward.definition? op ⟨doms, t.domain⟩ = some definition)
    (hinv : Backward.inverse? op ⟨doms, t.domain⟩ = some inverse)
    (hexp : Domain.bool.accepts expected = true) {args narrowed : List Value}
    (hargs : List.Forall₂ (fun dom v => dom.accepts v = true) doms args)
    (hlimit : ∀ a ∈ args, Datum.int Int64.maxValue.toInt ∉ a)
    (hvalue : definition args = .ok value)
    (hn : invert (.op t op definition inverse) expected args = .ok (some narrowed)) :
    ∃ d, d ∈ value ∧ d ∈ expected := by
  rw [ht] at hdef hinv
  obtain ⟨s, rfl⟩ := Domain.accepts_bool.mp hexp
  obtain ⟨hsome, hn⟩ := invert_eq_some hn
  obtain ⟨_, hresult, hinverts⟩ := Backward.exists_inverts hinv hexp hargs
  obtain ⟨b, hb, hdata⟩ := hinverts.attains hsome hlimit (Except.ok.inj (hresult.symm.trans hn))
  obtain ⟨_, hresult, hdefines⟩ := Forward.exists_defines hdef hargs
  obtain rfl := Except.ok.inj (hvalue.symm.trans hresult)
  obtain ⟨r, rfl, hexact⟩ := hdefines.exact
  exact ⟨.bool b, (hexact b).mpr hdata, hb⟩

lemma refine_feasible (hlit : m.LiteralsInRange) (he : m.Models e) (hlimit : m.BelowLimit e)
    (henv : ∀ v ∈ e.vars, env.Binds m v) (hrange : env.InRange m)
    (hdom : m.exprDomain? e = some .bool) (hexp : Domain.bool.accepts expected = true)
    (hvalue : m.eval env e = .ok value) (h : m.refine e env expected = .ok (some f)) :
    ∃ d, d ∈ value ∧ d ∈ expected := by
  cases e with
  | ident info v =>
    obtain ⟨value', c, hvalue', hc, hrefine⟩ := refine_ident he (henv v.var (by simp)) hdom hexp
    rw [eval, hvalue'] at hvalue
    obtain rfl := Except.ok.inj hvalue
    exact leaf_feasible hc (hrefine.symm.trans h)
  | lit info text =>
    obtain ⟨value', hvalue', hrefine⟩ := refine_lit he hdom
    obtain rfl := Except.ok.inj ((hvalue' env).symm.trans hvalue)
    obtain ⟨c, hc, hrefine⟩ := hrefine expected hexp
    exact leaf_feasible hc ((hrefine env).symm.trans h)
  | unary info op x =>
    have hx : x ∈ (Expr.unary info op x).operands := List.mem_singleton_self x
    have hvars := fun v hv => henv v (Expr.mem_vars_of_operand hx hv)
    obtain ⟨t, definition, inverse, doms, ht, hdoms, hdef, hinv⟩ := he.node
    have htbool := Option.some.inj ((exprDomain_of_entry ht).symm.trans hdom)
    obtain ⟨domx, rfl, hdomx⟩ := Forward.operands_unary hdoms
    obtain ⟨a, ha, hacc, _⟩ := eval_at (he.operand hx) hvars hdomx
    have hbelow := eval_limit hlit (he.operand hx) (hlimit.operand hx) hvars hrange ha
    simp only [eval, ht, ha, ok_bind] at hvalue
    simp only [refine, ht, ha, ok_bind] at h
    obtain ⟨narrowed, hn, h⟩ := bind_eq_ok h
    cases narrowed with
    | none => cases h
    | some narrowed =>
      exact operation_feasible htbool hdef hinv hexp (.cons hacc .nil) (by simpa using hbelow)
        hvalue hn
  | binary info op l r =>
    have hl : l ∈ (Expr.binary info op l r).operands := List.mem_cons_self
    have hr : r ∈ (Expr.binary info op l r).operands := List.mem_cons_of_mem _ List.mem_cons_self
    have hvarsl := fun v hv => henv v (Expr.mem_vars_of_operand hl hv)
    have hvarsr := fun v hv => henv v (Expr.mem_vars_of_operand hr hv)
    obtain ⟨t, definition, inverse, doms, ht, hdoms, hdef, hinv⟩ := he.node
    have htbool := Option.some.inj ((exprDomain_of_entry ht).symm.trans hdom)
    obtain ⟨doml, domr, rfl, hdoml, hdomr⟩ := Forward.operands_binary hdoms
    obtain ⟨a, ha, hacca, _⟩ := eval_at (he.operand hl) hvarsl hdoml
    obtain ⟨b, hb, haccb, _⟩ := eval_at (he.operand hr) hvarsr hdomr
    have hbelowl := eval_limit hlit (he.operand hl) (hlimit.operand hl) hvarsl hrange ha
    have hbelowr := eval_limit hlit (he.operand hr) (hlimit.operand hr) hvarsr hrange hb
    simp only [eval, ht, ha, hb, ok_bind] at hvalue
    simp only [refine, ht, ha, hb, ok_bind] at h
    obtain ⟨narrowed, hn, h⟩ := bind_eq_ok h
    cases narrowed with
    | none => cases h
    | some narrowed =>
      exact operation_feasible htbool hdef hinv hexp (.cons hacca (.cons haccb .nil))
        (by simpa using ⟨hbelowl, hbelowr⟩) hvalue hn

lemma true_mem_of_assume (hlit : m.LiteralsInRange) (he : m.Models e) (hlimit : m.BelowLimit e)
    (henv : ∀ v ∈ e.vars, env.Binds m v) (hrange : env.InRange m)
    (hdom : m.exprDomain? e = some .bool) {s : BoolSet} (hs : m.eval env e = .ok (.bools s))
    (h : m.assume e env = .ok (some f)) : true ∈ s := by
  obtain ⟨d, hd, hexp⟩ := refine_feasible hlit he hlimit henv hrange hdom rfl hs h
  obtain ⟨b, rfl, hb⟩ := Value.mem_bools.mp hexp
  rwa [(BoolSet.mem_singleton true b).mp hb] at hd

end Model

namespace Analysis

open Model

variable {c : Config} {m : Model} {p : Program} {fuel : Nat} {a : Analysis} {n : NodeId}
  {node : Node} {cond : Expr} {purpose : Option Purpose}

lemma exists_passing (hm : m.Serves p) (h : ofProgram c m p fuel = .ok a)
    (hnode : a.graph.nodes[n]? = some node) (hatom : node.atom = some (.assume cond purpose))
    (hstate : a.stateOf n ≠ []) :
    ∃ k ∈ a.graph.predsOf n, ∃ q ∈ a.stateOf k, ∃ env, m.assume cond q.env = .ok (some env) := by
  obtain ⟨hgraph, _, hE, hinv⟩ := invariant_of_serves hm h
  rw [hgraph] at hnode ⊢
  have hid := hE.graph.ids n node hnode
  obtain ⟨outgoing, merged, hout, hmerged, hstored⟩ :=
    Engine.recompute_eq_ok (hinv.recompute_of_done rfl hnode)
  rw [Graph.widening_of_atom hnode hatom, if_neg Bool.false_ne_true] at hstored
  cases outgoing with
  | nil =>
    cases hmerged
    exact absurd hstored.symm hstate
  | cons q' rest =>
    obtain ⟨q, hq, hpass⟩ := (filterMapM_eq_ok hout).2 q' List.mem_cons_self
    have htransfer := (Engine.pass_eq_ok hpass).2
    rw [hatom] at htransfer
    rw [hid] at hq
    rcases Engine.mem_incoming.mp hq with ⟨rfl, _⟩ | ⟨k, hk, hq⟩
    · obtain ⟨start, hstart, hnone⟩ := hE.graph.start
      obtain rfl := Option.some.inj (hstart.symm.trans hnode)
      rw [hatom] at hnone
      cases hnone
    · exact ⟨k, hk, q, hq, q'.env, htransfer⟩

lemma exists_true_at (hm : m.Serves p) (h : ofProgram c m p fuel = .ok a)
    (hnode : a.graph.nodes[n]? = some node) (hatom : node.atom = some (.assume cond purpose))
    (hlimit : m.BelowLimit cond) (hstate : a.stateOf n ≠ []) :
    ∃ values, a.evalAt n cond = .ok values ∧
      ∃ trace s, (trace, Value.bools s) ∈ values ∧ true ∈ s := by
  obtain ⟨k, hk, q, hq, env, hpass⟩ := exists_passing hm h hnode hatom hstate
  obtain ⟨hgraph, rfl, hcheck, hiterate⟩ := ofProgram_eq_ok h
  have hE := ranged_of_check hm hcheck
  have hregular := hE.preserves_regular.after hE.graph hiterate
  rw [hgraph] at hnode
  have hadmits := hE.admits n node hnode
  rw [hatom] at hadmits
  obtain ⟨hcond, hvars, hdom⟩ := hadmits
  have hbinds : ∀ k, ∀ q ∈ a.stateOf k, ∀ v ∈ cond.vars, q.env.Binds a.model v :=
    fun k q hq v hv => binds_of_typed (hregular k q hq).fits.typed (hregular k q hq).fits.sameVars
      (hvars v hv)
  obtain ⟨values, hvalues, hmem⟩ := exists_evalAt (n := n) (e := cond) fun k _ q hq => by
    obtain ⟨v, hv, _⟩ := eval_at hcond (hbinds k q hq) hdom
    exact ⟨v, hv⟩
  obtain ⟨v, hv, hpair⟩ := hmem k hk q hq
  obtain ⟨v', hv', hacc, _⟩ := eval_at hcond (hbinds k q hq) hdom
  obtain rfl := Except.ok.inj (hv.symm.trans hv')
  obtain ⟨s, rfl⟩ := Domain.accepts_bool.mp hacc
  exact ⟨values, hvalues, _, s, hpair, true_mem_of_assume hm.literalsInRange hcond hlimit
    (hbinds k q hq) (hregular k q hq).inRange hdom hv hpass⟩

theorem infeasibility_agrees (m : Model) :
    (∀ (programs : List Program) (e : Expr) (env : Env), m.Standard programs →
      Expr.Unambiguous (e.nodes ++ programs.flatMap Program.exprs) →
      (∀ x ∈ e.nodes, (m.entry? x).isSome) → m.exprDomain? e = some .bool → m.BelowLimit e →
      env.Within m e →
        ∃ s, m.eval env e = .ok (.bools s) ∧ (true ∉ s → m.assume e env = .ok none)) ∧
    ∀ (c : Config) (p : Program) (fuel : Nat) (a : Analysis) (n : NodeId) (node : Node)
      (cond : Expr) (purpose : Option Purpose), m.Serves p → ofProgram c m p fuel = .ok a →
      a.graph.nodes[n]? = some node → node.atom = some (.assume cond purpose) →
      m.BelowLimit cond → a.stateOf n ≠ [] →
        ∃ values, a.evalAt n cond = .ok values ∧
          ∃ trace s, (trace, Value.bools s) ∈ values ∧ true ∈ s := by
  constructor
  · intro programs e env hm hids hentries hdom hlimit henv
    have he := hm.models hids hentries henv.domains
    have hvars : ∀ v ∈ e.vars, v ∈ e.vars := fun _ => id
    obtain ⟨value, hvalue, hacc, _⟩ := eval_at he henv.binds hdom
    obtain ⟨s, rfl⟩ := Domain.accepts_bool.mp hacc
    refine ⟨s, hvalue, fun hnot => ?_⟩
    obtain ⟨result, hresult, _⟩ := refinable_of_models he henv.binds hdom
      (show Domain.bool.accepts (.bools (.singleton true)) = true from rfl)
    cases result with
    | none => exact hresult
    | some f =>
      exact absurd (true_mem_of_assume hm.literalsInRange he hlimit (Env.restrict_binds henv.binds)
        henv.restrict_inRange hdom ((eval_restrict hvars).trans hvalue)
        ((refine_restrict_eq_some_iff hvars).mpr ⟨f, hresult, rfl⟩)) hnot
  · intro c p fuel a n node cond purpose hm h hnode hatom hlimit hstate
    exact exists_true_at hm h hnode hatom hlimit hstate

end Analysis

namespace Climb

def topEnv : Env := .ofList [(x.var, .ints (.constant 3)), (y.var, .ints (.between 0 3))]

theorem climb_infeasibility_agrees :
    model.assume below topEnv = .ok none ∧
      ∃ a values, Analysis.ofProgram .default model program 20 = .ok a ∧ a.stateOf 2 ≠ [] ∧
        a.evalAt 2 below = .ok values ∧
        ∃ trace s, (trace, Value.bools s) ∈ values ∧ true ∈ s := by
  obtain ⟨hassume, hanalysis⟩ := Analysis.infeasibility_agrees model
  have hlimit : model.BelowLimit below := by decide +kernel
  constructor
  · have htop : topEnv.Within model below :=
      within_of_checks (by decide +kernel) (by decide +kernel)
    obtain ⟨s, hs, hnone⟩ := hassume [program] below topEnv standard_model (by decide +kernel)
      (by decide +kernel) (by decide +kernel) hlimit htop
    have hfalse : model.eval topEnv below = .ok (.bools (.singleton false)) :=
      toOption_eq_some (by decide +kernel)
    obtain ⟨⟩ := Except.ok.inj (hs.symm.trans hfalse)
    exact hnone (by decide)
  · obtain ⟨a, ha, hstate⟩ := exists_of_toOption_any
      (show (Analysis.ofProgram .default model program 20).toOption.any
        (fun a => !(a.stateOf 2).isEmpty) = true by decide +kernel)
    have hstate : a.stateOf 2 ≠ [] := by simpa using hstate
    have hatom : (Graph.ofProgram program).nodes[2]?.map Node.atom =
        some (some (.assume below none)) := by decide +kernel
    obtain ⟨node, hnode, hatom⟩ := Option.map_eq_some_iff.mp hatom
    rw [← (Analysis.ofProgram_eq_ok ha).1] at hnode
    obtain ⟨values, hvalues, htrue⟩ := hanalysis .default program 20 a 2 node below none
      interprets.serves ha hnode hatom hlimit hstate
    exact ⟨a, values, ha, hstate, hvalues, htrue⟩

end Climb

end Tracewise
