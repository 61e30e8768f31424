import Tracewise.Proofs.Evaluation
import Tracewise.Proofs.Inclusion

/-! Evaluation reads the variables of an expression and no others. Refinement writes to them, one
identifier after another, and each write leaves a part of the value that was there. -/

namespace Tracewise

open Fallible

namespace Expr

variable (info : ExprInfo)

@[simp] lemma vars_ident (v : Ident) : (ident info v).vars = [v.var] := by
  simp [vars, nodes_eq_preorder, preorder, ident?]

@[simp] lemma vars_lit (text : String) : (lit info text).vars = [] := by
  simp [vars, nodes_eq_preorder, preorder, ident?]

@[simp] lemma vars_unary (op : UnOp) (x : Expr) : (unary info op x).vars = x.vars := by
  simp [vars, nodes_eq_preorder, preorder, ident?]

@[simp] lemma vars_binary (op : BinOp) (l r : Expr) :
    (binary info op l r).vars = l.vars ++ r.vars := by
  simp [vars, nodes_eq_preorder, preorder, ident?]

end Expr

lemma Domain.accepts_of_le {dom : Domain} {a b : Value} (ha : dom.accepts a = true) (hle : b ≤ a)
    (hsome : b.isEmpty = false) : dom.accepts b = true := by
  obtain ⟨d, hd⟩ := Value.exists_mem hsome
  cases dom with
  | bool =>
    obtain ⟨s, rfl⟩ := accepts_bool.mp ha
    obtain ⟨c, rfl, _⟩ := Value.mem_bools.mp (hle d hd)
    cases b with
    | bools t => rfl
    | ints i => exact hd.elim
    | elems t => exact hd.elim
  | int r =>
    obtain ⟨i, rfl⟩ := accepts_int.mp ha
    obtain ⟨n, rfl, _⟩ := Value.mem_ints.mp (hle d hd)
    cases b with
    | bools t => exact hd.elim
    | ints j => rfl
    | elems t => exact hd.elim
  | finite e =>
    obtain ⟨s, rfl⟩ := accepts_finite.mp ha
    obtain ⟨k, rfl, _⟩ := Value.mem_elems.mp (hle d hd)
    cases b with
    | bools t => exact hd.elim
    | ints i => exact hd.elim
    | elems t => rfl

namespace Env

/-- Writes to variables in the given order, each of a part of the variable's value that is not
empty. -/
inductive Writes : List VarId → Env → Env → Prop
  | nil (env : Env) : Writes [] env env
  | cons {vs : List VarId} {env env' : Env} {v : VarId} {a b : Value} (hget : env.get? v = some a)
      (hle : b ≤ a) (hsome : b.isEmpty = false) (hrest : Writes vs (env.set v b) env') :
      Writes (v :: vs) env env'

namespace Writes

variable {vs ws : List VarId} {env env' env'' : Env}

lemma append (h : Writes vs env env') (h' : Writes ws env' env'') :
    Writes (vs ++ ws) env env'' := by
  induction h with
  | nil => exact h'
  | cons hget hle hsome _ ih => exact .cons hget hle hsome (ih h')

lemma induction {P : Env → Prop}
    (hset : ∀ env v a b, P env → env.get? v = some a → b ≤ a → b.isEmpty = false → P (env.set v b))
    (h : Writes vs env env') (henv : P env) : P env' := by
  induction h with
  | nil => exact henv
  | cons hget hle hsome _ ih => exact ih (hset _ _ _ _ henv hget hle hsome)

lemma le (h : Writes vs env env') : env' ≤ env :=
  h.induction (P := (· ≤ env)) (fun _ _ _ _ hle hget hba _ => (set_le hget hba).trans hle) le_rfl

lemma sameVars (h : Writes vs env env') : env.SameVars env' := by
  refine h.induction (P := env.SameVars) (fun other v a b hsame hget _ _ w => ?_) fun _ => rfl
  rw [hsame w, get?_set]
  by_cases hw : w = v
  · rw [if_pos hw, hw, hget]
    rfl
  · rw [if_neg hw]

lemma get?_of_notMem (h : Writes vs env env') {v : VarId} (hv : v ∉ vs) :
    env'.get? v = env.get? v := by
  induction h with
  | nil => rfl
  | cons _ _ _ _ ih =>
    rw [List.mem_cons, not_or] at hv
    rw [ih hv.2, get?_set, if_neg hv.1]

lemma nonempty_of_nonempty (h : Writes vs env env') {v : VarId}
    (hv : ∃ a, env.get? v = some a ∧ a.isEmpty = false) :
    ∃ a, env'.get? v = some a ∧ a.isEmpty = false := by
  refine h.induction (P := fun env => ∃ a, env.get? v = some a ∧ a.isEmpty = false)
    (fun other w a b hv _ _ hsome => ?_) hv
  by_cases hw : v = w
  · exact ⟨b, by rw [get?_set, if_pos hw], hsome⟩
  · rw [get?_set, if_neg hw]
    exact hv

lemma nonempty_of_mem (h : Writes vs env env') {v : VarId} (hv : v ∈ vs) :
    ∃ a, env'.get? v = some a ∧ a.isEmpty = false := by
  induction h with
  | nil => cases hv
  | @cons vs env env' w a b _ _ hsome hrest ih =>
    rcases List.mem_cons.mp hv with rfl | hv
    · exact hrest.nonempty_of_nonempty ⟨b, by rw [get?_set, if_pos rfl], hsome⟩
    · exact ih hv

lemma supplies (h : Writes vs env env') {m : Model} {e : Expr} (henv : env.Supplies m e) :
    env'.Supplies m e := by
  refine h.induction (P := fun env => env.Supplies m e)
    (fun other w a b hother hget hle hsome => ?_) henv
  intro x hx v hv
  obtain ⟨dom, value, hdom, hvalue, hacc⟩ := hother x hx v hv
  rw [get?_set]
  by_cases hw : v.var = w
  · subst hw
    obtain rfl := Option.some.inj (hget.symm.trans hvalue)
    exact ⟨dom, b, hdom, if_pos rfl, Domain.accepts_of_le hacc hle hsome⟩
  · rw [if_neg hw]
    exact ⟨dom, value, hdom, hvalue, hacc⟩

end Writes

def restrict (env : Env) (vars : List VarId) : Env :=
  ⟨⟨env.values.entries.filter fun p => ⟨p.1⟩ ∈ vars, env.values.sorted.filter _⟩⟩

variable {env : Env} {vars : List VarId}

lemma restrict_get?_eq_some_iff {v : VarId} {a : Value} :
    (env.restrict vars).get? v = some a ↔ v ∈ vars ∧ env.get? v = some a := by
  rw [get?, get?, ← IdMap.mem_entries_iff, ← IdMap.mem_entries_iff, restrict, List.mem_filter,
    decide_eq_true_eq, and_comm]

lemma get?_restrict (env : Env) (vars : List VarId) (v : VarId) :
    (env.restrict vars).get? v = if v ∈ vars then env.get? v else none := by
  apply Option.ext
  intro a
  rw [restrict_get?_eq_some_iff]
  split <;> simp_all

lemma get?_restrict_of_mem {v : VarId} (hv : v ∈ vars) :
    (env.restrict vars).get? v = env.get? v := by
  rw [get?_restrict, if_pos hv]

lemma restrict_set {v : VarId} (hv : v ∈ vars) (a : Value) :
    (env.set v a).restrict vars = (env.restrict vars).set v a := by
  apply ext_get?
  intro w
  simp only [get?_restrict, get?_set]
  by_cases hw : w = v
  · rw [if_pos hw, if_pos hw, if_pos (hw ▸ hv)]
  · rw [if_neg hw, if_neg hw]

end Env

namespace Model

variable {m : Model} {e : Expr} {env env' f : Env} {expected : Value}

lemma eval_congr (h : ∀ v ∈ e.vars, env.get? v = env'.get? v) : m.eval env e = m.eval env' e := by
  induction e with
  | ident info v =>
    rw [eval, eval, h v.var (by simp)]
  | lit info text => simp only [eval]
  | unary info op x ih =>
    simp only [Expr.vars_unary] at h
    simp only [eval, ih h]
  | binary info op l r ihl ihr =>
    simp only [Expr.vars_binary, List.mem_append] at h
    simp only [eval, ihl fun v hv => h v (.inl hv), ihr fun v hv => h v (.inr hv)]

lemma eval_restrict {vars : List VarId} (hvars : ∀ v ∈ e.vars, v ∈ vars) :
    m.eval (env.restrict vars) e = m.eval env e :=
  eval_congr fun v hv => Env.get?_restrict_of_mem (hvars v hv)

theorem refine_writes (h : m.refine e env expected = .ok (some f)) : Env.Writes e.vars env f := by
  induction e generalizing env expected f with
  | ident info v =>
    rw [refine] at h
    split at h
    · cases h
    · obtain ⟨value, hvalue, h⟩ := bind_eq_ok h
      obtain ⟨c, hc, h⟩ := bind_eq_ok h
      have hget : env.get? v.var = some value := by
        rw [eval] at hvalue
        split at hvalue
        · rw [← Except.ok.inj hvalue]
          assumption
        · cases hvalue
      obtain ⟨hempty, ⟨⟩⟩ := Option.ite_none_left_eq_some.mp (Except.ok.inj h)
      rw [Expr.vars_ident]
      exact .cons hget (Domain.meet_le hc) (Bool.eq_false_of_not_eq_true hempty) (.nil _)
  | lit info text =>
    rw [refine] at h
    split at h
    · cases h
    · obtain ⟨_, _, h⟩ := bind_eq_ok h
      obtain ⟨_, _, h⟩ := bind_eq_ok h
      obtain ⟨_, ⟨⟩⟩ := Option.ite_none_left_eq_some.mp (Except.ok.inj h)
      rw [Expr.vars_lit]
      exact .nil _
  | unary info op x ih =>
    rw [refine] at h
    split at h
    · cases h
    · obtain ⟨_, _, h⟩ := bind_eq_ok h
      obtain ⟨_, _, h⟩ := bind_eq_ok h
      split at h
      · rw [Expr.vars_unary]
        exact ih h
      · cases h
  | binary info op l r ihl ihr =>
    rw [refine] at h
    split at h
    · cases h
    · obtain ⟨_, _, h⟩ := bind_eq_ok h
      obtain ⟨_, _, h⟩ := bind_eq_ok h
      obtain ⟨_, _, h⟩ := bind_eq_ok h
      split at h
      · obtain ⟨_, hl, h⟩ := bind_eq_ok h
        split at h
        · rw [Expr.vars_binary]
          exact (ihl hl).append (ihr h)
        · cases h
      · cases h

theorem refine_restrict {vars : List VarId} (hvars : ∀ v ∈ e.vars, v ∈ vars) :
    m.refine e (env.restrict vars) expected =
      Option.map (Env.restrict · vars) <$> m.refine e env expected := by
  induction e generalizing env expected with
  | ident info v =>
    have hv : v.var ∈ vars := hvars v.var (by simp)
    rw [refine, refine, eval_restrict hvars]
    split
    · rfl
    · rw [map_bind]
      refine bind_congr fun value => ?_
      rw [map_bind]
      refine bind_congr fun c => ?_
      rw [map_pure, ← Env.restrict_set hv]
      split <;> rfl
  | lit info text =>
    rw [refine, refine, eval_restrict hvars]
    split
    · rfl
    · rw [map_bind]
      refine bind_congr fun value => ?_
      rw [map_bind]
      refine bind_congr fun c => ?_
      rw [map_pure]
      split <;> rfl
  | unary info op x ih =>
    rw [Expr.vars_unary] at hvars
    rw [refine, refine, eval_restrict hvars]
    split
    · rfl
    · rw [map_bind]
      refine bind_congr fun a => ?_
      rw [map_bind]
      refine bind_congr fun narrowed => ?_
      split
      · exact ih hvars
      · rfl
  | binary info op l r ihl ihr =>
    rw [Expr.vars_binary] at hvars
    have hl : ∀ v ∈ l.vars, v ∈ vars := fun v hv => hvars v (List.mem_append_left _ hv)
    have hr : ∀ v ∈ r.vars, v ∈ vars := fun v hv => hvars v (List.mem_append_right _ hv)
    rw [refine, refine, eval_restrict hl, eval_restrict hr]
    split
    · rfl
    · rw [map_bind]
      refine bind_congr fun a => ?_
      rw [map_bind]
      refine bind_congr fun b => ?_
      rw [map_bind]
      refine bind_congr fun narrowed => ?_
      split
      · rw [ihl hl, map_bind, bind_map_left]
        refine bind_congr fun result => ?_
        cases result with
        | none => rfl
        | some g => exact ihr hr
      · rfl

lemma exists_refine (he : m.Evaluates e) (henv : env.Supplies m e) {dom : Domain}
    (hdom : m.exprDomain? e = some dom) (hexp : dom.accepts expected = true) :
    ∃ result, m.refine e env expected = .ok result := by
  induction e generalizing env dom expected with
  | ident info v =>
    obtain ⟨_, value, hdom', hvalue, hacc⟩ := henv _ (Expr.mem_nodes_self _) v rfl
    obtain rfl := Option.some.inj (hdom.symm.trans hdom')
    obtain ⟨entry, hentry, rfl⟩ := Option.map_eq_some_iff.mp hdom
    obtain ⟨c, hc, _⟩ := Domain.meet_spec hacc hexp
    exact ⟨if c.isEmpty then none else some (env.set v.var c),
      by simp only [refine, hentry, eval, hvalue, ok_bind, hc, pure_eq_ok]⟩
  | lit info text =>
    obtain ⟨t, value, ht, hacc⟩ := he.node rfl
    obtain rfl := Option.some.inj ((exprDomain_of_entry ht).symm.trans hdom)
    obtain ⟨c, hc, _⟩ := Domain.meet_spec hacc hexp
    have hc : (Entry.lit t value).domain.meet value expected = .ok c := hc
    exact ⟨if c.isEmpty then none else some env,
      by simp only [refine, ht, eval, ok_bind, hc, pure_eq_ok]⟩
  | unary info op x ih =>
    have hx : x ∈ (Expr.unary info op x).operands := List.mem_singleton_self x
    obtain ⟨t, definition, inverse, doms, ht, hdoms, _, hinv⟩ := he.node rfl
    obtain rfl := Option.some.inj ((exprDomain_of_entry ht).symm.trans hdom)
    obtain ⟨domx, rfl, hdomx⟩ := Forward.operands_unary hdoms
    obtain ⟨domx', a, hdomx', ha, hacc, _⟩ := eval_of_supplies (he.operand hx) (henv.operand hx)
    obtain rfl := Option.some.inj (hdomx.symm.trans hdomx')
    obtain ⟨narrowed, hn, hnacc, _⟩ := invert_spec definition hinv hexp (.cons hacc .nil)
    cases narrowed with
    | none => exact ⟨none, by simp only [refine, ht, ha, ok_bind, hn, pure_eq_ok]⟩
    | some narrowed =>
      obtain ⟨a', rfl, hacc'⟩ := Forward.operands_unary (hnacc narrowed rfl)
      obtain ⟨result, hresult⟩ := ih (he.operand hx) (henv.operand hx) hdomx hacc'
      exact ⟨result, by simp only [refine, ht, ha, ok_bind, hn, hresult]⟩
  | binary info op l r ihl ihr =>
    have hl : l ∈ (Expr.binary info op l r).operands := List.mem_cons_self
    have hr : r ∈ (Expr.binary info op l r).operands := List.mem_cons_of_mem _ List.mem_cons_self
    obtain ⟨t, definition, inverse, doms, ht, hdoms, _, hinv⟩ := he.node rfl
    obtain rfl := Option.some.inj ((exprDomain_of_entry ht).symm.trans hdom)
    obtain ⟨doml, domr, rfl, hdoml, hdomr⟩ := Forward.operands_binary hdoms
    obtain ⟨doml', a, hdoml', ha, hacca, _⟩ := eval_of_supplies (he.operand hl) (henv.operand hl)
    obtain ⟨domr', b, hdomr', hb, haccb, _⟩ := eval_of_supplies (he.operand hr) (henv.operand hr)
    obtain rfl := Option.some.inj (hdoml.symm.trans hdoml')
    obtain rfl := Option.some.inj (hdomr.symm.trans hdomr')
    obtain ⟨narrowed, hn, hnacc, _⟩ :=
      invert_spec definition hinv hexp (.cons hacca (.cons haccb .nil))
    cases narrowed with
    | none => exact ⟨none, by simp only [refine, ht, ha, hb, ok_bind, hn, pure_eq_ok]⟩
    | some narrowed =>
      obtain ⟨a', b', rfl, hacca', haccb'⟩ := Forward.operands_binary (hnacc narrowed rfl)
      obtain ⟨resultl, hresultl⟩ := ihl (he.operand hl) (henv.operand hl) hdoml hacca'
      cases resultl with
      | none => exact ⟨none, by simp only [refine, ht, ha, hb, ok_bind, hn, hresultl, pure_eq_ok]⟩
      | some envl =>
        have hsupplies := (refine_writes hresultl).supplies henv
        obtain ⟨result, hresult⟩ := ihr (he.operand hr) (hsupplies.operand hr) hdomr haccb'
        exact ⟨result, by simp only [refine, ht, ha, hb, ok_bind, hn, hresultl, hresult]⟩

end Model

end Tracewise
