import Tracewise.Proofs.Execution
import Tracewise.Proofs.Fallible
import Tracewise.Proofs.Inverses

namespace Tracewise

open Fallible

namespace Expr

def preorder : Expr → List Expr
  | e@(ident ..) => [e]
  | e@(lit ..) => [e]
  | e@(unary _ _ x) => e :: x.preorder
  | e@(binary _ _ l r) => e :: (l.preorder ++ r.preorder)

lemma preorder_eq (e : Expr) : e.preorder = e :: e.operands.flatMap preorder := by
  cases e <;> simp [preorder, operands]

lemma size_eq (e : Expr) : e.size = (e.operands.map size).sum + 1 := by
  cases e <;> simp [size, operands]

lemma visit_eq_flatMap (fuel : Nat) (stack : List Expr) (h : (stack.map size).sum ≤ fuel) :
    visit fuel stack = stack.flatMap preorder := by
  induction fuel generalizing stack with
  | zero =>
    cases stack with
    | nil => rfl
    | cons e stack =>
      rw [List.map_cons, List.sum_cons, size_eq] at h
      omega
  | succ fuel ih =>
    cases stack with
    | nil => rfl
    | cons e stack =>
      rw [List.map_cons, List.sum_cons, size_eq] at h
      rw [visit, ih _ (by rw [List.map_append, List.sum_append]; omega), List.flatMap_append,
        List.flatMap_cons, preorder_eq e, List.cons_append]

lemma nodes_eq_preorder (e : Expr) : e.nodes = e.preorder := by
  rw [nodes, visit_eq_flatMap _ _ (by simp), List.flatMap_singleton]

lemma mem_nodes_self (e : Expr) : e ∈ e.nodes := by
  rw [nodes_eq_preorder, preorder_eq]
  exact List.mem_cons_self

lemma mem_nodes_of_operand {e x y : Expr} (hx : x ∈ e.operands) (hy : y ∈ x.nodes) :
    y ∈ e.nodes := by
  rw [nodes_eq_preorder] at hy ⊢
  rw [preorder_eq]
  exact List.mem_cons_of_mem _ (List.mem_flatMap.mpr ⟨x, hx, hy⟩)

lemma mem_nodes_iff {e x : Expr} : x ∈ e.nodes ↔ x = e ∨ ∃ y ∈ e.operands, x ∈ y.nodes := by
  rw [nodes_eq_preorder, preorder_eq, List.mem_cons, List.mem_flatMap]
  simp only [nodes_eq_preorder]

lemma operands_induction {P : Expr → Prop} (h : ∀ e, (∀ x ∈ e.operands, P x) → P e) (e : Expr) :
    P e := by
  induction e with
  | ident info v => exact h _ nofun
  | lit info text => exact h _ nofun
  | unary info op x ih => exact h _ fun y hy => List.mem_singleton.mp hy ▸ ih
  | binary info op l r ihl ihr =>
    apply h
    intro y hy
    rcases List.mem_cons.mp hy with rfl | hy
    · exact ihl
    · exact List.mem_singleton.mp hy ▸ ihr

lemma operand_mem_nodes {e x y : Expr} (hx : x ∈ e.nodes) (hy : y ∈ x.operands) : y ∈ e.nodes := by
  induction e using operands_induction with
  | h e ih =>
    rcases mem_nodes_iff.mp hx with rfl | ⟨z, hz, hxz⟩
    · exact mem_nodes_of_operand hy y.mem_nodes_self
    · exact mem_nodes_of_operand hz (ih z hz hxz)

lemma nodes_subset {e x : Expr} (hx : x ∈ e.nodes) : x.nodes ⊆ e.nodes := by
  induction x using operands_induction with
  | h x ih =>
    intro y hy
    rcases mem_nodes_iff.mp hy with rfl | ⟨z, hz, hyz⟩
    · exact hx
    · exact ih z hz (operand_mem_nodes hx hz) hyz

def vars (e : Expr) : List VarId := e.nodes.filterMap fun x => x.ident?.map Ident.var

lemma mem_vars_of_operand {e x : Expr} {v : VarId} (hx : x ∈ e.operands) (hv : v ∈ x.vars) :
    v ∈ e.vars := by
  obtain ⟨y, hy, hyv⟩ := List.mem_filterMap.mp hv
  exact List.mem_filterMap.mpr ⟨y, mem_nodes_of_operand hx hy, hyv⟩

lemma mem_vars {e x : Expr} {v : Ident} (hx : x ∈ e.nodes) (hv : x.ident? = some v) :
    v.var ∈ e.vars :=
  List.mem_filterMap.mpr ⟨x, hx, by rw [hv]; rfl⟩

end Expr

def Env.Supplies (env : Env) (m : Model) (e : Expr) : Prop :=
  ∀ x ∈ e.nodes, ∀ v ∈ x.ident?, ∃ dom value, m.exprDomain? x = some dom ∧
    env.get? v.var = some value ∧ dom.accepts value = true

lemma Env.supplies_of_binds {env : Env} {m : Model} {e : Expr}
    (hidents : ∀ x ∈ e.nodes, ∀ v ∈ x.ident?, m.exprDomain? x = m.varDomain? v.var)
    (henv : ∀ v ∈ e.vars, env.Binds m v) : env.Supplies m e := by
  intro x hx v hv
  obtain ⟨dom, value, hdom, hvalue, hacc⟩ := henv v.var (Expr.mem_vars hx hv)
  exact ⟨dom, value, (hidents x hx v hv).trans hdom, hvalue, hacc⟩

lemma Env.Supplies.operand {env : Env} {m : Model} {e x : Expr} (h : env.Supplies m e)
    (hx : x ∈ e.operands) : env.Supplies m x :=
  fun y hy => h y (Expr.mem_nodes_of_operand hx hy)

namespace Model

def ModelsOperation (m : Model) (e : Expr) (op : Op) : Prop :=
  ∃ t definition inverse doms, m.entry? e = some (.op t op definition inverse) ∧
    List.Forall₂ (fun x dom => m.exprDomain? x = some dom) e.operands doms ∧
    Forward.definition? op ⟨doms, t.domain⟩ = some definition ∧
    Backward.inverse? op ⟨doms, t.domain⟩ = some inverse

def ModelsNode (m : Model) : Expr → Prop
  | e@(.ident _ v) => ∃ t, m.entry? e = some (.ident t) ∧ m.varDomain? v.var = some t.domain
  | e@(.lit ..) => ∃ t value, m.entry? e = some (.lit t value) ∧ t.domain.accepts value = true
  | e@(.unary _ op _) => m.ModelsOperation e (.unary op)
  | e@(.binary _ op _ _) => m.ModelsOperation e (.binary op)

def Models (m : Model) (e : Expr) : Prop := ∀ x ∈ e.nodes, m.ModelsNode x

lemma Models.node {m : Model} {e : Expr} (h : m.Models e) : m.ModelsNode e := h e e.mem_nodes_self

lemma Models.operand {m : Model} {e x : Expr} (h : m.Models e) (hx : x ∈ e.operands) : m.Models x :=
  fun y hy => h y (Expr.mem_nodes_of_operand hx hy)

lemma exprDomain_of_entry {m : Model} {e : Expr} {entry : Entry} (h : m.entry? e = some entry) :
    m.exprDomain? e = some entry.domain := by
  rw [exprDomain?, h, Option.map_some]

def Evaluates (m : Model) (e : Expr) : Prop := ∀ x ∈ e.nodes, x.ident? = none → m.ModelsNode x

lemma Evaluates.node {m : Model} {e : Expr} (h : m.Evaluates e) (hident : e.ident? = none) :
    m.ModelsNode e :=
  h e e.mem_nodes_self hident

lemma Evaluates.operand {m : Model} {e x : Expr} (h : m.Evaluates e) (hx : x ∈ e.operands) :
    m.Evaluates x :=
  fun y hy => h y (Expr.mem_nodes_of_operand hx hy)

lemma Models.evaluates {m : Model} {e : Expr} (h : m.Models e) : m.Evaluates e :=
  fun x hx _ => h x hx

lemma Models.supplies {m : Model} {e : Expr} (h : m.Models e) {env : Env}
    (henv : ∀ v ∈ e.vars, env.Binds m v) : env.Supplies m e := by
  refine Env.supplies_of_binds (fun x hx v hv => ?_) henv
  cases x with
  | ident info w =>
    cases hv
    obtain ⟨t, ht, hvar⟩ := h _ hx
    exact (exprDomain_of_entry ht).trans hvar.symm
  | lit info text => cases hv
  | unary info op x => cases hv
  | binary info op l r => cases hv

theorem eval_of_supplies {m : Model} {e : Expr} (he : m.Evaluates e) {env : Env}
    (henv : env.Supplies m e) :
    ∃ dom value, m.exprDomain? e = some dom ∧ m.eval env e = .ok value ∧ dom.accepts value = true ∧
      ∀ σ d, env.Describes σ → m.Yields σ e d → d ∈ value := by
  induction e with
  | ident info v =>
    obtain ⟨dom, value, hdom, hvalue, hacc⟩ := henv _ (Expr.mem_nodes_self _) v rfl
    refine ⟨dom, value, hdom, by simp [eval, hvalue], hacc, ?_⟩
    rintro σ d hσ rfl
    exact hσ v.var value hvalue
  | lit info text =>
    obtain ⟨t, value, ht, hacc⟩ := he.node rfl
    refine ⟨_, value, exprDomain_of_entry ht, by simp [eval, ht], hacc, ?_⟩
    rintro σ d _ ⟨t', value', ht', hd⟩
    obtain ⟨rfl, rfl⟩ := Entry.lit.inj (Option.some.inj (ht.symm.trans ht'))
    exact hd
  | unary info op x ih =>
    have hx : x ∈ (Expr.unary info op x).operands := List.mem_singleton_self x
    obtain ⟨t, definition, inverse, doms, ht, hdoms, hdef, _⟩ := he.node rfl
    obtain ⟨dom, rfl, hdom⟩ := Forward.operands_unary hdoms
    obtain ⟨dom', a, hdom', ha, hacc, hsound⟩ := ih (he.operand hx) (henv.operand hx)
    obtain rfl := Option.some.inj (hdom.symm.trans hdom')
    obtain ⟨value, hvalue, hacc', hsound'⟩ :=
      Forward.sound_definition hdef [a] (.cons hacc .nil)
    refine ⟨_, value, exprDomain_of_entry ht, by simpa [eval, ht, ha] using hvalue, hacc', ?_⟩
    rintro σ d hσ ⟨⟨y, hy, hd⟩, dom'', hdom'', hhas⟩
    obtain rfl := Option.some.inj ((exprDomain_of_entry ht).symm.trans hdom'')
    exact hsound' [y] d (.cons (hsound σ y hσ hy) .nil) hd hhas
  | binary info op l r ihl ihr =>
    have hl : l ∈ (Expr.binary info op l r).operands := List.mem_cons_self
    have hr : r ∈ (Expr.binary info op l r).operands := List.mem_cons_of_mem _ List.mem_cons_self
    obtain ⟨t, definition, inverse, doms, ht, hdoms, hdef, _⟩ := he.node rfl
    obtain ⟨doml, domr, rfl, hdoml, hdomr⟩ := Forward.operands_binary hdoms
    obtain ⟨doml', a, hdoml', ha, hacca, hsounda⟩ := ihl (he.operand hl) (henv.operand hl)
    obtain ⟨domr', b, hdomr', hb, haccb, hsoundb⟩ := ihr (he.operand hr) (henv.operand hr)
    obtain rfl := Option.some.inj (hdoml.symm.trans hdoml')
    obtain rfl := Option.some.inj (hdomr.symm.trans hdomr')
    obtain ⟨value, hvalue, hacc', hsound'⟩ :=
      Forward.sound_definition hdef [a, b] (.cons hacca (.cons haccb .nil))
    refine ⟨_, value, exprDomain_of_entry ht, by simpa [eval, ht, ha, hb] using hvalue, hacc', ?_⟩
    rintro σ d hσ ⟨⟨y, z, hy, hz, hd⟩, dom'', hdom'', hhas⟩
    obtain rfl := Option.some.inj ((exprDomain_of_entry ht).symm.trans hdom'')
    exact hsound' [y, z] d (.cons (hsounda σ y hσ hy) (.cons (hsoundb σ z hσ hz) .nil)) hd hhas

theorem eval_spec {m : Model} {e : Expr} (he : m.Models e) {env : Env}
    (henv : ∀ v ∈ e.vars, env.Binds m v) :
    ∃ dom value, m.exprDomain? e = some dom ∧ m.eval env e = .ok value ∧ dom.accepts value = true ∧
      ∀ σ d, env.Describes σ → m.Yields σ e d → d ∈ value :=
  eval_of_supplies he.evaluates (he.supplies henv)

lemma invert_spec {op : Op} {t : TypedDomain} (definition : Definition) {inverse : Inverse}
    {doms : List Domain} (hinv : Backward.inverse? op ⟨doms, t.domain⟩ = some inverse)
    {expected : Value} (hexp : t.domain.accepts expected = true) {args : List Value}
    (hargs : List.Forall₂ (fun dom v => dom.accepts v = true) doms args) :
    ∃ result, invert (.op t op definition inverse) expected args = .ok result ∧
      (∀ narrowed ∈ result, List.Forall₂ (fun dom v => dom.accepts v = true) doms narrowed) ∧
      ∀ data d, List.Forall₂ (· ∈ ·) data args → op.compute? data = some d → d ∈ expected →
        ∃ narrowed ∈ result, List.Forall₂ (· ∈ ·) data narrowed := by
  by_cases hempty : args.any Value.isEmpty = true
  · refine ⟨none, by simp only [invert, hempty, if_true], by simp, ?_⟩
    intro data d hdata _ _
    obtain ⟨a, ha, haempty⟩ := List.any_eq_true.mp hempty
    obtain ⟨x, _, hx⟩ := exists_of_forall₂ hdata.flip ha
    rw [Value.isEmpty_eq_false hx] at haempty
    cases haempty
  · obtain ⟨result, hresult, hacc, hsound⟩ := Backward.sound_inverse hinv expected args hexp hargs
    refine ⟨result, ?_, hacc, hsound⟩
    rw [invert, if_neg hempty, hresult, ok_bind]
    cases result with
    | none => rfl
    | some narrowed =>
      have hlength : narrowed.length = args.length :=
        (hacc narrowed rfl).length_eq.symm.trans hargs.length_eq
      simp only [hlength, if_true, pure_eq_ok]

lemma invert_eq_some {t : TypedDomain} {op : Op} {definition : Definition} {inverse : Inverse}
    {expected : Value} {args narrowed : List Value}
    (h : invert (.op t op definition inverse) expected args = .ok (some narrowed)) :
    (∀ a ∈ args, a.isEmpty = false) ∧ inverse expected args = .ok (some narrowed) := by
  rw [invert] at h
  split at h
  · cases h
  · rename_i hempty
    obtain ⟨result, hresult, h⟩ := bind_eq_ok h
    cases result with
    | none => cases h
    | some found =>
      simp only at h
      split at h
      · cases h
        refine ⟨fun a ha => ?_, hresult⟩
        by_contra hsome
        exact hempty (List.any_eq_true.mpr ⟨a, ha, Bool.eq_true_of_not_eq_false hsome⟩)
      · cases h

lemma eval_at {m : Model} {e : Expr} (he : m.Models e) {env : Env}
    (henv : ∀ v ∈ e.vars, env.Binds m v) {dom : Domain} (hdom : m.exprDomain? e = some dom) :
    ∃ value, m.eval env e = .ok value ∧ dom.accepts value = true ∧
      ∀ σ d, env.Describes σ → m.Yields σ e d → d ∈ value := by
  obtain ⟨dom', value, hdom', hvalue⟩ := eval_spec he henv
  obtain rfl := Option.some.inj (hdom.symm.trans hdom')
  exact ⟨value, hvalue⟩

/-- The result of refining an environment so that an expression has an expected value: a narrower
environment, or none, that loses no store where it has. -/
def Refines (m : Model) (e : Expr) (env : Env) (expected : Value) (result : Option Env) : Prop :=
  (∀ env' ∈ result, Env.Revises m env env') ∧
    ∀ σ d, env.Describes σ → m.Yields σ e d → d ∈ expected → ∃ env' ∈ result, env'.Describes σ

def Refinable (m : Model) (e : Expr) : Prop :=
  ∀ {env : Env} {dom : Domain} {expected : Value}, (∀ v ∈ e.vars, env.Binds m v) →
    m.exprDomain? e = some dom → dom.accepts expected = true →
      ∃ result, m.refine e env expected = .ok result ∧ m.Refines e env expected result

variable {m : Model} {info : ExprInfo}

lemma refinable_ident {v : Ident} (he : m.Models (.ident info v)) : m.Refinable (.ident info v) := by
  intro env dom expected henv hdom hexp
  obtain ⟨t, ht, hvar⟩ := he.node
  obtain rfl := Option.some.inj ((exprDomain_of_entry ht).symm.trans hdom)
  obtain ⟨dom, value, hdom', hvalue, hacc⟩ := henv v.var
    (Expr.mem_vars (Expr.mem_nodes_self _) rfl)
  obtain rfl := Option.some.inj (hvar.symm.trans hdom')
  obtain ⟨c, hc, hcacc, hmem⟩ := Domain.meet_spec hacc hexp
  have hrefine : m.refine (.ident info v) env expected =
      .ok (if c.isEmpty then none else some (env.set v.var c)) := by
    have hc' : (Entry.ident t).domain.meet value expected = .ok c := hc
    simp only [refine, ht, eval, hvalue, ok_bind, hc', pure_eq_ok]
  refine ⟨_, hrefine, ?_, ?_⟩
  · intro env' henv'
    split at henv'
    · cases henv'
    · obtain rfl := Option.some.inj henv'
      exact Env.Revises.set (by rw [hvalue]; rfl) hvar hcacc
  · rintro σ d hσ rfl hd
    have hdc : σ v.var ∈ c := (hmem _).mpr ⟨hσ v.var value hvalue, hd⟩
    rw [Value.isEmpty_eq_false hdc]
    refine ⟨_, rfl, ?_⟩
    have hset := hσ.set (v := v.var) hdc
    rwa [Function.update_eq_self] at hset

lemma refinable_lit {text : String} (he : m.Models (.lit info text)) :
    m.Refinable (.lit info text) := by
  intro env dom expected _ hdom hexp
  obtain ⟨t, value, ht, hacc⟩ := he.node
  obtain rfl := Option.some.inj ((exprDomain_of_entry ht).symm.trans hdom)
  obtain ⟨c, hc, hcacc, hmem⟩ := Domain.meet_spec hacc hexp
  have hrefine : m.refine (.lit info text) env expected =
      .ok (if c.isEmpty then none else some env) := by
    have hc' : (Entry.lit t value).domain.meet value expected = .ok c := hc
    simp only [refine, ht, eval, ok_bind, hc', pure_eq_ok]
  refine ⟨_, hrefine, ?_, ?_⟩
  · intro env' henv'
    split at henv'
    · cases henv'
    · obtain rfl := Option.some.inj henv'
      exact Env.Revises.refl env
  · rintro σ d hσ ⟨t', value', ht', hd'⟩ hd
    obtain ⟨rfl, rfl⟩ := Entry.lit.inj (Option.some.inj (ht.symm.trans ht'))
    rw [Value.isEmpty_eq_false ((hmem d).mpr ⟨hd', hd⟩)]
    exact ⟨env, rfl, hσ⟩

lemma refines_none {e : Expr} {env : Env} {expected : Value}
    (h : ∀ σ d, env.Describes σ → m.Yields σ e d → d ∉ expected) :
    m.Refines e env expected none :=
  ⟨nofun, fun σ d hσ hd hdexp => (h σ d hσ hd hdexp).elim⟩

lemma refinable_unary {op : UnOp} {x : Expr} (he : m.Models (.unary info op x))
    (hrefine : m.Refinable x) : m.Refinable (.unary info op x) := by
  intro env dom expected henv hdom hexp
  have hx : x ∈ (Expr.unary info op x).operands := List.mem_singleton_self x
  have hvars : ∀ v ∈ x.vars, env.Binds m v := fun v hv => henv v (Expr.mem_vars_of_operand hx hv)
  obtain ⟨t, definition, inverse, doms, ht, hdoms, _, hinv⟩ := he.node
  obtain rfl := Option.some.inj ((exprDomain_of_entry ht).symm.trans hdom)
  obtain ⟨domx, rfl, hdomx⟩ := Forward.operands_unary hdoms
  obtain ⟨a, ha, hacc, hsound⟩ := eval_at (he.operand hx) hvars hdomx
  obtain ⟨narrowed, hn, hnacc, hnsound⟩ := invert_spec definition hinv hexp
    (.cons hacc .nil)
  cases narrowed with
  | none =>
    refine ⟨none, by simp only [refine, ht, ha, ok_bind, hn, pure_eq_ok], refines_none ?_⟩
    rintro σ d hσ ⟨⟨y, hy, hd⟩, _⟩ hdexp
    obtain ⟨_, hnone, _⟩ := hnsound [y] d (.cons (hsound σ y hσ hy) .nil) hd hdexp
    cases hnone
  | some narrowed =>
    obtain ⟨a', rfl, hacc'⟩ := Forward.operands_unary (hnacc narrowed rfl)
    obtain ⟨result, hresult, hrevises, hkeeps⟩ := hrefine hvars hdomx hacc'
    refine ⟨result, by simp only [refine, ht, ha, ok_bind, hn, hresult], hrevises, ?_⟩
    rintro σ d hσ ⟨⟨y, hy, hd⟩, _⟩ hdexp
    obtain ⟨_, hsome, hmem⟩ := hnsound [y] d (.cons (hsound σ y hσ hy) .nil) hd hdexp
    obtain rfl := Option.some.inj hsome
    exact hkeeps σ y hσ hy (List.forall₂_cons.mp hmem).1

lemma refinable_binary {op : BinOp} {l r : Expr} (he : m.Models (.binary info op l r))
    (hrefinel : m.Refinable l) (hrefiner : m.Refinable r) : m.Refinable (.binary info op l r) := by
  intro env dom expected henv hdom hexp
  have hl : l ∈ (Expr.binary info op l r).operands := List.mem_cons_self
  have hr : r ∈ (Expr.binary info op l r).operands := List.mem_cons_of_mem _ List.mem_cons_self
  have hvarsl : ∀ v ∈ l.vars, env.Binds m v :=
    fun v hv => henv v (Expr.mem_vars_of_operand hl hv)
  have hvarsr : ∀ v ∈ r.vars, env.Binds m v :=
    fun v hv => henv v (Expr.mem_vars_of_operand hr hv)
  obtain ⟨t, definition, inverse, doms, ht, hdoms, _, hinv⟩ := he.node
  obtain rfl := Option.some.inj ((exprDomain_of_entry ht).symm.trans hdom)
  obtain ⟨doml, domr, rfl, hdoml, hdomr⟩ := Forward.operands_binary hdoms
  obtain ⟨a, ha, hacca, hsounda⟩ := eval_at (he.operand hl) hvarsl hdoml
  obtain ⟨b, hb, haccb, hsoundb⟩ := eval_at (he.operand hr) hvarsr hdomr
  obtain ⟨narrowed, hn, hnacc, hnsound⟩ := invert_spec definition hinv hexp
    (.cons hacca (.cons haccb .nil))
  cases narrowed with
  | none =>
    refine ⟨none, by simp only [refine, ht, ha, hb, ok_bind, hn, pure_eq_ok], refines_none ?_⟩
    rintro σ d hσ ⟨⟨y, z, hy, hz, hd⟩, _⟩ hdexp
    obtain ⟨_, hnone, _⟩ := hnsound [y, z] d
      (.cons (hsounda σ y hσ hy) (.cons (hsoundb σ z hσ hz) .nil)) hd hdexp
    cases hnone
  | some narrowed =>
    obtain ⟨a', b', rfl, hacca', haccb'⟩ := Forward.operands_binary (hnacc narrowed rfl)
    obtain ⟨resultl, hresultl, hrevisesl, hkeepsl⟩ := hrefinel hvarsl hdoml hacca'
    have hdata : ∀ σ d, env.Describes σ → m.Yields σ (.binary info op l r) d → d ∈ expected →
        ∃ y z, m.Yields σ l y ∧ m.Yields σ r z ∧ y ∈ a' ∧ z ∈ b' := by
      rintro σ d hσ ⟨⟨y, z, hy, hz, hd⟩, _⟩ hdexp
      obtain ⟨_, hsome, hmem⟩ := hnsound [y, z] d
        (.cons (hsounda σ y hσ hy) (.cons (hsoundb σ z hσ hz) .nil)) hd hdexp
      obtain rfl := Option.some.inj hsome
      obtain ⟨hya, hmem⟩ := List.forall₂_cons.mp hmem
      exact ⟨y, z, hy, hz, hya, (List.forall₂_cons.mp hmem).1⟩
    cases resultl with
    | none =>
      refine ⟨none, by simp only [refine, ht, ha, hb, ok_bind, hn, hresultl, pure_eq_ok],
        refines_none ?_⟩
      intro σ d hσ hyields hdexp
      obtain ⟨y, z, hy, _, hya, _⟩ := hdata σ d hσ hyields hdexp
      obtain ⟨_, hnone, _⟩ := hkeepsl σ y hσ hy hya
      cases hnone
    | some envl =>
      have hrevises := hrevisesl envl rfl
      obtain ⟨result, hresult, hrevisesr, hkeepsr⟩ := hrefiner
        (fun v hv => hrevises.binds (hvarsr v hv)) hdomr haccb'
      refine ⟨result, by simp only [refine, ht, ha, hb, ok_bind, hn, hresultl, hresult],
        fun env' henv' => hrevises.trans (hrevisesr env' henv'), ?_⟩
      intro σ d hσ hyields hdexp
      obtain ⟨y, z, hy, hz, hya, hzb⟩ := hdata σ d hσ hyields hdexp
      obtain ⟨_, hsome, hσl⟩ := hkeepsl σ y hσ hy hya
      obtain rfl := Option.some.inj hsome
      exact hkeepsr σ z hσl hz hzb

theorem refinable_of_models {e : Expr} (he : m.Models e) : m.Refinable e := by
  induction e with
  | ident info v => exact refinable_ident he
  | lit info text => exact refinable_lit he
  | unary info op x ih => exact refinable_unary he (ih (he.operand List.mem_cons_self))
  | binary info op l r ihl ihr =>
    exact refinable_binary he (ihl (he.operand List.mem_cons_self))
      (ihr (he.operand (List.mem_cons_of_mem _ List.mem_cons_self)))

end Model

end Tracewise
