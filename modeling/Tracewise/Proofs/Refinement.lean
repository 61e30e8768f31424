import Tracewise.Proofs.Locality
import Tracewise.Proofs.Workshop

namespace Tracewise

open Fallible

namespace Model

theorem eval_holds_yields {m : Model} {programs : List Program} (hm : m.Standard programs)
    {e : Expr} (hids : Expr.Unambiguous (e.nodes ++ programs.flatMap Program.exprs))
    (hentries : ∀ x ∈ e.nodes, (m.entry? x).isSome) {env : Env} (henv : env.Supplies m e) :
    ∃ dom value, m.exprDomain? e = some dom ∧ m.eval env e = .ok value ∧
      dom.accepts value = true ∧
      ∀ σ d, env.Describes σ → m.Yields σ e d → d ∈ value :=
  eval_of_supplies (hm.evaluates hids hentries) henv

theorem refine_keeps_stores {m : Model} {programs : List Program} (hm : m.Standard programs)
    {e : Expr} (hids : Expr.Unambiguous (e.nodes ++ programs.flatMap Program.exprs))
    (hentries : ∀ x ∈ e.nodes, (m.entry? x).isSome)
    (hidents : ∀ x ∈ e.nodes, ∀ v ∈ x.ident?, m.exprDomain? x = m.varDomain? v.var)
    {env : Env} (henv : ∀ v ∈ e.vars, env.Binds m v) {dom : Domain}
    (hdom : m.exprDomain? e = some dom) {expected : Value} (hexp : dom.accepts expected = true) :
    ∃ result, m.refine e env expected = .ok result ∧
      (∀ env', result = some env' → ∀ σ d, env.Describes σ → m.Yields σ e d → d ∈ expected →
        env'.Describes σ) ∧
      (result = none → ∀ σ d, env.Describes σ → m.Yields σ e d → d ∉ expected) := by
  obtain ⟨result, hresult, _, hkeeps⟩ :=
    refinable_of_models (hm.models hids hentries hidents) henv hdom hexp
  refine ⟨result, hresult, ?_, ?_⟩
  · rintro env' rfl σ d hσ hyields hd
    obtain ⟨_, hsome, hσ'⟩ := hkeeps σ d hσ hyields hd
    obtain rfl := Option.some.inj hsome
    exact hσ'
  · rintro rfl σ d hσ hyields hd
    obtain ⟨_, hnone, _⟩ := hkeeps σ d hσ hyields hd
    cases hnone

theorem refine_narrows_vars {m : Model} {programs : List Program} (hm : m.Standard programs)
    {e : Expr} (hids : Expr.Unambiguous (e.nodes ++ programs.flatMap Program.exprs))
    (hentries : ∀ x ∈ e.nodes, (m.entry? x).isSome) {env : Env} (henv : env.Supplies m e)
    {dom : Domain} (hdom : m.exprDomain? e = some dom) {expected : Value}
    (hexp : dom.accepts expected = true) :
    ∃ result, m.refine e env expected = .ok result ∧ ∀ env', result = some env' →
      env.SameVars env' ∧
      (∀ v a b, env.get? v = some a → env'.get? v = some b → b ≤ a) ∧
      (∀ v, v ∉ e.vars → env'.get? v = env.get? v) ∧
      ∀ v ∈ e.vars, ∃ b, env'.get? v = some b ∧ b.isEmpty = false := by
  obtain ⟨result, hresult⟩ := exists_refine (hm.evaluates hids hentries) henv hdom hexp
  refine ⟨result, hresult, ?_⟩
  rintro env' rfl
  have hwrites := refine_writes hresult
  refine ⟨hwrites.sameVars, ?_, fun v => hwrites.get?_of_notMem, fun v => hwrites.nonempty_of_mem⟩
  intro v a b ha hb
  obtain ⟨a', ha', hba⟩ := hwrites.le v b hb
  obtain rfl := Option.some.inj (ha.symm.trans ha')
  exact hba

end Model

namespace Climb

def env : Env := .ofList [(x.var, .ints (.between 0 3)), (y.var, .ints (.between 2 2))]

lemma describes_store : env.Describes store := by decide +kernel

theorem eval_below_holds_result :
    ∃ value, model.eval env below = .ok value ∧ .bool true ∈ value := by
  have hsupplies : env.Supplies model below :=
    Env.supplies_of_binds (by decide +kernel) (by decide +kernel)
  obtain ⟨dom, value, _, hvalue, _, hholds⟩ := Model.eval_holds_yields standard_model
    (by decide +kernel) (by decide +kernel) hsupplies
  exact ⟨value, hvalue, hholds store (.bool true) describes_store store_yields_below⟩

theorem refine_below_keeps_store :
    ∃ env', model.refine below env (.bools (.singleton true)) = .ok (some env') ∧
      env'.Describes store := by
  have hbinds : ∀ v ∈ below.vars, env.Binds model v := by decide +kernel
  have hdom : model.exprDomain? below = some .bool := by decide +kernel
  have hexp : Domain.bool.accepts (.bools (.singleton true)) = true := rfl
  obtain ⟨result, hresult, hsome, hnone⟩ := Model.refine_keeps_stores standard_model
    (by decide +kernel) (by decide +kernel) (by decide +kernel) hbinds hdom hexp
  cases result with
  | none => exact absurd rfl (hnone rfl store (.bool true) describes_store store_yields_below)
  | some env' =>
    exact ⟨env', hresult, hsome env' rfl store (.bool true) describes_store store_yields_below rfl⟩

def stray : Env := env.set ⟨9⟩ (.ints .empty)

theorem refine_below_keeps_stray :
    ∃ env', model.refine below stray (.bools (.singleton true)) = .ok (some env') ∧
      stray.SameVars env' ∧
      (∀ v a b, stray.get? v = some a → env'.get? v = some b → b ≤ a) ∧
      env'.get? ⟨9⟩ = some (.ints .empty) ∧
      ∃ b, env'.get? x.var = some b ∧ b.isEmpty = false := by
  have hsupplies : stray.Supplies model below :=
    Env.supplies_of_binds (by decide +kernel) (by decide +kernel)
  have hdom : model.exprDomain? below = some .bool := by decide +kernel
  obtain ⟨result, hresult, hnarrows⟩ := Model.refine_narrows_vars standard_model
    (by decide +kernel) (by decide +kernel) hsupplies hdom
    (show Domain.bool.accepts (.bools (.singleton true)) = true from rfl)
  have hsome : (model.refine below stray (.bools (.singleton true))).toOption.any
      Option.isSome = true := by decide +kernel
  obtain ⟨found, hfound, hsome⟩ := exists_of_toOption_any hsome
  obtain rfl := Except.ok.inj (hresult.symm.trans hfound)
  obtain ⟨env', rfl⟩ := Option.isSome_iff_exists.mp hsome
  obtain ⟨hvars, hle, hframe, hread⟩ := hnarrows env' rfl
  refine ⟨env', hresult, hvars, hle, ?_, hread x.var (by decide +kernel)⟩
  rw [hframe ⟨9⟩ (by decide +kernel)]
  decide +kernel

end Climb

end Tracewise
