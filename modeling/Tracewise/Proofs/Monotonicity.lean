import Tracewise.Proofs.MonotoneTransfer
import Tracewise.Proofs.Refinement

namespace Tracewise

open Fallible

namespace Env

structure Within (env : Env) (m : Model) (e : Expr) : Prop where
  domains : ∀ x ∈ e.nodes, ∀ v ∈ x.ident?, m.exprDomain? x = m.varDomain? v.var
  binds : ∀ v ∈ e.vars, env.Binds m v
  inRange : ∀ v ∈ e.vars, ∀ a ∈ env.get? v, ∀ dom ∈ m.varDomain? v, dom.le a dom.top = .ok true

variable {m : Model} {e : Expr} {env env' : Env} {vars : List VarId}

lemma restrict_binds (h : ∀ v ∈ vars, env.Binds m v) :
    ∀ v ∈ vars, (env.restrict vars).Binds m v := by
  intro v hv
  obtain ⟨dom, a, hdom, ha, hacc⟩ := h v hv
  exact ⟨dom, a, hdom, (get?_restrict_of_mem hv).trans ha, hacc⟩

lemma restrict_le_restrict (h : ∀ v ∈ vars, env.Binds m v) (h' : ∀ v ∈ vars, env'.Binds m v)
    (hle : env.le env' m = .ok true) : env.restrict vars ≤ env'.restrict vars := by
  intro v a ha
  rw [restrict_get?_eq_some_iff] at ha
  obtain ⟨dom, b, hdom, hb, haccb⟩ := h' v ha.1
  obtain ⟨dom', a', hdom', ha', hacca⟩ := h v ha.1
  obtain rfl := Option.some.inj (hdom.symm.trans hdom')
  obtain rfl := Option.some.inj (ha.2.symm.trans ha')
  have hincluded := le_eq_true_iff_included.mp hle v a ha.2
  rw [hb, included_of_tracked hdom, Domain.le_eq_true_iff hacca haccb] at hincluded
  exact ⟨b, (get?_restrict_of_mem ha.1).trans hb, hincluded⟩

lemma Within.restrict_inRange (h : env.Within m e) : (env.restrict e.vars).InRange m := by
  intro v a dom ha hdom
  rw [restrict_get?_eq_some_iff] at ha
  obtain ⟨dom', a', hdom', ha', hacc⟩ := h.binds v ha.1
  obtain rfl := Option.some.inj (hdom.symm.trans hdom')
  obtain rfl := Option.some.inj (ha.2.symm.trans ha')
  exact (Domain.le_eq_true_iff hacc dom.accepts_top).mp (h.inRange v ha.1 a ha.2 dom hdom)

end Env

namespace Model

variable {m : Model} {programs : List Program} {e : Expr} {env env' f f' : Env}

lemma refine_restrict_eq_some_iff {vars : List VarId} (hvars : ∀ v ∈ e.vars, v ∈ vars)
    {expected : Value} :
    m.refine e (env.restrict vars) expected = .ok (some f) ↔
      ∃ g, m.refine e env expected = .ok (some g) ∧ g.restrict vars = f := by
  rw [refine_restrict hvars]
  cases m.refine e env expected with
  | error fault => simp
  | ok result => simp [Option.map_eq_some_iff]

lemma refine_binds (he : m.Models e) (henv : ∀ v ∈ e.vars, env.Binds m v) {dom : Domain}
    (hdom : m.exprDomain? e = some dom) {expected : Value} (hexp : dom.accepts expected = true)
    (h : m.refine e env expected = .ok (some f)) : ∀ v ∈ e.vars, f.Binds m v := by
  obtain ⟨_, hresult, hrevises, _⟩ := refinable_of_models he henv hdom hexp
  obtain rfl := Except.ok.inj (h.symm.trans hresult)
  exact fun v hv => (hrevises f rfl).binds (henv v hv)

lemma refine_le_refine (he : m.Models e) (henv : env.Within m e) (henv' : env'.Within m e)
    (hle : env.le env' m = .ok true) {dom : Domain} (hdom : m.exprDomain? e = some dom)
    {expected expected' : Value} (hexp : dom.accepts expected = true)
    (hexp' : dom.accepts expected' = true) (h : m.refine e env expected = .ok (some f))
    (h' : m.refine e env' expected' = .ok (some f'))
    (hread : f.restrict e.vars ≤ f'.restrict e.vars) : f.le f' m = .ok true := by
  rw [Env.le_eq_true_iff_included]
  intro v a ha
  by_cases hv : v ∈ e.vars
  · obtain ⟨domv, a', hdomv, ha', hacc⟩ := refine_binds he henv.binds hdom hexp h v hv
    obtain ⟨domv', b, hdomv', hb, hacc'⟩ := refine_binds he henv'.binds hdom hexp' h' v hv
    obtain rfl := Option.some.inj (hdomv.symm.trans hdomv')
    obtain rfl := Option.some.inj (ha.symm.trans ha')
    obtain ⟨b', hb', hab⟩ := hread v a (Env.restrict_get?_eq_some_iff.mpr ⟨hv, ha⟩)
    obtain rfl := Option.some.inj (hb.symm.trans (Env.restrict_get?_eq_some_iff.mp hb').2)
    rw [hb, Env.included_of_tracked hdomv, Domain.le_eq_true_iff hacc hacc']
    exact hab
  · rw [(refine_writes h).get?_of_notMem hv] at ha
    rw [(refine_writes h').get?_of_notMem hv]
    exact Env.le_eq_true_iff_included.mp hle v a ha

theorem eval_refine_monotone (hm : m.Standard programs)
    (hids : Expr.Unambiguous (e.nodes ++ programs.flatMap Program.exprs))
    (hentries : ∀ x ∈ e.nodes, (m.entry? x).isSome) (hlimit : m.BelowLimit e)
    (henv : env.Within m e) (henv' : env'.Within m e) (hle : env.le env' m = .ok true) :
    ∃ dom a a', m.exprDomain? e = some dom ∧ m.eval env e = .ok a ∧ m.eval env' e = .ok a' ∧
      dom.le a a' = .ok true ∧
      ∀ expected expected' f, dom.le expected expected' = .ok true →
        m.refine e env expected = .ok (some f) →
          ∃ f', m.refine e env' expected' = .ok (some f') ∧ f.le f' m = .ok true := by
  have he := hm.models hids hentries henv.domains
  have hbinds := Env.restrict_binds henv.binds
  have hbinds' := Env.restrict_binds henv'.binds
  have hrestrict := Env.restrict_le_restrict henv.binds henv'.binds hle
  have hvars : ∀ v ∈ e.vars, v ∈ e.vars := fun _ => id
  obtain ⟨dom, a, hdom, ha, hacc, _⟩ := eval_spec he henv.binds
  obtain ⟨a', ha', hacc', _⟩ := eval_at he henv'.binds hdom
  refine ⟨dom, a, a', hdom, ha, ha', ?_, ?_⟩
  · rw [Domain.le_eq_true_iff hacc hacc']
    exact eval_mono he hbinds hbinds' hrestrict ((eval_restrict hvars).trans ha)
      ((eval_restrict hvars).trans ha')
  · intro expected expected' f hexple h
    obtain ⟨hexp, hexp'⟩ := Domain.accepts_of_dispatch hexple
    rw [Domain.le_eq_true_iff hexp hexp'] at hexple
    obtain ⟨g, hg, hfg⟩ := refinesMonotonically_of_models hm.literalsInRange he hlimit hbinds
      hbinds' henv.restrict_inRange hrestrict hdom hexp hexp' hexple
      ((refine_restrict_eq_some_iff hvars).mpr ⟨f, h, rfl⟩)
    obtain ⟨f', hf', rfl⟩ := (refine_restrict_eq_some_iff hvars).mp hg
    exact ⟨f', hf', refine_le_refine he henv henv' hle hdom hexp hexp' h hf' hfg⟩

end Model

namespace Climb

def lowEnv : Env := stray.set x.var (.ints (.between 0 1))

lemma within_of_checks {env : Env} (hbinds : ∀ v ∈ below.vars, env.Binds model v)
    (hrange : ∀ v ∈ below.vars, ∀ a ∈ env.get? v, ∀ dom ∈ model.varDomain? v,
      (dom.le a dom.top).toOption = some true) : env.Within model below where
  domains := by decide +kernel
  binds := hbinds
  inRange v hv a ha dom hdom := toOption_eq_some (hrange v hv a ha dom hdom)

theorem below_monotone :
    ∃ a a' f f', model.eval lowEnv below = .ok a ∧ model.eval env below = .ok a' ∧
      Domain.bool.le a a' = .ok true ∧
      model.refine below lowEnv (.bools (.singleton true)) = .ok (some f) ∧
      model.refine below env (.bools .both) = .ok (some f') ∧ f.le f' model = .ok true := by
  have hlow : lowEnv.Within model below := within_of_checks (by decide +kernel) (by decide +kernel)
  have henv : env.Within model below := within_of_checks (by decide +kernel) (by decide +kernel)
  have hle : lowEnv.le env model = .ok true := toOption_eq_some (by decide +kernel)
  obtain ⟨dom, a, a', hdom, ha, ha', hale, hrefine⟩ := Model.eval_refine_monotone standard_model
    (by decide +kernel) (by decide +kernel) (by decide +kernel) hlow henv hle
  have hbool : model.exprDomain? below = some .bool := by decide +kernel
  obtain rfl := Option.some.inj (hdom.symm.trans hbool)
  have hsome : (model.refine below lowEnv (.bools (.singleton true))).toOption.any
      Option.isSome = true := by decide +kernel
  obtain ⟨result, hresult, hsome⟩ := exists_of_toOption_any hsome
  obtain ⟨f, rfl⟩ := Option.isSome_iff_exists.mp hsome
  obtain ⟨f', hf', hfle⟩ := hrefine _ (.bools .both) f rfl hresult
  exact ⟨a, a', f, f', ha, ha', hale, hresult, hf', hfle⟩

end Climb

end Tracewise
