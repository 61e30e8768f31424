import Tracewise.Analysis.Basic
import Tracewise.Proofs.Graphs
import Tracewise.Proofs.Workshop

namespace Tracewise

open Fallible

lemma Failure.ofFault_eq_ok {α : Type} {x : Except Fault α} {a : α}
    (h : Failure.ofFault x = .ok a) : x = .ok a := by
  cases x with
  | error f => cases h
  | ok b =>
    cases h
    rfl

namespace Model

def Admits (m : Model) (vars : Env) : Option Atom → Prop
  | some (.assign x e) => m.Models e ∧ (∀ v ∈ e.vars, (vars.get? v).isSome) ∧
      (vars.get? x.var).isSome ∧ ∃ target source, m.varDomain? x.var = some target ∧
        m.exprDomain? e = some source ∧ target.canHold source = true
  | some (.read x) => (vars.get? x.var).isSome ∧ ∃ dom, m.varDomain? x.var = some dom
  | some (.assume cond _) => m.Models cond ∧ (∀ v ∈ cond.vars, (vars.get? v).isSome) ∧
      m.exprDomain? cond = some .bool
  | some (.use _) => True
  | none => True

lemma binds_of_typed {m : Model} {vars env : Env} (htyped : env.Typed m)
    (hvars : vars.SameVars env) {v : VarId} (hv : (vars.get? v).isSome) : env.Binds m v := by
  rw [hvars v] at hv
  obtain ⟨value, hvalue⟩ := Option.isSome_iff_exists.mp hv
  obtain ⟨dom, hdom, hacc⟩ := htyped v value hvalue
  exact ⟨dom, value, hdom, hvalue, hacc⟩

/-- The result of passing a statement: a revised environment, or none, that describes each store
the statement may lead to. -/
def Transfers (m : Model) (atom : Option Atom) (env : Env) (result : Option Env) : Prop :=
  (∀ env' ∈ result, Env.Revises m env env') ∧
    ∀ σ σ', env.Describes σ → m.Steps atom σ σ' → ∃ env' ∈ result, env'.Describes σ'

lemma transfers_self {m : Model} {atom : Option Atom} {env : Env}
    (h : ∀ σ σ', m.Steps atom σ σ' → σ' = σ) : m.Transfers atom env (some env) := by
  refine ⟨?_, fun σ σ' hσ hstep => ⟨env, rfl, h σ σ' hstep ▸ hσ⟩⟩
  rintro _ ⟨⟩
  exact Env.Revises.refl env

lemma transfer_assign_spec {m : Model} {env : Env} {x : Ident} {e : Expr} (he : m.Models e)
    (hev : ∀ v ∈ e.vars, env.Binds m v) (hx : (env.get? x.var).isSome) {target source : Domain}
    (htarget : m.varDomain? x.var = some target) (hsource : m.exprDomain? e = some source)
    (hhold : target.canHold source = true) :
    ∃ result, m.transfer (some (.assign x e)) env = .ok result ∧
      m.Transfers (some (.assign x e)) env result := by
  obtain ⟨value, hvalue, hacc, hsound⟩ := eval_at he hev hsource
  have hclamp := Domain.accepts_clamp (Domain.accepts_of_canHold hhold hacc)
  have htransfer : m.transfer (some (.assign x e)) env =
      .ok (if (target.clamp value).isEmpty then none
        else some (env.set x.var (target.clamp value))) := by
    simp only [transfer, hvalue, ok_bind, htarget, pure_eq_ok]
  refine ⟨_, htransfer, ?_, ?_⟩
  · intro env' henv'
    split at henv'
    · cases henv'
    · obtain rfl := Option.some.inj henv'
      exact Env.Revises.set hx htarget hclamp
  · intro σ σ' hσ hstep
    cases hstep with
    | @assign _ _ _ d dom hyields hdom hhas =>
      obtain rfl := Option.some.inj (htarget.symm.trans hdom)
      have hd := Domain.mem_clamp (hsound σ d hσ hyields) hhas
      rw [Value.isEmpty_eq_false hd]
      exact ⟨_, rfl, hσ.set hd⟩

theorem transfer_spec {m : Model} {vars env : Env} {atom : Option Atom} (h : m.Admits vars atom)
    (htyped : env.Typed m) (hvars : vars.SameVars env) :
    ∃ result, m.transfer atom env = .ok result ∧ m.Transfers atom env result := by
  have hbinds : ∀ v, (vars.get? v).isSome → env.Binds m v :=
    fun v hv => binds_of_typed htyped hvars hv
  match atom with
  | some (.assign x e) =>
    obtain ⟨he, hev, hx, target, source, htarget, hsource, hhold⟩ := h
    exact transfer_assign_spec he (fun v hv => hbinds v (hev v hv)) (hvars x.var ▸ hx) htarget
      hsource hhold
  | some (.read x) =>
    obtain ⟨hx, dom, hdom⟩ := h
    refine ⟨some (env.set x.var dom.top), by simp only [transfer, hdom]; rfl, ?_, ?_⟩
    · rintro _ ⟨⟩
      exact Env.Revises.set (hvars x.var ▸ hx) hdom (Domain.accepts_top dom)
    · intro σ σ' hσ hstep
      cases hstep with
      | read hdom' hhas =>
        obtain rfl := Option.some.inj (hdom.symm.trans hdom')
        exact ⟨_, rfl, hσ.set ((Domain.mem_top _ _).mpr hhas)⟩
  | some (.assume cond purpose) =>
    obtain ⟨hcond, hcv, hbool⟩ := h
    have hexp : Domain.bool.accepts (.bools (.singleton true)) = true := rfl
    obtain ⟨result, hresult, hrevises, hkeeps⟩ :=
      refinable_of_models hcond (fun v hv => hbinds v (hcv v hv)) hbool hexp
    refine ⟨result, hresult, hrevises, ?_⟩
    intro σ σ' hσ hstep
    cases hstep with
    | assume hyields => exact hkeeps σ (.bool true) hσ hyields rfl
  | some (.use x) =>
    refine ⟨some env, rfl, transfers_self ?_⟩
    rintro σ σ' ⟨⟩
    rfl
  | none =>
    refine ⟨some env, rfl, transfers_self ?_⟩
    rintro σ σ' ⟨⟩
    rfl

section Check

variable {m : Model}

lemma checkVar_eq_ok {v : Ident} (h : m.checkVar v = .ok ()) :
    ∃ dom, m.varDomain? v.var = some dom := by
  rw [checkVar] at h
  split at h
  · exact ⟨_, by assumption⟩
  · cases h

lemma checkExpr_eq_ok {e : Expr} (h : m.checkExpr e = .ok ()) :
    (∀ x ∈ e.nodes, (m.entry? x).isSome) ∧ ∀ v ∈ e.vars, (m.varDomain? v).isSome := by
  have hnodes := forM_eq_ok h
  refine ⟨fun x hx => ?_, fun v hv => ?_⟩
  · have hx := hnodes x hx
    rw [checkNode] at hx
    split at hx
    · cases hx
    · rename_i hentry
      rw [hentry]
      rfl
  · obtain ⟨x, hx, hv⟩ := List.mem_filterMap.mp hv
    obtain ⟨w, hw, rfl⟩ := Option.map_eq_some_iff.mp hv
    have hx := hnodes x hx
    rw [checkNode] at hx
    split at hx
    · cases hx
    · rw [hw] at hx
      obtain ⟨dom, hdom⟩ := checkVar_eq_ok hx
      rw [hdom]
      rfl

lemma checkInitialValue_eq_ok {p : Program} {v : VarId} {value : Value}
    (h : m.checkInitialValue p v value = .ok ()) :
    ∃ dom, m.varDomain? v = some dom ∧ dom.accepts value = true ∧
      dom.le value dom.top = .ok true := by
  rw [checkInitialValue] at h
  split at h
  · cases h
  · rename_i dom hdom
    dsimp only at h
    split at h
    · refine ⟨dom, hdom, by assumption, ?_⟩
      obtain ⟨below, hbelow, h⟩ := bind_eq_ok h
      cases below with
      | false => cases h
      | true => exact Failure.ofFault_eq_ok hbelow
    · cases h

lemma checkInitialValue_of_check {g : Graph} {initial : Env} (h : m.check g initial = .ok ())
    {v : VarId} {value : Value} (hvalue : initial.get? v = some value) :
    m.checkInitialValue g.program v value = .ok () := by
  rw [check] at h
  split at h
  · cases h
  · exact forM_eq_ok h (v, value) ((Env.mem_toList initial v value).mpr hvalue)

lemma check_eq_ok {g : Graph} {initial : Env} (h : m.check g initial = .ok ()) :
    (∀ (n : NodeId) (node : Node) (a : Atom), g.nodes[n]? = some node → node.atom = some a →
      m.checkAtom a = .ok ()) ∧ initial.Typed m := by
  constructor
  · rw [check] at h
    split at h
    · cases h
    · rename_i hgraph
      intro n node a hnode ha
      have hmem : node ∈ g.nodes.toList := Array.mem_toList_iff.mpr (Array.mem_of_getElem? hnode)
      have hcheck := forM_eq_ok hgraph node hmem
      rwa [ha] at hcheck
  · intro v value hvalue
    obtain ⟨dom, hdom, hacc, _⟩ := checkInitialValue_eq_ok (checkInitialValue_of_check h hvalue)
    exact ⟨dom, hdom, hacc⟩

lemma admits_of_check {p : Program} (hm : m.Serves p) {vars : Env}
    (hvars : ∀ d ∈ p.decls, (m.varDomain? d.id).isSome → (vars.get? d.id).isSome) {a : Atom}
    (ha : a ∈ p.body.atoms) (h : m.checkAtom a = .ok ()) : m.Admits vars (some a) := by
  have hbound : ∀ v ∈ a.needs, (m.varDomain? v).isSome → (vars.get? v).isSome := by
    intro v hv hdom
    obtain ⟨d, hd, rfl⟩ := hm.declared ha hv
    exact hvars d hd hdom
  cases a with
  | assign x e =>
    obtain ⟨_, hx, h⟩ := bind_eq_ok h
    obtain ⟨_, he, h⟩ := bind_eq_ok h
    obtain ⟨target, htarget⟩ := checkVar_eq_ok hx
    obtain ⟨hentries, hdoms⟩ := checkExpr_eq_ok he
    obtain ⟨entry, hentry⟩ := Option.isSome_iff_exists.mp (hentries e e.mem_nodes_self)
    rw [htarget, exprDomain_of_entry hentry] at h
    refine ⟨hm.models ha List.mem_cons_self hentries hdoms, ?_, ?_, target, entry.domain, htarget,
      exprDomain_of_entry hentry, ?_⟩
    · intro v hv
      exact hbound v (List.mem_cons_of_mem _ hv) (hdoms v hv)
    · apply hbound x.var List.mem_cons_self
      rw [htarget]
      rfl
    · by_contra hhold
      simp only [hhold] at h
      cases h
  | read x =>
    obtain ⟨dom, hdom⟩ := checkVar_eq_ok h
    refine ⟨?_, dom, hdom⟩
    apply hbound x.var List.mem_cons_self
    rw [hdom]
    rfl
  | use x => trivial
  | assume cond purpose =>
    obtain ⟨_, hcond, h⟩ := bind_eq_ok h
    obtain ⟨hentries, hdoms⟩ := checkExpr_eq_ok hcond
    refine ⟨hm.models ha List.mem_cons_self hentries hdoms, ?_, ?_⟩
    · intro v hv
      exact hbound v hv (hdoms v hv)
    · split at h
      · assumption
      · cases h

end Check

end Model

namespace Config

lemma foldl_set_typed {m : Model} {bindings : List (VarId × Value)} {env : Env} (henv : env.Typed m)
    (h : ∀ b ∈ bindings, ∃ dom, m.varDomain? b.1 = some dom ∧ dom.accepts b.2 = true) :
    (bindings.foldl (fun env b => env.set b.1 b.2) env).Typed m := by
  induction bindings generalizing env with
  | nil => exact henv
  | cons b bindings ih =>
    refine ih ?_ fun b hb => h b (List.mem_cons_of_mem _ hb)
    intro v value hvalue
    rw [Env.get?_set] at hvalue
    split at hvalue
    · rename_i hv
      obtain rfl := Option.some.inj hvalue
      rw [hv]
      exact h b List.mem_cons_self
    · exact henv v value hvalue

lemma isSome_get?_foldl_set {bindings : List (VarId × Value)} {env : Env} {v : VarId} :
    ((bindings.foldl (fun env b => env.set b.1 b.2) env).get? v).isSome ↔
      (env.get? v).isSome ∨ ∃ value, (v, value) ∈ bindings := by
  induction bindings generalizing env with
  | nil => simp
  | cons b bindings ih =>
    obtain ⟨w, value⟩ := b
    rw [List.foldl_cons, ih, Env.get?_set]
    by_cases hv : v = w
    · simp [hv]
    · simp [hv]

lemma startEnv_typed {c : Config} {p : Program} {m : Model} (h : c.initial.Typed m) :
    (c.startEnv p m).Typed m := by
  apply foldl_set_typed
  · apply foldl_set_typed
    · exact nofun
    · intro b hb
      obtain ⟨d, _, hb⟩ := List.mem_filterMap.mp hb
      obtain ⟨dom, hdom, rfl⟩ := Option.map_eq_some_iff.mp hb
      exact ⟨dom, hdom, Domain.accepts_top dom⟩
  · rintro ⟨v, value⟩ hb
    exact h v value ((Env.mem_toList c.initial v value).mp hb)

lemma startEnv_binds {c : Config} {p : Program} {m : Model} {d : Decl} (hd : d ∈ p.decls)
    (hdom : (m.varDomain? d.id).isSome) : ((c.startEnv p m).get? d.id).isSome := by
  obtain ⟨dom, hdom⟩ := Option.isSome_iff_exists.mp hdom
  refine isSome_get?_foldl_set.mpr (Or.inl (isSome_get?_foldl_set.mpr (Or.inr ⟨dom.top, ?_⟩)))
  exact List.mem_filterMap.mpr ⟨d, Array.mem_toList_iff.mpr hd, by rw [hdom]; rfl⟩

end Config

end Tracewise
