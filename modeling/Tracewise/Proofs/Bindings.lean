import Tracewise.Proofs.Regularity

namespace Tracewise

open Fallible Tracewise.Partition

namespace Env

variable {env other : Env}

lemma isBottom_eq_false_iff :
    env.isBottom = false ↔ ∀ v a, env.get? v = some a → a.isEmpty = false := by
  simp only [isBottom, List.any_eq_false, Prod.forall, mem_toList, Bool.not_eq_true]

lemma isBottom_set {v : VarId} {a : Value} (henv : env.isBottom = false) (ha : a.isEmpty = false) :
    (env.set v a).isBottom = false := by
  rw [isBottom_eq_false_iff] at henv ⊢
  intro w b hb
  rw [get?_set] at hb
  split at hb
  · obtain rfl := Option.some.inj hb
    exact ha
  · exact henv w b hb

lemma isBottom_foldl_set {bindings : List (VarId × Value)} (henv : env.isBottom = false)
    (h : ∀ b ∈ bindings, b.2.isEmpty = false) :
    (bindings.foldl (fun env b => env.set b.1 b.2) env).isBottom = false :=
  List.foldlRecOn (motive := fun env : Env => env.isBottom = false) bindings _ henv
    fun _ henv b hb => isBottom_set henv (h b hb)

lemma isBottom_of_le (hvars : env.SameVars other) (hle : env ≤ other)
    (henv : env.isBottom = false) : other.isBottom = false := by
  rw [isBottom_eq_false_iff] at henv ⊢
  intro v b hb
  obtain ⟨a, ha⟩ := hvars.get? hb
  obtain ⟨b', hb', hab⟩ := hle v a ha
  obtain rfl := Option.some.inj (hb.symm.trans hb')
  exact Value.isEmpty_eq_false_of_le hab (henv v a ha)

end Env

namespace Config

variable {c : Config} {p : Program} {m : Model}

lemma isSome_get?_startEnv {v : VarId} :
    ((c.startEnv p m).get? v).isSome ↔
      ((Env.top p m).get? v).isSome ∨ (c.initial.get? v).isSome := by
  rw [startEnv, isSome_get?_foldl_set]
  simp only [Env.mem_toList, Option.isSome_iff_exists]

lemma startEnv_isBottom
    (htops : ∀ d ∈ p.decls, ∀ dom ∈ m.varDomain? d.id, dom.top.isEmpty = false)
    (hinitial : c.initial.isBottom = false) : (c.startEnv p m).isBottom = false := by
  apply Env.isBottom_foldl_set
  · apply Env.isBottom_foldl_set rfl
    intro b hb
    obtain ⟨d, hd, hb⟩ := List.mem_filterMap.mp hb
    obtain ⟨dom, hdom, rfl⟩ := Option.map_eq_some_iff.mp hb
    exact htops d (Array.mem_toList_iff.mp hd) dom hdom
  · rintro ⟨v, a⟩ hb
    exact Env.isBottom_eq_false_iff.mp hinitial v a ((Env.mem_toList c.initial v a).mp hb)

end Config

lemma Model.transfer_isBottom {m : Model} {atom : Option Atom} {env f : Env}
    (hread : ∀ x dom, atom = some (.read x) → m.varDomain? x.var = some dom →
      dom.top.isEmpty = false)
    (henv : env.isBottom = false) (h : m.transfer atom env = .ok (some f)) :
    f.isBottom = false := by
  cases atom with
  | none =>
    cases h
    exact henv
  | some a =>
    cases a with
    | assign x e =>
      obtain ⟨value, _, h⟩ := bind_eq_ok h
      obtain ⟨hempty, ⟨⟩⟩ := Option.ite_none_left_eq_some.mp (Except.ok.inj h)
      exact Env.isBottom_set henv (Bool.eq_false_of_not_eq_true hempty)
    | read x =>
      obtain ⟨dom, hdom, rfl⟩ := Option.map_eq_some_iff.mp (Except.ok.inj h)
      exact Env.isBottom_set henv (hread x dom rfl hdom)
    | assume cond purpose =>
      exact (refine_writes h).induction (P := fun env => env.isBottom = false)
        (fun _ _ _ _ henv _ _ hb => Env.isBottom_set henv hb) henv
    | use x =>
      cases h
      exact henv

namespace Engine.Ranged

variable {E : Engine}

lemma preserves_bindings (hE : E.Ranged) (hstart : E.startEnv.isBottom = false)
    (hreads : ∀ (n : NodeId) node x dom, E.graph.nodes[n]? = some node →
      node.atom = some (.read x) → E.model.varDomain? x.var = some dom → dom.top.isEmpty = false) :
    E.Preserves fun _ q => q.Regular E ∧ q.env.isBottom = false where
  start node q hnode h := by
    refine ⟨hE.regular_pass hnode hE.regular_start h, ?_⟩
    exact Model.transfer_isBottom (fun x dom => hreads _ node x dom hnode) hstart (pass_eq_ok h).2
  pass k n node p q hk hnode hp h := by
    refine ⟨hE.regular_pass hnode hp.1 h, ?_⟩
    exact Model.transfer_isBottom (fun x dom => hreads n node x dom hnode) hp.2 (pass_eq_ok h).2
  merge n p q r hp hq h := by
    have hr := hp.1.merge hq.1 h
    refine ⟨hr, ?_⟩
    obtain ⟨env, henv, h⟩ := bind_eq_ok h
    cases h
    have hvars := hp.1.fits.sameVars.symm
    have hle := (Env.join_le_iff hp.1.fits.typed hq.1.fits.typed (hvars.trans hq.1.fits.sameVars)
      hr.fits.typed henv).mp le_rfl
    exact Env.isBottom_of_le (hvars.trans hr.fits.sameVars) hle.1 hp.2
  widen n old p q hold hp h := by
    have hq := hp.1.widenPart (fun o ho => (hold o ho).1) h
    refine ⟨hq, ?_⟩
    rcases widenPart_eq_ok h with rfl | ⟨o, ho, env, henv, rfl⟩
    · exact hp.2
    · have ho := hold o ho
      have hvars := ho.1.fits.sameVars.symm
      have hle := Env.le_widen ho.1.fits.typed hp.1.fits.typed (hvars.trans hp.1.fits.sameVars) henv
      exact Env.isBottom_of_le (hvars.trans hq.fits.sameVars) hle ho.2

end Engine.Ranged

namespace Analysis

variable {c : Config} {m : Model} {p : Program}

theorem environments_keep_domains (hm : m.Interprets p)
    (hcheck : m.check (.ofProgram p) c.initial = .ok ()) (steps : Nat) :
    ∃ s, (c.engine (.ofProgram p) m).after steps = .ok s ∧ ∀ n, ∀ q ∈ s.stateOf n,
      (∀ v, (q.env.get? v).isSome ↔
        ((Env.top p m).get? v).isSome ∨ (c.initial.get? v).isSome) ∧
      (∀ v a, q.env.get? v = some a → ∃ dom, m.varDomain? v = some dom ∧
        dom.accepts a = true ∧ dom.le a dom.top = .ok true) ∧
      ((∀ d ∈ p.decls, ∀ dom ∈ m.varDomain? d.id, dom.top.isEmpty = false) →
        c.initial.isBottom = false → q.env.isBottom = false) := by
  have hE := ranged_of_check hm.serves hcheck
  obtain ⟨s, hs⟩ := hE.exists_after steps
  refine ⟨s, hs, ?_⟩
  intro n q hq
  have hregular := hE.preserves_regular.after hE.graph hs n q hq
  refine ⟨?_, ?_, ?_⟩
  · intro v
    rw [← hregular.fits.sameVars v]
    exact Config.isSome_get?_startEnv
  · intro v a ha
    obtain ⟨dom, hdom, hacc⟩ := hregular.fits.typed v a ha
    exact ⟨dom, hdom, hacc, (Domain.le_eq_true_iff hacc (Domain.accepts_top dom)).mpr
      (hregular.inRange v a dom ha hdom)⟩
  · intro htops hinitial
    refine ((hE.preserves_bindings ?_ ?_).after hE.graph hs n q hq).2
    · exact Config.startEnv_isBottom htops hinitial
    · intro k node x dom hnode hatom hdom
      obtain ⟨d, hd, hx⟩ := hm.serves.declared (hE.graph.atoms k node _ hnode hatom)
        (show x.var ∈ (Atom.read x).needs from List.mem_singleton_self _)
      exact htops d hd dom (hx ▸ hdom)

end Analysis

namespace Climb

def fromBottom : Config := ⟨.envIncluded, .ofList [(x.var, .ints (.constant 0))]⟩

theorem climb_keeps_domains :
    ∃ s q, (fromBottom.engine (.ofProgram program) model).after 5 = .ok s ∧ q ∈ s.stateOf 1 ∧
      (∀ v, (q.env.get? v).isSome ↔
        ((Env.top program model).get? v).isSome ∨ (fromBottom.initial.get? v).isSome) ∧
      (∀ v a, q.env.get? v = some a → ∃ dom, model.varDomain? v = some dom ∧
        dom.accepts a = true ∧ dom.le a dom.top = .ok true) ∧
      q.env.isBottom = false := by
  obtain ⟨s, hs, hstored⟩ := Analysis.environments_keep_domains (c := fromBottom) interprets
    (toOption_eq_some (by decide +kernel)) 5
  have hsome : ((fromBottom.engine (.ofProgram program) model).after 5).toOption.any
      (fun s => !(s.stateOf 1).isEmpty) = true := by decide +kernel
  obtain ⟨s', q, hs', hq⟩ := Engine.exists_stored hsome
  obtain rfl := Except.ok.inj (hs.symm.trans hs')
  obtain ⟨hvars, hvalues, hbottom⟩ := hstored 1 q hq
  have htops : ∀ d ∈ program.decls, ∀ dom ∈ model.varDomain? d.id, dom.top.isEmpty = false := by
    decide +kernel
  exact ⟨s, q, hs, hq, hvars, hvalues, hbottom htops (by decide +kernel)⟩

end Climb

end Tracewise
