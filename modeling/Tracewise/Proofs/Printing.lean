import Tracewise.Proofs.Bindings
import Tracewise.Proofs.Declarations
import Tracewise.Proofs.SharedModels

/-! Printed analyses. An analysis has a text exactly if its environments bind variables of the
program only; what they bind beyond these was given for the start. -/

namespace Tracewise

open Fallible

namespace Program

variable {p : Program} {v : VarId}

lemma declared_of_var {d : Decl} (h : p.var v = .ok d) : ∃ d ∈ p.decls, d.id = v := by
  rw [var] at h
  split at h
  · rename_i d' hd'
    exact ⟨d', Decl.mem_of_bisect hd'⟩
  · cases h

lemma undeclared_of_var (hdecls : Decl.Ascending p.decls) {fault : Fault}
    (h : p.var v = .error fault) : fault = .undeclared v p.name ∧ ¬∃ d ∈ p.decls, d.id = v := by
  rw [var] at h
  split at h
  · cases h
  · rename_i hnone
    cases h
    refine ⟨rfl, ?_⟩
    rintro ⟨d, hd⟩
    rw [(Decl.find?_eq_some_iff hdecls).mpr hd] at hnone
    cases hnone

end Program

namespace Env

variable {env : Env} {p : Program} {m : Model}

lemma belongs_iff : env.Belongs p ↔ ∀ b ∈ env.toList, ∃ d ∈ p.decls, d.id = b.1 := by
  constructor
  · intro h b hb
    exact h.of_mem hb
  · intro h v hv
    obtain ⟨a, ha⟩ := Option.isSome_iff_exists.mp hv
    exact h (v, a) ((mem_toList env v a).mpr ha)

instance : Decidable (env.Belongs p) := decidable_of_iff _ belongs_iff.symm

lemma belongs_of_text {text : String} (h : env.text p m = .ok text) : env.Belongs p := by
  rw [belongs_iff]
  intro b hb
  obtain ⟨texts, htexts, _⟩ := bind_eq_ok h
  obtain ⟨_, _, htext⟩ := exists_of_forall₂ (mapM_eq_ok htexts) hb
  obtain ⟨d, hd, _⟩ := bind_eq_ok htext
  exact Program.declared_of_var hd

lemma undeclared_of_text (hdecls : Decl.Ascending p.decls) {fault : Fault}
    (h : env.text p m = .error fault) :
    ∃ v, fault = .undeclared v p.name ∧ (env.get? v).isSome ∧ ¬∃ d ∈ p.decls, d.id = v := by
  obtain ⟨⟨v, a⟩, hb, htext⟩ := exists_of_mapM_eq_error (eq_error_of_bind h)
  obtain ⟨hfault, hv⟩ := Program.undeclared_of_var hdecls (eq_error_of_bind htext)
  refine ⟨v, hfault, ?_, hv⟩
  rw [(mem_toList env v a).mp hb]
  rfl

end Env

namespace Analysis

variable {a : Analysis}

lemma belongs_of_text {text : String} (h : a.text = .ok text) {n : NodeId} {node : Node}
    (hnode : a.graph.nodes[n]? = some node) {q : Partition} (hq : q ∈ a.stateOf node.id) :
    q.env.Belongs a.graph.program := by
  obtain ⟨texts, htexts, _⟩ := bind_eq_ok h
  obtain ⟨_, _, htext⟩ := exists_of_forall₂ (mapM_eq_ok htexts)
    (Array.mem_toList_iff.mpr (Array.mem_of_getElem? hnode))
  obtain ⟨lines, hlines, _⟩ := bind_eq_ok htext
  obtain ⟨_, _, hline⟩ := exists_of_forall₂ (mapM_eq_ok hlines) hq
  obtain ⟨envText, henv, _⟩ := bind_eq_ok hline
  exact Env.belongs_of_text henv

lemma undeclared_of_text (hdecls : Decl.Ascending a.graph.program.decls) {fault : Fault}
    (h : a.text = .error fault) :
    ∃ n, ∃ q ∈ a.stateOf n, ∃ v, fault = .undeclared v a.graph.program.name ∧
      (q.env.get? v).isSome ∧ ¬∃ d ∈ a.graph.program.decls, d.id = v := by
  obtain ⟨node, _, htext⟩ := exists_of_mapM_eq_error (eq_error_of_bind h)
  obtain ⟨q, hq, hline⟩ := exists_of_mapM_eq_error (eq_error_of_bind htext)
  exact ⟨node.id, q, hq, Env.undeclared_of_text hdecls (eq_error_of_bind hline)⟩

end Analysis

lemma Engine.Invariant.exists_stored_entry {E : Engine} {s : Progress} (hE : E.Ready)
    (hs : E.Invariant s) (hdone : s.worklist = []) : ∃ q, q ∈ s.stateOf Graph.entry := by
  obtain ⟨node, hnode, hatom⟩ := hE.graph.start
  have hid := hE.graph.ids Graph.entry node hnode
  obtain ⟨outgoing, merged, houtgoing, hmerged, hstate⟩ :=
    recompute_eq_ok (hs.recompute_of_done hdone hnode)
  rw [hid] at houtgoing hstate
  have hpass : E.pass node ⟨.empty, E.startEnv⟩ = .ok (some ⟨.extend .empty node.id, E.startEnv⟩) := by
    rw [pass, hatom]
    rfl
  obtain ⟨result, hresult, hmem⟩ :=
    (filterMapM_eq_ok houtgoing).1 _ (mem_incoming.mpr (.inl ⟨rfl, rfl⟩))
  obtain rfl := Except.ok.inj (hpass.symm.trans hresult)
  have hcondenses := MergeRule.mergeAll_spec (hE.outgoing_spec hs.fits hnode houtgoing).1 hmerged
  obtain ⟨r, hr, _⟩ := hcondenses.covers _ (hmem _ rfl)
  by_cases hwidening : node.widening = true
  · rw [if_pos hwidening] at hstate
    obtain ⟨_, hnew, _⟩ :=
      widenState_spec (hs.fits Graph.entry) hcondenses.fits hcondenses.apart hstate
    obtain ⟨t, ht, _⟩ := hnew r hr
    exact ⟨t, ht⟩
  · rw [if_neg hwidening] at hstate
    exact ⟨r, hstate ▸ hr⟩

lemma Config.startEnv_belongs_iff {c : Config} {p : Program} {m : Model} :
    (c.startEnv p m).Belongs p ↔ c.initial.Belongs p := by
  constructor
  · intro h v hv
    exact h v (isSome_get?_startEnv.mpr (.inr hv))
  · exact startEnv_belongs

lemma Model.Interprets.ascending {m : Model} {p : Program} (h : m.Interprets p) :
    Decl.Ascending p.decls := by
  obtain ⟨w, programs, hw, hbuilds, hp, _⟩ := h
  obtain ⟨b, hb, body, rfl, _⟩ := hbuilds p hp
  exact hw.ascending b hb

namespace Analysis

variable {c : Config} {m : Model} {p : Program} {fuel : Nat} {a : Analysis}

lemma stored_belongs_iff (hm : m.Interprets p) (h : ofProgram c m p fuel = .ok a) {n : NodeId}
    {q : Partition} (hq : q ∈ a.stateOf n) : q.env.Belongs p ↔ c.initial.Belongs p := by
  obtain ⟨_, _, _, hinv⟩ := invariant_of_ofProgram hm h
  have hvars := (hinv.fits n q hq).sameVars
  rw [← Config.startEnv_belongs_iff (m := m)]
  exact ⟨fun hbelongs => hbelongs.of_sameVars hvars.symm, fun hbelongs => hbelongs.of_sameVars hvars⟩

theorem printed_iff_initial_belongs (hm : m.Interprets p) (h : ofProgram c m p fuel = .ok a) :
    ((∀ n, ∀ q ∈ a.stateOf n, q.env.Belongs p) ↔ c.initial.Belongs p) ∧
      ((∃ text, a.text = .ok text) ↔ c.initial.Belongs p) ∧
      ∀ fault, a.text = .error fault → ∃ v, fault = .undeclared v p.name ∧
        (c.initial.get? v).isSome ∧ ¬∃ d ∈ p.decls, d.id = v := by
  obtain ⟨hgraph, _, hE, hinv⟩ := invariant_of_ofProgram hm h
  have hprogram : a.graph.program = p := by rw [hgraph]; rfl
  obtain ⟨q₀, hq₀⟩ := hinv.exists_stored_entry hE rfl
  have hfault : ∀ fault, a.text = .error fault → ∃ v, fault = .undeclared v p.name ∧
      (c.initial.get? v).isSome ∧ ¬∃ d ∈ p.decls, d.id = v := by
    intro fault hfault
    obtain ⟨n, q, hq, v, hname, hv, hundeclared⟩ :=
      undeclared_of_text (hprogram.symm ▸ hm.ascending) hfault
    rw [hprogram] at hname hundeclared
    refine ⟨v, hname, ?_, hundeclared⟩
    rw [← (hinv.fits n q hq).sameVars v] at hv
    refine (Config.isSome_get?_startEnv.mp hv).resolve_left fun htop => hundeclared ?_
    exact Env.top_belongs p m v htop
  refine ⟨⟨?_, ?_⟩, ⟨?_, ?_⟩, hfault⟩
  · intro hstored
    exact (stored_belongs_iff hm h hq₀).mp (hstored Graph.entry q₀ hq₀)
  · intro hinitial n q hq
    exact (stored_belongs_iff hm h hq).mpr hinitial
  · rintro ⟨text, htext⟩
    obtain ⟨node, hnode, _⟩ := hE.graph.start
    have hid := hE.graph.ids Graph.entry node hnode
    have hbelongs := belongs_of_text htext (hgraph ▸ hnode) (hid.symm ▸ hq₀)
    rw [hprogram] at hbelongs
    exact (stored_belongs_iff hm h hq₀).mp hbelongs
  · intro hinitial
    cases htext : a.text with
    | ok text => exact ⟨text, rfl⟩
    | error fault =>
      obtain ⟨v, _, hv, hundeclared⟩ := hfault fault htext
      exact absurd (hinitial v hv) hundeclared

end Analysis

namespace Beside

lemma interprets : model.Interprets Climb.program := by
  refine ⟨workshop, programs, reachable, builds, List.mem_cons_of_mem _ List.mem_cons_self, ?_⟩
  exact Model.standard_of_isSome rfl (by decide +kernel)

theorem climb_printed :
    ∃ a text, Analysis.ofProgram config model Climb.program 40 = .ok a ∧ a.text = .ok text ∧
      ∀ n, ∀ q ∈ a.stateOf n, q.env.Belongs Climb.program := by
  have hsome : (Analysis.ofProgram config model Climb.program 40).toOption.isSome = true := by
    decide +kernel
  obtain ⟨a, ha⟩ := exists_of_toOption_isSome hsome
  obtain ⟨hstored, hprinted, _⟩ := Analysis.printed_iff_initial_belongs interprets ha
  have hinitial : config.initial.Belongs Climb.program := by decide +kernel
  obtain ⟨text, htext⟩ := hprinted.mpr hinitial
  exact ⟨a, text, ha, htext, hstored.mpr hinitial⟩

def lit : Config := ⟨.default, .set .empty lamp.var (.bools (.singleton true))⟩

theorem lit_climb_not_printed :
    model.Interprets Climb.program ∧ ∃ a, Analysis.ofProgram lit model Climb.program 40 = .ok a ∧
      (∃ q ∈ a.stateOf Graph.entry, ¬q.env.Belongs Climb.program) ∧ ∀ text, a.text ≠ .ok text := by
  have hfails : (Analysis.ofProgram lit model Climb.program 40).toOption.any (fun a =>
      (a.stateOf Graph.entry).any (fun q => !decide (q.env.Belongs Climb.program)) &&
        a.text.toOption.isNone) = true := by decide +kernel
  obtain ⟨a, ha, hfails⟩ := exists_of_toOption_any hfails
  obtain ⟨hstored, htext⟩ := Bool.and_eq_true_iff.mp hfails
  obtain ⟨q, hq, hbelongs⟩ := List.any_eq_true.mp hstored
  refine ⟨interprets, a, ha, ⟨q, hq, by simpa using hbelongs⟩, ?_⟩
  intro text heq
  rw [heq] at htext
  cases htext

end Beside

end Tracewise
