import Tracewise.Analysis.Finding
import Tracewise.Proofs.Fixpoint

namespace Tracewise

open Fallible

namespace Engine

variable {E : Engine} {s : Progress}

lemma Invariant.covers (hE : E.Ready) (hs : E.Invariant s) (hdone : s.worklist = []) {σ₀ σ : Store}
    (hσ₀ : E.startEnv.Describes σ₀) {path : List NodeId} {n : NodeId}
    (hexec : E.graph.Executes E.model σ₀ path n σ) :
    ∃ q ∈ s.stateOf n, q.env.Describes σ ∧ path ⊆ q.trace.nodes := by
  induction hexec with
  | @entry node σ hnode hstep =>
    obtain ⟨_, hcovers, _⟩ := hE.recompute_spec hs.fits hnode (hs.recompute_of_done hdone hnode)
    have hstart : ⟨.empty, E.startEnv⟩ ∈ E.incoming s Graph.entry :=
      mem_incoming.mpr (Or.inl ⟨rfl, rfl⟩)
    obtain ⟨q, hq, hqσ, _, hqn⟩ := hcovers _ hstart σ₀ σ hσ₀ hstep
    exact ⟨q, hq, hqσ, List.cons_subset.mpr ⟨hqn, List.nil_subset _⟩⟩
  | @next path n n' node σ σ' _ hedge hnode hstep ih =>
    obtain ⟨p, hp, hpσ, hpath⟩ := ih
    obtain ⟨_, hcovers, _⟩ := hE.recompute_spec hs.fits hnode (hs.recompute_of_done hdone hnode)
    have hin : p ∈ E.incoming s n' :=
      mem_incoming.mpr (Or.inr ⟨n, (hE.graph.preds n n').mpr hedge, hp⟩)
    obtain ⟨q, hq, hqσ, htrace, hqn⟩ := hcovers p hin σ σ' hpσ hstep
    refine ⟨q, hq, hqσ, ?_⟩
    intro k hk
    rcases List.mem_append.mp hk with hk | hk
    · exact htrace (hpath hk)
    · rw [List.mem_singleton.mp hk]
      exact hqn

lemma Invariant.covers_arrival (hE : E.Ready) (hs : E.Invariant s) (hdone : s.worklist = [])
    {σ₀ σ : Store} (hσ₀ : E.startEnv.Describes σ₀) {path : List NodeId} {n : NodeId} {node : Node}
    (hnode : E.graph.nodes[n]? = some node) {atom : Atom} (hatom : node.atom = some atom)
    (harrives : E.graph.Arrives E.model σ₀ path n σ) :
    ∃ k ∈ E.graph.predsOf n, ∃ q ∈ s.stateOf k, q.env.Describes σ ∧ path ⊆ q.trace.nodes := by
  rcases harrives with ⟨_, rfl, _⟩ | ⟨k, hexec, hedge⟩
  · obtain ⟨start, hstart, hnone⟩ := hE.graph.start
    obtain rfl := Option.some.inj (hstart.symm.trans hnode)
    rw [hnone] at hatom
    cases hatom
  · exact ⟨k, (hE.graph.preds k n).mpr hedge, hs.covers hE hdone hσ₀ hexec⟩

end Engine

namespace Analysis

variable {c : Config} {m : Model} {p : Program} {fuel : Nat} {a : Analysis}

theorem ofProgram_covers_executions (hm : m.Interprets p) (h : ofProgram c m p fuel = .ok a)
    {σ₀ σ : Store} (hσ₀ : (c.startEnv p m).Describes σ₀) {path : List NodeId} {n : NodeId}
    (hexec : (Graph.ofProgram p).Executes m σ₀ path n σ) :
    ∃ q ∈ a.stateOf n, q.env.Describes σ ∧ ∀ k ∈ path, q.trace.contains k = true := by
  obtain ⟨_, _, hE, hinv⟩ := invariant_of_ofProgram hm h
  obtain ⟨q, hq, hqσ, hpath⟩ := hinv.covers hE rfl hσ₀ hexec
  exact ⟨q, hq, hqσ, fun k hk => Trace.contains_iff.mpr (hpath hk)⟩

lemma mayBeFalse_of_mem {v : Value} (h : Datum.bool false ∈ v) : v.mayBeFalse = true := by
  cases v with
  | bools s => exact (BoolSet.mem_iff _ _).mp h
  | ints i => cases h
  | elems s => cases h

lemma check?_eq_some {kind : PurposeKind} {node : Node} {check : Check}
    (h : Node.check? kind node = some check) :
    check.node = node.id ∧ node.atom = some (.assume check.cond (some check.purpose)) := by
  rw [Node.check?] at h
  split at h
  · rename_i hatom
    split at h
    · cases h
      exact ⟨rfl, hatom⟩
    · cases h
  · cases h

lemma check?_of_assume {node : Node} {cond : Expr} {purpose : Purpose}
    (h : node.atom = some (.assume cond (some purpose))) :
    Node.check? purpose.kind node = some ⟨node.id, cond, purpose⟩ := by
  simp only [Node.check?, h, if_true]

lemma exists_evalAt {n : NodeId} {e : Expr}
    (h : ∀ k ∈ a.graph.predsOf n, ∀ q ∈ a.stateOf k, ∃ v, a.model.eval q.env e = .ok v) :
    ∃ values, a.evalAt n e = .ok values ∧ ∀ k ∈ a.graph.predsOf n, ∀ q ∈ a.stateOf k,
      ∃ v, a.model.eval q.env e = .ok v ∧ (q.trace.extend n, v) ∈ values := by
  obtain ⟨values, hvalues⟩ : ∃ values, a.evalAt n e = .ok values := by
    apply exists_mapM
    intro q hq
    obtain ⟨k, hk, hq⟩ := List.mem_flatMap.mp hq
    obtain ⟨v, hv⟩ := h k hk q hq
    exact ⟨_, by rw [hv]; rfl⟩
  refine ⟨values, hvalues, fun k hk q hq => ?_⟩
  obtain ⟨v, hv⟩ := h k hk q hq
  obtain ⟨result, hresult, hpair⟩ :=
    exists_of_forall₂ (mapM_eq_ok hvalues) (List.mem_flatMap.mpr ⟨k, hk, hq⟩)
  rw [hv] at hpair
  cases hpair
  exact ⟨v, hv, hresult⟩

lemma evalAt_spec {E : Engine} (hE : E.Ready) (hinv : E.Invariant a.progress)
    (hmodel : a.model = E.model) {n : NodeId} {node : Node}
    (hnode : E.graph.nodes[n]? = some node) {cond : Expr} {purpose : Option Purpose}
    (hatom : node.atom = some (.assume cond purpose)) :
    ∃ values, a.evalAt n cond = .ok values ∧
      ∀ k ∈ a.graph.predsOf n, ∀ q ∈ a.stateOf k, ∀ σ d, q.env.Describes σ →
        a.model.Yields σ cond d → ∃ v, (q.trace.extend n, v) ∈ values ∧ d ∈ v := by
  have hadmits := hE.admits n node hnode
  rw [hatom] at hadmits
  obtain ⟨hcond, hvars, _⟩ := hadmits
  have heval : ∀ k, ∀ q ∈ a.stateOf k, ∃ v, a.model.eval q.env cond = .ok v ∧
      ∀ σ d, q.env.Describes σ → a.model.Yields σ cond d → d ∈ v := by
    intro k q hq
    have hfits := hinv.fits k q hq
    obtain ⟨_, v, _, hv, _, hsound⟩ := Model.eval_spec hcond fun v hv =>
      Model.binds_of_typed hfits.typed hfits.sameVars (hvars v hv)
    rw [hmodel]
    exact ⟨v, hv, hsound⟩
  obtain ⟨values, hvalues, hmem⟩ := exists_evalAt (n := n) fun k _ q hq =>
    (heval k q hq).imp fun _ => And.left
  refine ⟨values, hvalues, ?_⟩
  intro k hk q hq σ d hσ hd
  obtain ⟨v, hv, hsound⟩ := heval k q hq
  obtain ⟨v', hv', hpair⟩ := hmem k hk q hq
  obtain rfl := Except.ok.inj (hv.symm.trans hv')
  exact ⟨v, hpair, hsound σ d hσ hd⟩

lemma failuresOf_spec {E : Engine} (hE : E.Ready) (hinv : E.Invariant a.progress)
    (hgraph : a.graph = E.graph) (hmodel : a.model = E.model) {kind : PurposeKind} {check : Check}
    (hcheck : check ∈ a.graph.checks kind) :
    ∃ fs, a.failuresOf check = .ok fs ∧
      ∀ k ∈ a.graph.predsOf check.node, ∀ q ∈ a.stateOf k, ∀ σ, q.env.Describes σ →
        a.model.Yields σ check.cond (.bool false) →
        ∃ f ∈ fs, f.node = check.node ∧ f.trace = q.trace.extend check.node := by
  obtain ⟨node, hmem, hcheck⟩ := List.mem_filterMap.mp hcheck
  obtain ⟨n, hnode⟩ := List.mem_iff_getElem?.mp hmem
  rw [Array.getElem?_toList, hgraph] at hnode
  obtain ⟨hid, hatom⟩ := check?_eq_some hcheck
  rw [hE.graph.ids n node hnode] at hid
  rw [← hid] at hnode
  obtain ⟨values, hvalues, hcovers⟩ := evalAt_spec hE hinv hmodel hnode hatom
  refine ⟨_, by rw [failuresOf, hvalues]; rfl, ?_⟩
  intro k hk q hq σ hσ hfalse
  obtain ⟨v, hmem, hv⟩ := hcovers k hk q hq σ (.bool false) hσ hfalse
  refine ⟨⟨check.node, q.trace.extend check.node, check.purpose, v == .bools (.singleton false)⟩,
    List.mem_filterMap.mpr ⟨_, hmem, ?_⟩, rfl, rfl⟩
  rw [Finding.ofValue?, if_pos (mayBeFalse_of_mem hv)]

lemma findings_spec {E : Engine} (hE : E.Ready) (hinv : E.Invariant a.progress)
    (hgraph : a.graph = E.graph) (hmodel : a.model = E.model) (kind : PurposeKind) :
    ∃ fs, a.findings kind = .ok fs ∧
      ∀ check ∈ a.graph.checks kind, ∀ k ∈ a.graph.predsOf check.node, ∀ q ∈ a.stateOf k, ∀ σ,
        q.env.Describes σ → a.model.Yields σ check.cond (.bool false) →
        ∃ f ∈ fs, f.node = check.node ∧ f.trace = q.trace.extend check.node := by
  obtain ⟨lists, hlists⟩ : ∃ lists, (a.graph.checks kind).mapM a.failuresOf = .ok lists := by
    apply exists_mapM
    intro check hcheck
    obtain ⟨fs, hfs, _⟩ := failuresOf_spec hE hinv hgraph hmodel hcheck
    exact ⟨fs, hfs⟩
  refine ⟨lists.flatten, by rw [findings, hlists]; rfl, ?_⟩
  intro check hcheck k hk q hq σ hσ hfalse
  obtain ⟨fs, hfs, hcovers⟩ := failuresOf_spec hE hinv hgraph hmodel hcheck
  obtain ⟨fs', hmem, hfs'⟩ := exists_of_forall₂ (mapM_eq_ok hlists) hcheck
  obtain rfl := Except.ok.inj (hfs.symm.trans hfs')
  obtain ⟨f, hf, hfnode⟩ := hcovers k hk q hq σ hσ hfalse
  exact ⟨f, List.mem_flatten.mpr ⟨fs, hmem, hf⟩, hfnode⟩

theorem findings_cover_failures (hm : m.Interprets p) (h : ofProgram c m p fuel = .ok a)
    (kind : PurposeKind) :
    ∃ fs, a.findings kind = .ok fs ∧
      ∀ (n : NodeId) (node : Node) (cond : Expr) (purpose : Purpose),
        a.graph.nodes[n]? = some node → node.atom = some (.assume cond (some purpose)) →
        purpose.kind = kind →
        (∀ σ₀ path σ, (c.startEnv p m).Describes σ₀ → a.graph.Arrives m σ₀ path n σ →
          m.Yields σ cond (.bool false) →
          ∃ f ∈ fs, f.node = n ∧ ∀ k ∈ path ++ [n], f.trace.contains k = true) ∧
        ((∀ f ∈ fs, f.node ≠ n) →
          ∀ σ₀ path σ, (c.startEnv p m).Describes σ₀ → a.graph.Arrives m σ₀ path n σ →
            ¬ m.Yields σ cond (.bool false)) := by
  obtain ⟨hgraph, rfl, hE, hinv⟩ := invariant_of_ofProgram hm h
  rw [← hgraph] at hE hinv
  obtain ⟨fs, hfs, hcovers⟩ := findings_spec hE hinv rfl rfl kind
  refine ⟨fs, hfs, ?_⟩
  intro n node cond purpose hnode hatom hkind
  have hcheck : (⟨n, cond, purpose⟩ : Check) ∈ a.graph.checks kind := by
    refine List.mem_filterMap.mpr ⟨node, Array.mem_toList_iff.mpr (Array.mem_of_getElem? hnode), ?_⟩
    rw [← hkind, check?_of_assume hatom, hE.graph.ids n node hnode]
  have hfound : ∀ σ₀ path σ, (c.startEnv p a.model).Describes σ₀ →
      a.graph.Arrives a.model σ₀ path n σ → a.model.Yields σ cond (.bool false) →
      ∃ f ∈ fs, f.node = n ∧ ∀ k ∈ path ++ [n], f.trace.contains k = true := by
    intro σ₀ path σ hσ₀ harrives hfalse
    have hstart : (c.engine a.graph a.model).startEnv.Describes σ₀ := by
      rw [Config.engine, hgraph]
      exact hσ₀
    obtain ⟨k, hk, q, hq, hqσ, hpath⟩ := hinv.covers_arrival hE rfl hstart hnode hatom harrives
    obtain ⟨f, hf, hfnode, hftrace⟩ := hcovers _ hcheck k hk q hq σ hqσ hfalse
    refine ⟨f, hf, hfnode, ?_⟩
    intro k hk
    rw [hftrace, Trace.contains_iff, Trace.mem_extend]
    rcases List.mem_append.mp hk with hk | hk
    · exact Or.inl (hpath hk)
    · exact Or.inr (List.mem_singleton.mp hk)
  refine ⟨hfound, ?_⟩
  intro hnone σ₀ path σ hσ₀ harrives hfalse
  obtain ⟨f, hf, hfn, _⟩ := hfound σ₀ path σ hσ₀ harrives hfalse
  exact hnone f hf hfn

end Analysis

namespace Climb

def summit : Store := Function.update store x.var (.int 2)

lemma executes_climb : (Graph.ofProgram program).Executes model store [0, 1, 2, 3, 1, 4] 4 summit := by
  obtain ⟨start, hstart, hnone⟩ := (Graph.sound_ofProgram program).start
  have hassume : model.Steps (some (.assume below none)) store store := .assume store_yields_below
  have hlevel : model.varDomain? x.var = some (.int ⟨0, 3, by decide⟩) := by decide +kernel
  have hassign : model.Steps (some (.assign x readY)) store summit :=
    .assign rfl hlevel ⟨by decide, by decide⟩
  have h₀ : (Graph.ofProgram program).Executes model store [0] 0 store :=
    .entry hstart (hnone ▸ .skip)
  have h₁ : (Graph.ofProgram program).Executes model store [0, 1] 1 store :=
    h₀.step (by decide +kernel) (by decide +kernel) .skip
  have h₂ : (Graph.ofProgram program).Executes model store [0, 1, 2] 2 store :=
    h₁.step (by decide +kernel) (by decide +kernel) hassume
  have h₃ : (Graph.ofProgram program).Executes model store [0, 1, 2, 3] 3 summit :=
    h₂.step (by decide +kernel) (by decide +kernel) hassign
  have h₄ : (Graph.ofProgram program).Executes model store [0, 1, 2, 3, 1] 1 summit :=
    h₃.step (by decide +kernel) (by decide +kernel) .skip
  exact h₄.step (by decide +kernel) (by decide +kernel) .skip

lemma describes_start : (Config.default.startEnv program model).Describes store := by decide +kernel

theorem climb_covers_execution :
    ∃ a, Analysis.ofProgram .default model program 20 = .ok a ∧
      ∃ q ∈ a.stateOf 4, q.env.Describes summit ∧
        ∀ k ∈ [0, 1, 2, 3, 1, 4], q.trace.contains k = true := by
  obtain ⟨a, ha⟩ := exists_analysis
  exact ⟨a, ha, Analysis.ofProgram_covers_executions interprets ha describes_start executes_climb⟩

theorem climb_finds_failure :
    ∃ a fs, Analysis.ofProgram .default model program 20 = .ok a ∧
      a.findings .derefCheck = .ok fs ∧
      ∃ f ∈ fs, f.node = 5 ∧ ∀ k ∈ [0, 1, 2, 3, 1, 4, 5], f.trace.contains k = true := by
  obtain ⟨a, ha⟩ := exists_analysis
  obtain ⟨fs, hfs, hchecks⟩ := Analysis.findings_cover_failures interprets ha .derefCheck
  refine ⟨a, fs, ha, hfs, ?_⟩
  obtain ⟨hgraph, _⟩ := Analysis.invariant_of_ofProgram interprets ha
  have hatom : (Graph.ofProgram program).nodes[5]?.map Node.atom =
      some (some (.assume below (some (.derefCheck readX)))) := by decide +kernel
  obtain ⟨node, hnode, hatom⟩ := Option.map_eq_some_iff.mp hatom
  rw [hgraph] at hchecks
  refine (hchecks 5 node below _ hnode hatom rfl).1 store _ summit describes_start
    (Or.inr ⟨4, executes_climb, by decide +kernel⟩) ?_
  exact ⟨⟨.int 2, .int 2, rfl, rfl, rfl⟩, .bool, by decide +kernel, trivial⟩

end Climb

end Tracewise
