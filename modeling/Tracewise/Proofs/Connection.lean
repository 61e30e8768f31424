import Tracewise.Analysis.Finding
import Tracewise.Proofs.Preservation

/-! Traces are connected. However executions are merged, a trace grows from the entry, node after
node, each with a predecessor before it. -/

namespace Tracewise

open Fallible Relation

inductive Graph.Grows (g : Graph) : List NodeId → Prop
  | entry : g.Grows [Graph.entry]
  | snoc {l : List NodeId} {k n : NodeId} :
      g.Grows l → k ∈ l → k ∈ g.predsOf n → n ∉ l → g.Grows (l ++ [n])

def Graph.Linked (g : Graph) (l : List NodeId) (k n : NodeId) : Prop :=
  k ∈ g.predsOf n ∧ k ∈ l ∧ n ∈ l

namespace Graph.Grows

variable {g : Graph} {l : List NodeId}

lemma head?_eq (h : g.Grows l) : l.head? = some Graph.entry := by
  induction h with
  | entry => rfl
  | snoc _ _ _ _ ih =>
    rw [List.head?_append, ih]
    rfl

lemma nodup (h : g.Grows l) : l.Nodup := by
  induction h with
  | entry => exact List.nodup_singleton _
  | snoc _ _ _ hn ih =>
    rw [← List.concat_eq_append]
    exact ih.concat hn

lemma exists_pred (h : g.Grows l) {before after : List NodeId} {n : NodeId}
    (hl : l = before ++ n :: after) (hbefore : before ≠ []) : ∃ k ∈ before, k ∈ g.predsOf n := by
  induction h generalizing after with
  | entry =>
    have hlength := congrArg List.length hl
    have hpos := List.length_pos_iff.mpr hbefore
    simp only [List.length_append, List.length_cons, List.length_nil] at hlength
    omega
  | @snoc l k n' _ hk hpred _ ih =>
    rcases List.eq_nil_or_concat after with rfl | ⟨after, last, rfl⟩
    · obtain ⟨rfl, hn⟩ := List.append_inj' hl rfl
      cases hn
      exact ⟨k, hk, hpred⟩
    · have hl : l ++ [n'] = (before ++ n :: after) ++ [last] := by
        rw [hl, List.concat_eq_append, List.append_assoc, List.cons_append]
      exact ih (List.append_inj' hl rfl).1

lemma reaches (h : g.Grows l) {n : NodeId} (hn : n ∈ l) :
    ReflTransGen (g.Linked l) Graph.entry n := by
  induction h generalizing n with
  | entry => rw [List.mem_singleton.mp hn]
  | @snoc l k n' _ hk hpred _ ih =>
    have hmono : ∀ j ∈ l, ReflTransGen (g.Linked (l ++ [n'])) Graph.entry j := by
      intro j hj
      refine (ih hj).lift id fun x y hxy => ?_
      exact ⟨hxy.1, List.mem_append_left _ hxy.2.1, List.mem_append_left _ hxy.2.2⟩
    rcases List.mem_append.mp hn with hn | hn
    · exact hmono n hn
    · rw [List.mem_singleton.mp hn]
      refine (hmono k hk).tail ⟨hpred, List.mem_append_left _ hk, ?_⟩
      exact List.mem_append_right _ (List.mem_singleton_self n')

variable {t : Trace}

lemma extend (h : g.Grows t.nodes) {k n : NodeId} (hk : k ∈ t.nodes) (hpred : k ∈ g.predsOf n) :
    g.Grows (t.extend n).nodes := by
  by_cases hn : n ∈ t.nodes
  · rw [Trace.extend_of_mem hn]
    exact h
  · rw [Trace.extend_of_not_mem hn]
    exact .snoc h hk hpred hn

lemma foldl_extend (h : g.Grows t.nodes) (hl : g.Grows l) :
    g.Grows (l.foldl Trace.extend t).nodes := by
  induction hl with
  | entry =>
    have hentry : Graph.entry ∈ t.nodes := List.mem_of_head? h.head?_eq
    rw [List.foldl_cons, Trace.extend_of_mem hentry]
    exact h
  | @snoc l k n _ hk hpred _ ih =>
    rw [List.foldl_append]
    exact extend ih (Trace.mem_foldl_extend.mpr (Or.inr hk)) hpred

end Graph.Grows

namespace Engine

variable {E : Engine}

lemma preserves_grows (hgraph : E.graph.Sound) :
    E.Preserves fun n q => E.graph.Grows q.trace.nodes ∧ n ∈ q.trace.nodes where
  start node q hnode h := by
    rw [(pass_eq_ok h).1, hgraph.ids _ node hnode]
    exact ⟨.entry, List.mem_singleton_self _⟩
  pass k n node p q hk hnode hp h := by
    rw [(pass_eq_ok h).1, hgraph.ids n node hnode]
    exact ⟨hp.1.extend hp.2 hk, Trace.mem_extend.mpr (Or.inr rfl)⟩
  merge n p q r hp hq h := by
    obtain ⟨env, _, h⟩ := bind_eq_ok h
    cases h
    exact ⟨hp.1.foldl_extend hq.1, Trace.mem_union.mpr (Or.inl hp.2)⟩
  widen n old p q _ hp h := by
    rw [trace_widenPart h]
    exact hp

end Engine

namespace Analysis

variable {a : Analysis} {kind : PurposeKind} {fs : List Finding} {f : Finding}

lemma mem_evalAt {n : NodeId} {e : Expr} {values : List (Trace × Value)} {v : Trace × Value}
    (h : a.evalAt n e = .ok values) (hv : v ∈ values) :
    ∃ k ∈ a.graph.predsOf n, ∃ q ∈ a.stateOf k, v.1 = q.trace.extend n := by
  obtain ⟨q, hq, hvalue⟩ := exists_of_forall₂ (mapM_eq_ok h).flip hv
  obtain ⟨k, hk, hq⟩ := List.mem_flatMap.mp hq
  obtain ⟨value, _, hvalue⟩ := bind_eq_ok hvalue
  cases hvalue
  exact ⟨k, hk, q, hq, rfl⟩

lemma mem_findings (h : a.findings kind = .ok fs) (hf : f ∈ fs) :
    ∃ check ∈ a.graph.checks kind, f.node = check.node ∧
      ∃ k ∈ a.graph.predsOf check.node, ∃ q ∈ a.stateOf k, f.trace = q.trace.extend check.node := by
  obtain ⟨lists, hlists, h⟩ := bind_eq_ok h
  cases h
  obtain ⟨l, hl, hf⟩ := List.mem_flatten.mp hf
  obtain ⟨check, hcheck, hl⟩ := exists_of_forall₂ (mapM_eq_ok hlists).flip hl
  obtain ⟨values, hvalues, hl⟩ := bind_eq_ok hl
  cases hl
  obtain ⟨v, hv, hf⟩ := List.mem_filterMap.mp hf
  obtain ⟨_, hf⟩ := Option.ite_none_right_eq_some.mp hf
  obtain rfl := Option.some.inj hf
  exact ⟨check, hcheck, rfl, mem_evalAt hvalues hv⟩

theorem traces_connected (c : Config) (m : Model) (p : Program) :
    (∀ steps s, (c.engine (.ofProgram p) m).after steps = .ok s → ∀ n, ∀ q ∈ s.stateOf n,
      q.trace.nodes.head? = some Graph.entry ∧ q.trace.nodes.Nodup ∧ n ∈ q.trace.nodes ∧
      ∀ before k after, q.trace.nodes = before ++ k :: after → before ≠ [] →
        ∃ j ∈ before, j ∈ (Graph.ofProgram p).predsOf k) ∧
    ∀ fuel a kind fs, ofProgram c m p fuel = .ok a → a.findings kind = .ok fs → ∀ f ∈ fs,
      (∃ check ∈ (Graph.ofProgram p).checks kind, f.node = check.node) ∧ f.node ∈ f.trace.nodes ∧
      ∀ k ∈ f.trace.nodes,
        ReflTransGen ((Graph.ofProgram p).Linked f.trace.nodes) Graph.entry k := by
  have hgraph := Graph.sound_ofProgram p
  have hP := Engine.preserves_grows (E := c.engine (.ofProgram p) m) hgraph
  constructor
  · intro steps s hs n q hq
    obtain ⟨hgrows, hn⟩ := hP.after hgraph hs n q hq
    exact ⟨hgrows.head?_eq, hgrows.nodup, hn, fun before k after => hgrows.exists_pred⟩
  · intro fuel a kind fs ha hfs f hf
    obtain ⟨hagraph, _, _, hiterate⟩ := ofProgram_eq_ok ha
    obtain ⟨check, hcheck, hnode, k, hk, q, hq, htrace⟩ := mem_findings hfs hf
    rw [hagraph] at hcheck hk
    obtain ⟨hgrows, hkq⟩ := hP.after hgraph hiterate k q hq
    have hgrows : (Graph.ofProgram p).Grows f.trace.nodes := htrace ▸ hgrows.extend hkq hk
    refine ⟨⟨check, hcheck, hnode⟩, ?_, fun j hj => hgrows.reaches hj⟩
    rw [htrace, hnode]
    exact Trace.mem_extend.mpr (Or.inr rfl)

end Analysis

theorem Climb.climb_traces_connected :
    (∃ s q, (Config.default.engine (.ofProgram program) model).after 5 = .ok s ∧ q ∈ s.stateOf 1 ∧
      q.trace.nodes.head? = some Graph.entry ∧ q.trace.nodes.Nodup ∧ 1 ∈ q.trace.nodes ∧
      ∀ before k after, q.trace.nodes = before ++ k :: after → before ≠ [] →
        ∃ j ∈ before, j ∈ (Graph.ofProgram program).predsOf k) ∧
    ∃ a fs f, Analysis.ofProgram .default model program 20 = .ok a ∧
      a.findings .derefCheck = .ok fs ∧ f ∈ fs ∧ f.node ∈ f.trace.nodes ∧
      ∀ k ∈ f.trace.nodes,
        ReflTransGen ((Graph.ofProgram program).Linked f.trace.nodes) Graph.entry k := by
  obtain ⟨hstored, hfound⟩ := Analysis.traces_connected .default model program
  constructor
  · have hsome : ((Config.default.engine (.ofProgram program) model).after 5).toOption.any
        (fun s => !(s.stateOf 1).isEmpty) = true := by decide +kernel
    obtain ⟨s, q, hs, hq⟩ := Engine.exists_stored hsome
    exact ⟨s, q, hs, hq, hstored 5 s hs 1 q hq⟩
  · have hsome : (Analysis.ofProgram .default model program 20).toOption.any (fun a =>
        (a.findings .derefCheck).toOption.any fun fs => !fs.isEmpty) = true := by decide +kernel
    obtain ⟨a, ha, hsome⟩ := exists_of_toOption_any hsome
    obtain ⟨fs, hfs, hsome⟩ := exists_of_toOption_any hsome
    obtain ⟨f, hf⟩ := List.isEmpty_eq_false_iff_exists_mem.mp (Bool.not_eq_true' _ ▸ hsome)
    exact ⟨a, fs, f, ha, hfs, hf, (hfound 20 a .derefCheck fs ha hfs f hf).2⟩

end Tracewise
