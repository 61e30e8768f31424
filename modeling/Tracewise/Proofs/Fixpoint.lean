import Tracewise.Proofs.Admission
import Tracewise.Proofs.Widening

/-! The worklist: a node that is not on it has the state that recomputing it gives. So a run that
ends has come to a fixpoint at every node. -/

namespace Tracewise

open Fallible Tracewise.Partition

namespace Progress

lemma mem_schedule {worklist : List NodeId} {n k : NodeId} :
    k ∈ schedule worklist n ↔ k = n ∨ k ∈ worklist := by
  induction worklist with
  | nil => simp [schedule]
  | cons j worklist ih =>
    rw [schedule]
    split
    · exact List.mem_cons
    · split
      · rename_i hj
        rw [List.mem_cons, hj]
        tauto
      · rw [List.mem_cons, ih, List.mem_cons]
        tauto

lemma mem_foldl_schedule {nodes worklist : List NodeId} {k : NodeId} :
    k ∈ nodes.foldl schedule worklist ↔ k ∈ worklist ∨ k ∈ nodes := by
  induction nodes generalizing worklist with
  | nil => simp
  | cons n nodes ih =>
    rw [List.foldl_cons, ih, mem_schedule, List.mem_cons]
    tauto

end Progress

namespace Engine

variable {E : Engine} {s s' : Progress}

structure Ready (E : Engine) : Prop where
  graph : E.graph.Sound
  startEnv : E.startEnv.Typed E.model
  admits : ∀ (n : NodeId) (node : Node), E.graph.nodes[n]? = some node →
    E.model.Admits E.startEnv node.atom

lemma Ready.pass_spec (hE : E.Ready) {n : NodeId} {node : Node}
    (hnode : E.graph.nodes[n]? = some node) {part : Partition}
    (hpart : part.Fits E.model E.startEnv) :
    ∃ result, E.pass node part = .ok result ∧ (∀ q ∈ result, q.Fits E.model E.startEnv) ∧
      ∀ σ σ', part.env.Describes σ → E.model.Steps node.atom σ σ' →
        ∃ q ∈ result, q.env.Describes σ' ∧ q.trace = part.trace.extend n := by
  obtain ⟨result, hresult, hrevises, hsteps⟩ :=
    Model.transfer_spec (hE.admits n node hnode) hpart.typed hpart.sameVars
  refine ⟨result.map fun env => ⟨part.trace.extend node.id, env⟩, ?_, ?_, ?_⟩
  · simp only [pass, hresult, ok_bind, pure_eq_ok]
  · intro q hq
    obtain ⟨env, henv, rfl⟩ := Option.map_eq_some_iff.mp hq
    have henv := hrevises env henv
    exact ⟨henv.typed hpart.typed, hpart.sameVars.trans henv.sameVars⟩
  · intro σ σ' hσ hstep
    obtain ⟨env, henv, hdescribes⟩ := hsteps σ σ' hσ hstep
    refine ⟨⟨part.trace.extend node.id, env⟩, by rw [henv]; rfl, hdescribes, ?_⟩
    rw [hE.graph.ids n node hnode]

lemma pass_eq_ok {node : Node} {p q : Partition} (h : E.pass node p = .ok (some q)) :
    q.trace = p.trace.extend node.id ∧ E.model.transfer node.atom p.env = .ok (some q.env) := by
  obtain ⟨result, hresult, h⟩ := bind_eq_ok h
  obtain ⟨env, rfl, rfl⟩ := Option.map_eq_some_iff.mp (Except.ok.inj h)
  exact ⟨rfl, hresult⟩

lemma fits_start (hE : E.Ready) : (⟨.empty, E.startEnv⟩ : Partition).Fits E.model E.startEnv :=
  ⟨hE.startEnv, fun _ => rfl⟩

lemma mem_incoming {n : NodeId} {q : Partition} :
    q ∈ E.incoming s n ↔
      n = Graph.entry ∧ q = ⟨.empty, E.startEnv⟩ ∨ ∃ k ∈ E.graph.predsOf n, q ∈ s.stateOf k := by
  rw [incoming, ← List.mem_flatMap]
  split
  · rename_i hn
    simp only [List.mem_cons, hn, true_and]
  · rename_i hn
    simp only [hn, false_and, false_or]

lemma fits_incoming (hE : E.Ready) (hfits : ∀ n, ∀ q ∈ s.stateOf n, q.Fits E.model E.startEnv)
    (n : NodeId) : ∀ q ∈ E.incoming s n, q.Fits E.model E.startEnv := by
  intro q hq
  rcases mem_incoming.mp hq with ⟨_, rfl⟩ | ⟨k, _, hq⟩
  · exact fits_start hE
  · exact hfits k q hq

lemma recompute_eq_ok {node : Node} {state : List Partition} (h : E.recompute s node = .ok state) :
    ∃ outgoing merged, (E.incoming s node.id).filterMapM (E.pass node) = .ok outgoing ∧
      E.rule.mergeAll E.model outgoing = .ok merged ∧
      if node.widening then widenState E.model (s.stateOf node.id) merged = .ok state
      else merged = state := by
  obtain ⟨outgoing, houtgoing, h⟩ := bind_eq_ok h
  obtain ⟨merged, hmerged, h⟩ := bind_eq_ok h
  refine ⟨outgoing, merged, houtgoing, hmerged, ?_⟩
  by_cases hwidening : node.widening = true
  · rw [if_pos hwidening] at h ⊢
    exact h
  · rw [if_neg hwidening] at h ⊢
    exact Except.ok.inj h

lemma Ready.outgoing_spec (hE : E.Ready)
    (hfits : ∀ n, ∀ q ∈ s.stateOf n, q.Fits E.model E.startEnv) {n : NodeId} {node : Node}
    (hnode : E.graph.nodes[n]? = some node) {outgoing : List Partition}
    (h : (E.incoming s n).filterMapM (E.pass node) = .ok outgoing) :
    (∀ q ∈ outgoing, q.Fits E.model E.startEnv) ∧
      ∀ part ∈ E.incoming s n, ∀ σ σ', part.env.Describes σ → E.model.Steps node.atom σ σ' →
        ∃ q ∈ outgoing, q.env.Describes σ' ∧ q.trace = part.trace.extend n := by
  obtain ⟨hpassed, hcame⟩ := filterMapM_eq_ok h
  have hincoming := fits_incoming hE hfits n
  constructor
  · intro q hq
    obtain ⟨part, hpart, hpass⟩ := hcame q hq
    obtain ⟨result, hresult, hresultFits, _⟩ := hE.pass_spec hnode (hincoming part hpart)
    obtain rfl := Except.ok.inj (hresult.symm.trans hpass)
    exact hresultFits q rfl
  · intro part hpart σ σ' hσ hstep
    obtain ⟨result, hresult, _, hsteps⟩ := hE.pass_spec hnode (hincoming part hpart)
    obtain ⟨q, hq, hcovers⟩ := hsteps σ σ' hσ hstep
    obtain ⟨result', hresult', hmem⟩ := hpassed part hpart
    obtain rfl := Except.ok.inj (hresult.symm.trans hresult')
    exact ⟨q, hmem q hq, hcovers⟩

lemma Ready.recompute_spec (hE : E.Ready)
    (hfits : ∀ n, ∀ q ∈ s.stateOf n, q.Fits E.model E.startEnv) {n : NodeId} {node : Node}
    (hnode : E.graph.nodes[n]? = some node) {state : List Partition}
    (h : E.recompute s node = .ok state) :
    (∀ q ∈ state, q.Fits E.model E.startEnv) ∧
      (∀ part ∈ E.incoming s n, ∀ σ σ', part.env.Describes σ → E.model.Steps node.atom σ σ' →
        ∃ q ∈ state, q.env.Describes σ' ∧ part.trace.nodes ⊆ q.trace.nodes ∧ n ∈ q.trace.nodes) ∧
      ∀ s' : Progress, E.incoming s' n = E.incoming s n → s'.stateOf n = state →
        E.recompute s' node = .ok state := by
  have hid := hE.graph.ids n node hnode
  obtain ⟨outgoing, merged, houtgoing, hmerged, hstate⟩ := recompute_eq_ok h
  rw [hid] at houtgoing hstate
  obtain ⟨hout, hsteps⟩ := hE.outgoing_spec hfits hnode houtgoing
  have hcondenses := MergeRule.mergeAll_spec hout hmerged
  have hcovers : (∀ q ∈ merged, ∃ r ∈ state, q.Within r) → ∀ part ∈ E.incoming s n, ∀ σ σ',
      part.env.Describes σ → E.model.Steps node.atom σ σ' → ∃ q ∈ state, q.env.Describes σ' ∧
        part.trace.nodes ⊆ q.trace.nodes ∧ n ∈ q.trace.nodes := by
    intro hin part hpart σ σ' hσ hstep
    obtain ⟨q, hq, hqσ, hqtrace⟩ := hsteps part hpart σ σ' hσ hstep
    obtain ⟨r, hr, hqr⟩ := hcondenses.covers q hq
    obtain ⟨t, ht, hrt⟩ := hin r hr
    obtain ⟨hnodes, hstores⟩ := hqr.trans hrt
    rw [hqtrace] at hnodes
    exact ⟨t, ht, hstores σ' hqσ, fun k hk => hnodes (Trace.mem_extend.mpr (Or.inl hk)),
      hnodes (Trace.mem_extend.mpr (Or.inr rfl))⟩
  by_cases hwidening : node.widening = true
  · rw [if_pos hwidening] at hstate
    obtain ⟨hstateFits, hnew, hagain⟩ :=
      widenState_spec (hfits n) hcondenses.fits hcondenses.apart hstate
    refine ⟨hstateFits, hcovers fun q hq => (hnew q hq).imp fun r hr => ⟨hr.1, hr.2.2⟩, ?_⟩
    intro s' hsame hold
    rw [recompute, hid, hsame, houtgoing, ok_bind, hmerged, ok_bind, if_pos hwidening, hold]
    exact hagain
  · rw [if_neg hwidening] at hstate
    subst hstate
    refine ⟨hcondenses.fits, hcovers fun q hq => ⟨q, hq, Within.refl q⟩, ?_⟩
    intro s' hsame _
    rw [recompute, hid, hsame, houtgoing, ok_bind, hmerged, ok_bind, if_neg hwidening]
    rfl

lemma Ready.exists_recompute (hE : E.Ready)
    (hfits : ∀ n, ∀ q ∈ s.stateOf n, q.Fits E.model E.startEnv) {n : NodeId} {node : Node}
    (hnode : E.graph.nodes[n]? = some node) : ∃ state, E.recompute s node = .ok state := by
  have hid := hE.graph.ids n node hnode
  obtain ⟨outgoing, houtgoing⟩ : ∃ outgoing, (E.incoming s n).filterMapM (E.pass node) =
      .ok outgoing := by
    apply exists_filterMapM
    intro q hq
    obtain ⟨result, hresult, _⟩ := hE.pass_spec hnode (fits_incoming hE hfits n q hq)
    exact ⟨result, hresult⟩
  have hout := (hE.outgoing_spec hfits hnode houtgoing).1
  obtain ⟨merged, hmerged⟩ : ∃ merged, E.rule.mergeAll E.model outgoing = .ok merged :=
    MergeRule.exists_mergeAll hout
  rw [recompute, hid, houtgoing, ok_bind, hmerged, ok_bind]
  split
  · exact exists_widenState (hfits n) (MergeRule.mergeAll_spec hout hmerged).fits
  · exact ⟨merged, rfl⟩

lemma incoming_congr {n : NodeId} (h : ∀ k ∈ E.graph.predsOf n, s'.stateOf k = s.stateOf k) :
    E.incoming s' n = E.incoming s n := by
  have hstored : (E.graph.predsOf n).flatMap s'.stateOf = (E.graph.predsOf n).flatMap s.stateOf := by
    rw [List.flatMap_def, List.flatMap_def, List.map_congr_left h]
  rw [incoming, incoming, hstored]

lemma recompute_congr {node : Node} (hin : E.incoming s' node.id = E.incoming s node.id)
    (hold : s'.stateOf node.id = s.stateOf node.id) : E.recompute s' node = E.recompute s node := by
  rw [recompute, recompute, hin, hold]

structure Sized (E : Engine) (s : Progress) : Prop where
  states : s.states.size = E.graph.size
  visits : s.visits.size = E.graph.size
  worklist : ∀ n ∈ s.worklist, n < E.graph.size

lemma stateOf_store {n : NodeId} {state : List Partition} (hn : n < s.states.size) (k : NodeId) :
    (E.store s n state).stateOf k = if k = n then state else s.stateOf k := by
  rw [store]
  by_cases hstate : state = s.stateOf n
  · rw [if_pos hstate]
    split
    · rename_i hk
      rw [hk, hstate]
    · rfl
  · rw [if_neg hstate]
    simp only [Progress.stateOf, Array.getD_eq_getD_getElem?, Array.getElem?_setIfInBounds]
    by_cases hk : n = k
    · rw [if_pos hk, if_pos hn, if_pos hk.symm]
      rfl
    · rw [if_neg hk, if_neg (Ne.symm hk)]

lemma visitsOf_modify {n : NodeId} (hn : n < s.visits.size) (k : NodeId) :
    (s.visits.modify n (· + 1)).getD k 0 = if k = n then s.visitsOf k + 1 else s.visitsOf k := by
  simp only [Progress.visitsOf, Array.getD_eq_getD_getElem?, Array.getElem?_modify]
  by_cases hk : n = k
  · subst hk
    rw [if_pos rfl, if_pos rfl, Array.getElem?_eq_getElem hn]
    rfl
  · rw [if_neg hk, if_neg (Ne.symm hk)]

lemma mem_worklist_store {n : NodeId} {state : List Partition} (k : NodeId) :
    k ∈ (E.store s n state).worklist ↔
      k ∈ s.worklist ∨ state ≠ s.stateOf n ∧ k ∈ E.graph.succsOf n := by
  rw [store]
  by_cases hstate : state = s.stateOf n
  · rw [if_pos hstate]
    exact ⟨Or.inl, fun h => h.resolve_right fun h => h.1 hstate⟩
  · rw [if_neg hstate]
    simp only [Progress.mem_foldl_schedule, ne_eq, hstate, not_false_eq_true, true_and]

lemma size_store {n : NodeId} {state : List Partition} :
    (E.store s n state).states.size = s.states.size ∧ (E.store s n state).visits = s.visits := by
  rw [store]
  split
  · exact ⟨rfl, rfl⟩
  · exact ⟨Array.size_setIfInBounds, rfl⟩

structure Visits (E : Engine) (s s' : Progress) (n : NodeId) (node : Node)
    (state : List Partition) : Prop where
  lookup : E.graph.nodes[n]? = some node
  recompute : E.recompute s node = .ok state
  stateOf : ∀ k, s'.stateOf k = if k = n then state else s.stateOf k
  visitsOf : ∀ k, s'.visitsOf k = if k = n then s.visitsOf k + 1 else s.visitsOf k
  worklist : ∃ rest, s.worklist = n :: rest ∧
    ∀ k, k ∈ s'.worklist ↔ k ∈ rest ∨ state ≠ s.stateOf n ∧ k ∈ E.graph.succsOf n

lemma Sized.step (hs : E.Sized s) (h : E.step s = .ok (some s')) :
    ∃ n node state, E.Visits s s' n node state ∧ s'.states.size = E.graph.size ∧
      s'.visits.size = E.graph.size := by
  rw [Engine.step] at h
  split at h
  · cases h
  · rename_i n rest hworklist
    obtain ⟨s₁, hvisit, h⟩ := bind_eq_ok h
    cases h
    have hn : n < E.graph.size := hs.worklist n (hworklist ▸ List.mem_cons_self)
    have hnode : E.graph.nodes[n]? = some E.graph.nodes[n] := Array.getElem?_eq_getElem hn
    simp only [visit, hnode] at hvisit
    obtain ⟨state, hstate, hstore⟩ := bind_eq_ok hvisit
    cases hstore
    refine ⟨n, E.graph.nodes[n], state, ⟨hnode, hstate, ?_, ?_, rest, hworklist, ?_⟩, ?_, ?_⟩
    · exact stateOf_store (hs.states.symm ▸ hn)
    · intro k
      rw [Progress.visitsOf, size_store.2]
      exact visitsOf_modify (hs.visits.symm ▸ hn) k
    · exact mem_worklist_store
    · exact size_store.1.trans hs.states
    · rw [size_store.2, Array.size_modify]
      exact hs.visits

lemma iterate_induction {P : Progress → Prop} (hstep : ∀ s s', P s → E.step s = .ok (some s') → P s')
    {fuel : Nat} (h : E.iterate fuel s = .ok s') (hs : P s) : P s' := by
  induction fuel generalizing s with
  | zero =>
    cases h
    exact hs
  | succ fuel ih =>
    obtain ⟨next, hnext, h⟩ := bind_eq_ok h
    cases next with
    | none =>
      cases h
      exact hs
    | some next => exact ih h (hstep s next hs hnext)

/-- The invariant of the worklist. A node off it is settled: recomputing it changes nothing; and if
it was never visited, nothing has come to it. -/
structure Invariant (E : Engine) (s : Progress) : Prop where
  sized : E.Sized s
  fits : ∀ n, ∀ q ∈ s.stateOf n, q.Fits E.model E.startEnv
  settled : ∀ (n : NodeId) (node : Node), E.graph.nodes[n]? = some node → n ∉ s.worklist →
    E.recompute s node = .ok (s.stateOf n)
  unvisited : ∀ n, s.visitsOf n = 0 → s.stateOf n = []
  unreached : ∀ n, s.visitsOf n = 0 → n ∉ s.worklist → ∀ k ∈ E.graph.predsOf n, s.stateOf k = []

lemma Invariant.recompute_of_done (hs : E.Invariant s) (hdone : s.worklist = []) {n : NodeId}
    {node : Node} (hnode : E.graph.nodes[n]? = some node) :
    E.recompute s node = .ok (s.stateOf n) := by
  apply hs.settled n node hnode
  rw [hdone]
  exact List.not_mem_nil

lemma stateOf_initial (E : Engine) (n : NodeId) : E.initial.stateOf n = [] := by
  simp only [initial, Progress.stateOf, Array.getD_eq_getD_getElem?, Array.getElem?_replicate]
  split <;> rfl

lemma sized_initial (hgraph : E.graph.Sound) : E.Sized E.initial := by
  refine ⟨Array.size_replicate, Array.size_replicate, fun n hn => ?_⟩
  obtain ⟨_, hstart, _⟩ := hgraph.start
  obtain ⟨hlt, _⟩ := Array.getElem?_eq_some_iff.mp hstart
  rw [List.mem_singleton.mp hn]
  exact hlt

lemma settled_initial (hgraph : E.graph.Sound) {n : NodeId} {node : Node}
    (hnode : E.graph.nodes[n]? = some node) (hn : n ∉ E.initial.worklist) :
    E.recompute E.initial node = .ok (E.initial.stateOf n) := by
  have hentry : node.id ≠ Graph.entry := by
    rw [hgraph.ids n node hnode]
    exact fun h => hn (h ▸ List.mem_singleton_self _)
  have hincoming : E.incoming E.initial node.id = [] := by
    rw [incoming, if_neg hentry, List.flatMap_eq_nil_iff]
    exact fun k _ => stateOf_initial E k
  rw [recompute, hincoming, stateOf_initial, stateOf_initial]
  cases node.widening <;> rfl

lemma Ready.invariant_initial (hE : E.Ready) : E.Invariant E.initial where
  sized := sized_initial hE.graph
  fits n q hq := by
    rw [stateOf_initial] at hq
    cases hq
  settled n node := settled_initial hE.graph
  unvisited n _ := stateOf_initial E n
  unreached n _ _ k _ := stateOf_initial E k

namespace Visits

variable {n : NodeId} {node : Node} {state : List Partition}

lemma stateOf_self (h : E.Visits s s' n node state) : s'.stateOf n = state := by
  rw [h.stateOf, if_pos rfl]

lemma stateOf_other (h : E.Visits s s' n node state) {k : NodeId} (hk : k ≠ n) :
    s'.stateOf k = s.stateOf k := by
  rw [h.stateOf, if_neg hk]

lemma stateOf_pred (hgraph : E.graph.Sound) (h : E.Visits s s' n node state) {k : NodeId}
    (hk : k ∉ s'.worklist) {j : NodeId} (hj : j ∈ E.graph.predsOf k) :
    s'.stateOf j = s.stateOf j := by
  by_cases hjn : j = n
  · subst hjn
    rw [h.stateOf_self]
    by_contra hne
    obtain ⟨rest, _, hmem⟩ := h.worklist
    apply hk
    rw [hmem, hgraph.succs, ← hgraph.preds]
    exact Or.inr ⟨hne, hj⟩
  · exact h.stateOf_other hjn

lemma not_mem_worklist (h : E.Visits s s' n node state) {k : NodeId} (hkn : k ≠ n)
    (hk : k ∉ s'.worklist) : k ∉ s.worklist := by
  obtain ⟨rest, hworklist, hmem⟩ := h.worklist
  rw [hworklist, List.mem_cons, not_or]
  exact ⟨hkn, fun hrest => hk ((hmem k).mpr (Or.inl hrest))⟩

lemma unvisited (h : E.Visits s s' n node state) {k : NodeId} (hk : s'.visitsOf k = 0) :
    k ≠ n ∧ s.visitsOf k = 0 := by
  rw [h.visitsOf] at hk
  split at hk
  · cases hk
  · rename_i hkn
    exact ⟨hkn, hk⟩

lemma sized (hgraph : E.graph.Sound) (hs : E.Sized s) (h : E.Visits s s' n node state) :
    ∀ k ∈ s'.worklist, k < E.graph.size := by
  intro k hk
  obtain ⟨rest, hworklist, hmem⟩ := h.worklist
  rcases (hmem k).mp hk with hk | ⟨_, hk⟩
  · exact hs.worklist k (hworklist ▸ List.mem_cons_of_mem _ hk)
  · exact (hgraph.edges _ ((hgraph.succs n k).mp hk)).2

lemma settled (hE : E.Ready) (hs : E.Invariant s) (h : E.Visits s s' n node state) {k : NodeId}
    {node' : Node} (hnode' : E.graph.nodes[k]? = some node') (hk : k ∉ s'.worklist) :
    E.recompute s' node' = .ok (s'.stateOf k) := by
  have hincoming : E.incoming s' k = E.incoming s k :=
    incoming_congr fun j hj => h.stateOf_pred hE.graph hk hj
  by_cases hkn : k = n
  · subst hkn
    obtain rfl := Option.some.inj (h.lookup.symm.trans hnode')
    -- its own state has changed, but widening by the same partitions again changes nothing
    obtain ⟨_, _, hagain⟩ := hE.recompute_spec hs.fits h.lookup h.recompute
    rw [h.stateOf_self]
    exact hagain s' hincoming h.stateOf_self
  · have hid := hE.graph.ids k node' hnode'
    have hsame := h.stateOf_other hkn
    rw [hsame, recompute_congr (hid.symm ▸ hincoming) (hid.symm ▸ hsame)]
    exact hs.settled k node' hnode' (h.not_mem_worklist hkn hk)

end Visits

lemma Ready.invariant_step (hE : E.Ready) (hs : E.Invariant s)
    (h : E.step s = .ok (some s')) : E.Invariant s' := by
  obtain ⟨n, node, state, hvisits, hstatesSize, hvisitsSize⟩ := hs.sized.step h
  refine ⟨⟨hstatesSize, hvisitsSize, hvisits.sized hE.graph hs.sized⟩, ?_, ?_, ?_, ?_⟩
  · intro k q hq
    by_cases hkn : k = n
    · rw [hkn, hvisits.stateOf_self] at hq
      exact (hE.recompute_spec hs.fits hvisits.lookup hvisits.recompute).1 q hq
    · rw [hvisits.stateOf_other hkn] at hq
      exact hs.fits k q hq
  · intro k node' hnode' hk
    exact hvisits.settled hE hs hnode' hk
  · intro k hk
    obtain ⟨hkn, hk⟩ := hvisits.unvisited hk
    rw [hvisits.stateOf_other hkn]
    exact hs.unvisited k hk
  · intro k hk hkw j hj
    obtain ⟨hkn, hk⟩ := hvisits.unvisited hk
    rw [hvisits.stateOf_pred hE.graph hkw hj]
    exact hs.unreached k hk (hvisits.not_mem_worklist hkn hkw) j hj

lemma Ready.exists_step (hE : E.Ready) (hs : E.Invariant s) : ∃ next, E.step s = .ok next := by
  rw [step]
  split
  · exact ⟨none, rfl⟩
  · rename_i n rest hworklist
    have hn : n < E.graph.size := hs.sized.worklist n (hworklist ▸ List.mem_cons_self)
    have hnode : E.graph.nodes[n]? = some E.graph.nodes[n] := Array.getElem?_eq_getElem hn
    obtain ⟨state, hstate⟩ := hE.exists_recompute
      (s := { s with worklist := rest, visits := s.visits.modify n (· + 1) }) hs.fits hnode
    simp only [visit, hnode, hstate, ok_bind, pure_eq_ok]
    exact ⟨_, rfl⟩

lemma Ready.exists_iterate (hE : E.Ready) (hs : E.Invariant s) (fuel : Nat) :
    ∃ s', E.iterate fuel s = .ok s' := by
  induction fuel generalizing s with
  | zero => exact ⟨s, rfl⟩
  | succ fuel ih =>
    obtain ⟨next, hnext⟩ := hE.exists_step hs
    rw [iterate, hnext, ok_bind]
    cases next with
    | none => exact ⟨s, rfl⟩
    | some s' => exact ih (hE.invariant_step hs hnext)

end Engine

namespace Analysis

def progress (a : Analysis) : Progress := ⟨a.states, a.visits, []⟩

lemma ready_of_check {c : Config} {m : Model} {p : Program} (hm : m.Serves p)
    (h : m.check (.ofProgram p) c.initial = .ok ()) : (c.engine (.ofProgram p) m).Ready := by
  obtain ⟨hatoms, hinitial⟩ := Model.check_eq_ok h
  have hgraph := Graph.sound_ofProgram p
  refine ⟨hgraph, Config.startEnv_typed hinitial, fun n node hnode => ?_⟩
  cases hatom : node.atom with
  | none => trivial
  | some a =>
    exact Model.admits_of_check hm (fun d hd => Config.startEnv_binds hd)
      (hgraph.atoms n node a hnode hatom) (hatoms n node a hnode hatom)

lemma ofProgram_eq_ok {c : Config} {m : Model} {p : Program} {fuel : Nat} {a : Analysis}
    (h : ofProgram c m p fuel = .ok a) :
    a.graph = .ofProgram p ∧ a.model = m ∧ m.check (.ofProgram p) c.initial = .ok () ∧
      (c.engine (.ofProgram p) m).iterate fuel (c.engine (.ofProgram p) m).initial =
        .ok a.progress := by
  obtain ⟨_, hcheck, h⟩ := bind_eq_ok h
  obtain ⟨s, hs, h⟩ := bind_eq_ok h
  have hiterate := Failure.ofFault_eq_ok hs
  split at h
  · rename_i hempty
    cases h
    have hprogress : progress ⟨.ofProgram p, m, s.states, s.visits⟩ = s := by
      rw [progress, ← List.isEmpty_iff.mp hempty]
    exact ⟨rfl, rfl, hcheck, hprogress ▸ hiterate⟩
  · cases h

lemma invariant_of_serves {c : Config} {m : Model} {p : Program} {fuel : Nat} {a : Analysis}
    (hm : m.Serves p) (h : ofProgram c m p fuel = .ok a) :
    a.graph = .ofProgram p ∧ a.model = m ∧ (c.engine (.ofProgram p) m).Ready ∧
      (c.engine (.ofProgram p) m).Invariant a.progress := by
  obtain ⟨hgraph, hmodel, hcheck, hiterate⟩ := ofProgram_eq_ok h
  have hE := ready_of_check hm hcheck
  exact ⟨hgraph, hmodel, hE, Engine.iterate_induction (fun s s' => hE.invariant_step) hiterate
    hE.invariant_initial⟩

lemma invariant_of_ofProgram {c : Config} {m : Model} {p : Program} {fuel : Nat} {a : Analysis}
    (hm : m.Interprets p) (h : ofProgram c m p fuel = .ok a) :
    a.graph = .ofProgram p ∧ a.model = m ∧ (c.engine (.ofProgram p) m).Ready ∧
      (c.engine (.ofProgram p) m).Invariant a.progress :=
  invariant_of_serves hm.serves h

/-- Recomputing any node from the final states gives back its state, and nothing has come to a node
that was never visited. -/
structure IsFixpoint (c : Config) (a : Analysis) : Prop where
  recomputed : ∀ (n : NodeId) (node : Node), a.graph.nodes[n]? = some node →
    ∃ outgoing merged,
      ((c.engine a.graph a.model).incoming a.progress n).filterMapM
        ((c.engine a.graph a.model).pass node) = .ok outgoing ∧
      c.rule.mergeAll a.model outgoing = .ok merged ∧
      if node.widening then Engine.widenState a.model (a.stateOf n) merged = .ok (a.stateOf n)
      else merged = a.stateOf n
  unvisited : ∀ n, a.visitsOf n = 0 → a.stateOf n = [] ∧
    ∀ k ∈ a.graph.predsOf n, a.stateOf k = []

theorem isFixpoint_ofProgram {c : Config} {m : Model} {p : Program} {fuel : Nat} {a : Analysis}
    (hm : m.Interprets p) (h : ofProgram c m p fuel = .ok a) : a.IsFixpoint c := by
  obtain ⟨hgraph, rfl, hE, hinv⟩ := invariant_of_ofProgram hm h
  rw [← hgraph] at hE hinv
  constructor
  · intro n node hnode
    have hid := hE.graph.ids n node hnode
    obtain ⟨outgoing, merged, houtgoing, hmerged, hstate⟩ :=
      Engine.recompute_eq_ok (hinv.settled n node hnode (List.not_mem_nil))
    rw [hid] at houtgoing hstate
    exact ⟨outgoing, merged, houtgoing, hmerged, hstate⟩
  · intro n hn
    exact ⟨hinv.unvisited n hn, hinv.unreached n hn List.not_mem_nil⟩

end Analysis

namespace Climb

lemma exists_analysis : ∃ a, Analysis.ofProgram .default model program 20 = .ok a :=
  exists_of_toOption_isSome (by decide +kernel)

theorem isFixpoint_climb :
    ∃ a, Analysis.ofProgram .default model program 20 = .ok a ∧ a.IsFixpoint .default := by
  obtain ⟨a, ha⟩ := exists_analysis
  exact ⟨a, ha, Analysis.isFixpoint_ofProgram interprets ha⟩

end Climb

end Tracewise
