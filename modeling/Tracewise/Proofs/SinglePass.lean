import Tracewise.Proofs.Nesting
import Tracewise.Proofs.PathEnumeration
import Tracewise.Proofs.Preservation

/-! One pass is enough without loops. All edges go on in the numbering, and the least node is always
taken from the worklist, so what was visited stays behind the worklist. -/

namespace Tracewise

open Fallible

namespace Engine

variable {E : Engine} {s s' : Progress}

structure Advancing (E : Engine) (s : Progress) : Prop where
  sized : E.Sized s
  sorted : s.worklist.Pairwise (· < ·)
  once : ∀ k, s.visitsOf k ≤ 1
  behind : ∀ k n : Nat, s.visitsOf k ≠ 0 → n ∈ s.worklist → k < n

lemma visitsOf_initial (E : Engine) (n : NodeId) : E.initial.visitsOf n = 0 := by
  simp only [initial, Progress.visitsOf, Array.getD_eq_getD_getElem?, Array.getElem?_replicate]
  split <;> rfl

lemma advancing_initial (hgraph : E.graph.Sound) : E.Advancing E.initial where
  sized := sized_initial hgraph
  sorted := List.pairwise_singleton _ _
  once k := by simp [visitsOf_initial]
  behind k _ hk := absurd (visitsOf_initial E k) hk

namespace Advancing

lemma unvisited (hs : E.Advancing s) {n : Nat} (hn : n ∈ s.worklist) : s.visitsOf n = 0 := by
  by_contra hne
  exact lt_irrefl n (hs.behind n n hne hn)

variable (hgraph : E.graph.Sound) (hasc : ∀ x y, (x, y) ∈ E.graph.edges → x < y)

include hgraph hasc

lemma step (hs : E.Advancing s) (h : E.step s = .ok (some s')) :
    E.Advancing s' ∧ ∃ (n : Nat) (node : Node) (state : List Partition),
      E.Visits s s' n node state ∧ ∀ k : Nat, k ∈ s'.worklist → n < k := by
  obtain ⟨n, node, state, hvisits, hstates, hcounts⟩ := hs.sized.step h
  obtain ⟨rest, hworklist, hmem⟩ := hvisits.worklist
  have hn : n ∈ s.worklist := hworklist ▸ List.mem_cons_self
  have hsorted := hs.sorted
  rw [hworklist, List.pairwise_cons] at hsorted
  have hahead : ∀ k ∈ s'.worklist, n < k := by
    intro k hk
    rcases (hmem k).mp hk with hk | ⟨_, hk⟩
    · exact hsorted.1 k hk
    · exact hasc n k ((hgraph.succs n k).mp hk)
  refine ⟨⟨⟨hstates, hcounts, hvisits.sized hgraph hs.sized⟩, pairwise_step hs.sorted h, ?_, ?_⟩,
    n, node, state, hvisits, hahead⟩
  · intro k
    rw [hvisits.visitsOf]
    split
    · rename_i hk
      rw [hk, hs.unvisited hn]
    · exact hs.once k
  · intro k j hk hj
    rw [hvisits.visitsOf] at hk
    split at hk
    · rename_i hkn
      exact hkn ▸ hahead j hj
    · exact (hs.behind k n hk hn).trans (hahead j hj)

lemma iterate (hs : E.Advancing s) {fuel : Nat} (h : E.iterate fuel s = .ok s') : E.Advancing s' :=
  iterate_induction (fun _ _ hs hstep => (hs.step hgraph hasc hstep).1) h hs

lemma done (hs : E.Advancing s) {fuel : Nat}
    (hfuel : ∀ n : Nat, n ∈ s.worklist → E.graph.size ≤ n + fuel)
    (h : E.iterate fuel s = .ok s') : s'.worklist = [] := by
  induction fuel generalizing s with
  | zero =>
    cases h
    rw [List.eq_nil_iff_forall_not_mem]
    intro n hn
    exact absurd (hs.sized.worklist n hn) (not_lt.mpr (hfuel n hn))
  | succ fuel ih =>
    obtain ⟨next, hnext, h⟩ := bind_eq_ok h
    cases next with
    | none =>
      cases h
      exact worklist_of_done hnext
    | some t =>
      obtain ⟨ht, n, _, _, hvisits, hahead⟩ := hs.step hgraph hasc hnext
      refine ih ht (fun k hk => ?_) h
      obtain ⟨rest, hworklist, _⟩ := hvisits.worklist
      have hn := hfuel n (hworklist ▸ List.mem_cons_self)
      have hk := hahead k hk
      omega

lemma stateOf_iterate (hs : E.Advancing s) {n fuel : Nat} (hn : ∀ k : Nat, k ∈ s.worklist → n ≤ k)
    (h : E.iterate fuel s = .ok s') {k : Nat} (hk : k < n) : s'.stateOf k = s.stateOf k := by
  have hrun := iterate_induction (P := fun t => E.Advancing t ∧
    (∀ j : Nat, j ∈ t.worklist → n ≤ j) ∧ t.stateOf k = s.stateOf k) ?_ h ⟨hs, hn, rfl⟩
  · exact hrun.2.2
  · rintro t t' ⟨ht, hahead, hsame⟩ hstep
    obtain ⟨ht', j, _, _, hvisits, hlater⟩ := ht.step hgraph hasc hstep
    obtain ⟨rest, hworklist, _⟩ := hvisits.worklist
    have hj := hahead j (hworklist ▸ List.mem_cons_self)
    refine ⟨ht', fun i hi => hj.trans (hlater i hi).le, ?_⟩
    rw [hvisits.stateOf_other (hk.trans_le hj).ne, hsame]

end Advancing

end Engine

namespace Analysis

variable {c : Config} {m : Model} {p : Program}

lemma ofProgram_of_done {fuel : Nat} {s : Progress}
    (hcheck : m.check (.ofProgram p) c.initial = .ok ())
    (hs : (c.engine (.ofProgram p) m).after fuel = .ok s) (hdone : s.worklist = []) :
    ofProgram c m p fuel = .ok ⟨.ofProgram p, m, s.states, s.visits⟩ := by
  rw [Engine.after] at hs
  simp only [ofProgram, run, hcheck, ok_bind, hs, Failure.ofFault, hdone, List.isEmpty_nil, if_true,
    pure_eq_ok]

lemma ofProgram_of_fault {fuel : Nat} {f : Fault}
    (hcheck : m.check (.ofProgram p) c.initial = .ok ())
    (hf : (c.engine (.ofProgram p) m).after fuel = .error f) :
    ofProgram c m p fuel = .error (.fault f) := by
  rw [Engine.after] at hf
  simp only [ofProgram, run, hcheck, ok_bind, hf, Failure.ofFault]
  rfl

/-- The analysis of a program without loops ends after at most one step for each node. No node is
visited twice, and a node is visited only when the states before it no longer change. -/
theorem single_pass_of_loopFree (hp : p.body.LoopFree)
    (hcheck : m.check (.ofProgram p) c.initial = .ok ()) :
    (∀ fuel, (Graph.ofProgram p).size ≤ fuel →
      ((∃ a, ofProgram c m p fuel = .ok a) ∨ ∃ f, ofProgram c m p fuel = .error (.fault f)) ∧
      (m.Serves p → ∃ a, ofProgram c m p fuel = .ok a)) ∧
    ∀ i s, (c.engine (.ofProgram p) m).after i = .ok s →
      (∀ n, s.visitsOf n ≤ 1) ∧
      ∀ n rest, s.worklist = n :: rest → s.visitsOf n = 0 ∧
        ∀ k ∈ (Graph.ofProgram p).predsOf n, ∀ j s', i ≤ j →
          (c.engine (.ofProgram p) m).after j = .ok s' → s'.stateOf k = s.stateOf k := by
  have hgraph := Graph.sound_ofProgram p
  have hasc : ∀ x y, (x, y) ∈ (Graph.ofProgram p).edges → x < y := fun _ _ => hp.ascending
  have hinitial := Engine.advancing_initial (E := c.engine (.ofProgram p) m) hgraph
  constructor
  · intro fuel hfuel
    have hdone : ∀ s, (c.engine (.ofProgram p) m).after fuel = .ok s → s.worklist = [] :=
      fun s hs => hinitial.done hgraph hasc (fun n _ => Nat.le_add_left_of_le hfuel) hs
    constructor
    · cases hrun : (c.engine (.ofProgram p) m).after fuel with
      | error f => exact Or.inr ⟨f, ofProgram_of_fault hcheck hrun⟩
      | ok s => exact Or.inl ⟨_, ofProgram_of_done hcheck hrun (hdone s hrun)⟩
    · intro hm
      obtain ⟨s, hs⟩ := (ready_of_check hm hcheck).exists_after fuel
      exact ⟨_, ofProgram_of_done hcheck hs (hdone s hs)⟩
  · intro i s hs
    have hadvancing := hinitial.iterate hgraph hasc hs
    refine ⟨hadvancing.once, fun n rest hworklist => ⟨?_, ?_⟩⟩
    · exact hadvancing.unvisited (hworklist ▸ List.mem_cons_self)
    · intro k hk j s' hij hs'
      obtain ⟨t, ht, hlater⟩ := Engine.exists_iterate_of_after hij hs'
      obtain rfl := Except.ok.inj (hs.symm.trans ht)
      have hsorted := hadvancing.sorted
      rw [hworklist, List.pairwise_cons] at hsorted
      refine hadvancing.stateOf_iterate hgraph hasc (n := n) ?_ hlater
        (hasc k n ((hgraph.preds k n).mp hk))
      intro w hw
      rcases List.mem_cons.mp (hworklist ▸ hw) with rfl | hw
      · exact le_rfl
      · exact (hsorted.1 w hw).le

end Analysis

namespace Climb

def crossing : Program :=
  ⟨"climb", decls, .split (.atom (.assume below none) (.atom (.assign x readY) .done)) .done
    (.atom (.use x) .done)⟩

def crossingModel : Model :=
  ((⟨typer, .standard, false⟩ : ModelBuilder).run .empty [crossing]).1.toOption.getD .empty

lemma interprets_crossing : crossingModel.Interprets crossing := by
  refine ⟨workshop, [crossing], reachable, ?_, List.mem_singleton_self _,
    Model.standard_of_isSome rfl (by decide +kernel)⟩
  intro q hq
  rw [List.mem_singleton.mp hq]
  exact ⟨⟨"climb", decls⟩, List.mem_singleton_self _, crossing.body, rfl, by decide +kernel,
    by decide +kernel⟩

def crossingConfig : Config := ⟨.custom fun q q' _ => q'.trace.length ≤ q.trace.length, .empty⟩

theorem crossing_single_pass :
    (∃ a, Analysis.ofProgram crossingConfig crossingModel crossing 5 = .ok a) ∧
      ∃ s, (crossingConfig.engine (.ofProgram crossing) crossingModel).after 3 = .ok s ∧
        (∀ n, s.visitsOf n ≤ 1) ∧ s.worklist = [3] ∧ s.visitsOf 3 = 0 ∧
        ∀ k ∈ [2, 0], ∀ j s', 3 ≤ j →
          (crossingConfig.engine (.ofProgram crossing) crossingModel).after j = .ok s' →
            s'.stateOf k = s.stateOf k := by
  have hfree : crossing.body.LoopFree := ⟨trivial, trivial, trivial⟩
  have hcheck : crossingModel.check (.ofProgram crossing) crossingConfig.initial = .ok () :=
    toOption_eq_some (by decide +kernel)
  obtain ⟨hends, hrun⟩ := Analysis.single_pass_of_loopFree hfree hcheck
  have hsome : ((crossingConfig.engine (.ofProgram crossing) crossingModel).after 3).toOption.any
      (fun s => s.worklist = [3]) = true := by decide +kernel
  obtain ⟨s, hs, hworklist⟩ := exists_of_toOption_any hsome
  have hworklist := of_decide_eq_true hworklist
  obtain ⟨honce, hvisit⟩ := hrun 3 s hs
  obtain ⟨hfirst, hpreds⟩ := hvisit 3 [] hworklist
  refine ⟨(hends 5 (by decide +kernel)).2 interprets_crossing.serves, s, hs, honce, hworklist,
    hfirst, ?_⟩
  have hjoin : (Graph.ofProgram crossing).predsOf 3 = [2, 0] := by decide +kernel
  exact hjoin ▸ hpreds

end Climb

end Tracewise
