import Tracewise.Proofs.EnvironmentLattice
import Tracewise.Proofs.Regularity

/-! What merging makes of partitions, whatever the rule: groups, one for each merged partition,
which has the nodes of its group and the join of its values. -/

namespace Tracewise

open Fallible

namespace Domain

variable {dom : Domain} {values others : List Value} {a b c : Value}

lemma foldlM_join_eq_ok (h : values.foldlM dom.join a = .ok c) (ha : dom.accepts a = true) :
    (∀ b ∈ values, dom.accepts b = true) ∧ dom.accepts c = true ∧
      ∀ k, dom.accepts k = true → (c ≤ k ↔ a ≤ k ∧ ∀ b ∈ values, b ≤ k) := by
  induction values generalizing a with
  | nil =>
    cases h
    exact ⟨nofun, ha, by simp⟩
  | cons b values ih =>
    rw [List.foldlM_cons] at h
    obtain ⟨j, hj, h⟩ := bind_eq_ok h
    obtain ⟨_, hb⟩ := accepts_of_dispatch hj
    obtain ⟨j', hj', hacc, _⟩ := join_spec ha hb
    obtain rfl := Except.ok.inj (hj.symm.trans hj')
    obtain ⟨hvalues, hc, hleast⟩ := ih h hacc
    refine ⟨List.forall_mem_cons.mpr ⟨hb, hvalues⟩, hc, fun k hk => ?_⟩
    rw [hleast k hk, join_le_iff ha hb hk hj, List.forall_mem_cons, and_assoc]

lemma exists_foldlM_join (ha : dom.accepts a = true)
    (hvalues : ∀ b ∈ values, dom.accepts b = true) : ∃ c, values.foldlM dom.join a = .ok c := by
  induction values generalizing a with
  | nil => exact ⟨a, rfl⟩
  | cons b values ih =>
    obtain ⟨hb, hvalues⟩ := List.forall_mem_cons.mp hvalues
    obtain ⟨j, hj, hacc, _⟩ := join_spec ha hb
    rw [List.foldlM_cons, hj, ok_bind]
    exact ih hacc hvalues

lemma joinMany_eq_ok (h : dom.joinMany values = .ok c) :
    (∀ b ∈ values, dom.accepts b = true) ∧ dom.accepts c = true ∧
      ∀ k, dom.accepts k = true → (c ≤ k ↔ ∀ b ∈ values, b ≤ k) := by
  obtain ⟨hvalues, hc, hleast⟩ := foldlM_join_eq_ok h dom.accepts_bottom
  refine ⟨hvalues, hc, fun k hk => (hleast k hk).trans (and_iff_right ?_)⟩
  exact fun d hd => absurd hd (dom.not_mem_bottom d)

lemma joinMany_eq_ok_iff : dom.joinMany values = .ok c ↔
    (∀ b ∈ values, dom.accepts b = true) ∧ dom.accepts c = true ∧
      ∀ k, dom.accepts k = true → (c ≤ k ↔ ∀ b ∈ values, b ≤ k) := by
  refine ⟨joinMany_eq_ok, fun ⟨hvalues, hc, hleast⟩ => ?_⟩
  obtain ⟨j, hj⟩ := exists_foldlM_join dom.accepts_bottom hvalues
  obtain ⟨_, hacc, hleast'⟩ := joinMany_eq_ok hj
  have hcj : c ≤ j := (hleast j hacc).mpr ((hleast' j hacc).mp le_rfl)
  have hjc : j ≤ c := (hleast' c hc).mpr ((hleast c hc).mp le_rfl)
  rw [eq_of_le_of_le hc hacc hcj hjc]
  exact hj

lemma joinMany_singleton (ha : dom.accepts a = true) : dom.joinMany [a] = .ok a :=
  joinMany_eq_ok_iff.mpr ⟨by simpa using ha, ha, by simp⟩

lemma joinMany_append (ha : dom.joinMany values = .ok a) (hb : dom.joinMany others = .ok b)
    (hc : dom.join a b = .ok c) : dom.joinMany (values ++ others) = .ok c := by
  obtain ⟨hvalues, hacca, hleast⟩ := joinMany_eq_ok ha
  obtain ⟨hothers, haccb, hleast'⟩ := joinMany_eq_ok hb
  obtain ⟨c', hc', haccc, _⟩ := join_spec hacca haccb
  obtain rfl := Except.ok.inj (hc.symm.trans hc')
  refine joinMany_eq_ok_iff.mpr ⟨List.forall_mem_append.mpr ⟨hvalues, hothers⟩, haccc, ?_⟩
  intro k hk
  rw [join_le_iff hacca haccb hk hc, hleast k hk, hleast' k hk, List.forall_mem_append]

end Domain

namespace Partition

variable {m : Model} {vars : Env} {group others : List Partition} {p q r : Partition}

/-- The partition that stands for all of a group, and for no more than it. -/
structure Unites (m : Model) (group : List Partition) (q : Partition) : Prop where
  nonempty : group ≠ []
  nodes : ∀ n, n ∈ q.trace.nodes ↔ ∃ p ∈ group, n ∈ p.trace.nodes
  nodup : (∀ p ∈ group, p.trace.nodes.Nodup) → q.trace.nodes.Nodup
  sameVars : ∀ p ∈ group, p.env.SameVars q.env
  values : ∀ v c, q.env.get? v = some c → ∃ dom, m.varDomain? v = some dom ∧
    dom.joinMany (group.filterMap (·.env.get? v)) = .ok c

lemma unites_singleton (hp : p.env.Typed m) : Unites m [p] p where
  nonempty := List.cons_ne_nil p []
  nodes n := by simp
  nodup h := h p List.mem_cons_self
  sameVars q hq := by
    rw [List.mem_singleton.mp hq]
    exact fun v => rfl
  values v c hc := by
    obtain ⟨dom, hdom, hacc⟩ := hp v c hc
    refine ⟨dom, hdom, ?_⟩
    simpa [hc] using Domain.joinMany_singleton hacc

lemma Unites.merge (hp : p.Fits m vars) (hq : q.Fits m vars) (hgroup : Unites m group p)
    (hothers : Unites m others q) (h : p.merge q m = .ok r) : Unites m (group ++ others) r := by
  have hvars : p.env.SameVars q.env := hp.sameVars.symm.trans hq.sameVars
  obtain ⟨env, henv, hsame, hvalues⟩ :=
    Env.combine_spec hp.typed hq.typed hvars fun _ _ _ => Domain.join_spec
  obtain ⟨env', henv', h⟩ := bind_eq_ok h
  obtain rfl := Except.ok.inj (henv.symm.trans henv')
  cases h
  constructor
  case nonempty => exact List.append_ne_nil_of_left_ne_nil hgroup.nonempty others
  case nodes =>
    intro n
    simp only [Trace.mem_union, hgroup.nodes, hothers.nodes, List.mem_append, or_and_right,
      exists_or]
  case nodup =>
    intro hnodup
    exact Trace.nodup_union
      (hgroup.nodup fun o ho => hnodup o (List.mem_append_left others ho)) q.trace
  case sameVars =>
    intro o ho
    rcases List.mem_append.mp ho with ho | ho
    · exact (hgroup.sameVars o ho).trans hsame
    · exact (hothers.sameVars o ho).trans (hvars.symm.trans hsame)
  case values =>
    intro v c hc
    obtain ⟨dom, a, b, hdom, ha, hb, hjoin, _⟩ := hvalues v c hc
    obtain ⟨dom', hdom', hjoina⟩ := hgroup.values v a ha
    obtain rfl := Option.some.inj (hdom.symm.trans hdom')
    obtain ⟨dom', hdom', hjoinb⟩ := hothers.values v b hb
    obtain rfl := Option.some.inj (hdom.symm.trans hdom')
    refine ⟨dom, hdom, ?_⟩
    rw [List.filterMap_append]
    exact Domain.joinMany_append hjoina hjoinb hjoin

end Partition

namespace MergeRule

open Tracewise.Partition

variable {m : Model} {vars : Env}

lemma gathers_unites (rule : MergeRule) (m : Model) (vars : Env) :
    rule.Gathers m (Fits m vars) fun group q => q.Fits m vars ∧ Unites m group q where
  single p hp := ⟨hp, unites_singleton hp.typed⟩
  merge g g' p q r hp hq _ h := by
    obtain ⟨r', hr', hfits, _⟩ := merge_spec hp.1 hq.1
    obtain rfl := Except.ok.inj (h.symm.trans hr')
    exact ⟨hfits, .merge hp.1 hq.1 hp.2 hq.2 h⟩

theorem mergeAll_groups_input (rule : MergeRule) {parts : List Partition}
    (hparts : ∀ p ∈ parts, p.Fits m vars) :
    ∃ result, rule.mergeAll m parts = .ok result ∧
      (∃ groups : List (List Partition), groups.flatten.Perm parts ∧
        List.Forall₂ (Unites m) groups result) ∧
      (result.Pairwise fun p q =>
        p.trace.sameNodes q.trace = false ∧ rule.applies m p q = .ok false) ∧
      rule.mergeAll m result = .ok result := by
  obtain ⟨result, hresult⟩ := exists_mergeAll hparts
  obtain ⟨groups, hperm, hgroups⟩ := (rule.gathers_unites m vars).mergeAll hparts hresult
  have hsettled : rule.Settled m result := settled_mergeAll hresult
  refine ⟨result, hresult, ⟨groups, hperm, hgroups.imp fun _ _ h => h.2⟩, ?_, ?_⟩
  · exact hsettled.imp folds_eq_false_iff.mp
  · exact mergeAll_of_settled hsettled

end MergeRule

namespace Climb

def atLevel (n : Int64) : Env :=
  .ofList [(x.var, .ints (.constant n)), (y.var, .ints (.between 0 3))]

def arrivals : List Partition :=
  [⟨⟨[0, 1]⟩, atLevel 0⟩, ⟨⟨[0, 2]⟩, atLevel 1⟩, ⟨⟨[0, 3]⟩, atLevel 2⟩, ⟨⟨[0, 4]⟩, atLevel 3⟩]

def snowball : MergeRule :=
  .custom fun p q _ => 2 < q.trace.length || (p.trace.contains 2 && q.trace.contains 3)

lemma sameVars_atLevel (k n : Int64) : (atLevel k).SameVars (atLevel n) := by
  intro v
  simp only [atLevel, Env.ofList, List.foldl_cons, List.foldl_nil, Env.get?_set,
    apply_ite Option.isSome, Option.isSome_some]

lemma arrivals_fit : ∀ p ∈ arrivals, p.Fits model (atLevel 0) := by
  simp only [arrivals, List.forall_mem_cons]
  refine ⟨⟨?_, sameVars_atLevel 0 0⟩, ⟨?_, sameVars_atLevel 0 1⟩, ⟨?_, sameVars_atLevel 0 2⟩,
    ⟨?_, sameVars_atLevel 0 3⟩, nofun⟩
  all_goals decide +kernel

theorem snowball_groups_arrivals :
    ∃ result, snowball.mergeAll model arrivals = .ok result ∧
      result.map (·.trace.length) = [4, 2] ∧
      (∃ groups : List (List Partition), groups.flatten.Perm arrivals ∧
        List.Forall₂ (Partition.Unites model) groups result) ∧
      snowball.mergeAll model result = .ok result := by
  obtain ⟨result, hresult, hgroups, _, hagain⟩ := snowball.mergeAll_groups_input arrivals_fit
  have hlengths : (snowball.mergeAll model arrivals).toOption.map
      (List.map (·.trace.length)) = some [4, 2] := by decide +kernel
  rw [hresult] at hlengths
  exact ⟨result, hresult, Option.some.inj hlengths, hgroups, hagain⟩

end Climb

end Tracewise
