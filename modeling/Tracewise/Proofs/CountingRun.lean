import Tracewise.Proofs.CountingLoop
import Tracewise.Proofs.Grouping
import Tracewise.Proofs.SinglePass

/-! The run on a loop that counts up to a bound. None of its visits depends on the bound: the
widening jumps to the end of the range, and the guard alone brings the bound back. -/

namespace Tracewise

open Fallible Saturating

namespace Interval

variable {l₁ u₁ l₂ u₂ : Int64}

lemma join_between (h₁ : l₁ ≤ u₁) (h₂ : l₂ ≤ u₂) :
    (between l₁ u₁).join (between l₂ u₂) = between (min l₁ l₂) (max u₁ u₂) := by
  rw [between_of_le h₁, between_of_le h₂]
  rfl

lemma subset_between (hl : l₂ ≤ l₁) (hu : u₁ ≤ u₂) :
    (between l₁ u₁).subset (between l₂ u₂) = true := by
  rw [subset_iff]
  intro n hn
  rw [mem_between] at hn ⊢
  exact ⟨Int64.le_trans hl hn.1, Int64.le_trans hn.2 hu⟩

lemma between_inj (h₁ : l₁ ≤ u₁) (h : between l₁ u₁ = between l₂ u₂) : l₁ = l₂ ∧ u₁ = u₂ := by
  have h₂ : l₂ ≤ u₂ := by
    by_contra hne
    rw [(between_eq_empty_iff l₂ u₂).mpr (Int64.not_le.mp hne), between_of_le h₁] at h
    cases h
  rw [between_of_le h₁, between_of_le h₂] at h
  cases h
  exact ⟨rfl, rfl⟩

end Interval

lemma Range.widen_between (r : Range) {u w : Int64} (hu : 0 ≤ u) (hw : 0 ≤ w) :
    r.widen (.between 0 u) (.between 0 w) = .between 0 (if u < w then Max.max r.max w else u) := by
  rw [Interval.between_of_le hu, Interval.between_of_le hw, Range.widen,
    if_neg Int64.lt_irrefl]

namespace Env

variable {v : VarId} {a b c : Value} {m : Model} {dom : Domain}

lemma single_inj (h : single v a = single v b) : a = b := by
  have hget := congrArg (·.get? v) h
  simpa using hget

lemma combine_single {f : Domain → Value → Value → Except Fault Value}
    (hdom : m.varDomain? v = some dom) (h : f dom a b = .ok c) :
    combine f (single v a) (single v b) m = .ok (single v c) := by
  have hlist : (single v b).toList = [(v, b)] := rfl
  simp only [combine, hlist, List.foldlM_cons, List.foldlM_nil, get?_single, hdom, h, ok_bind,
    pure_eq_ok, set_single]

lemma le_single (hdom : m.varDomain? v = some dom) (h : dom.le a b = .ok true) :
    (single v a).le (single v b) m = .ok true := by
  have hlist : (single v a).toList = [(v, a)] := rfl
  simp only [le, hlist, List.allM, get?_single, hdom, h]
  rfl

end Env

namespace Engine

variable {E : Engine} {s s' s'' : Progress} {n : NodeId} {node : Node} {rest : List NodeId}
  {state : List Partition} {p : Partition} {env : Env}

lemma iterate_trans {i j : Nat} (h : E.iterate i s = .ok s') (h' : E.iterate j s' = .ok s'') :
    E.iterate (i + j) s = .ok s'' := by
  rw [iterate_add, h, ok_bind, h']

lemma iterate_one (hworklist : s.worklist = n :: rest) (hnode : E.graph.nodes[n]? = some node)
    (hstate : E.recompute s node = .ok state) :
    E.iterate 1 s = .ok (E.store ⟨s.states, s.visits.modify n (· + 1), rest⟩ n state) := by
  have hrecompute : E.recompute ⟨s.states, s.visits.modify n (· + 1), rest⟩ node = .ok state :=
    hstate
  simp only [iterate, step, hworklist, visit, hnode, hrecompute, ok_bind, pure_eq_ok]

lemma iterate_changed (hworklist : s.worklist = n :: rest)
    (hnode : E.graph.nodes[n]? = some node) (hstate : E.recompute s node = .ok state)
    (hnew : state ≠ s.stateOf n) :
    E.iterate 1 s = .ok ⟨s.states.setIfInBounds n state, s.visits.modify n (· + 1),
      (E.graph.succsOf n).foldl Progress.schedule rest⟩ := by
  rw [iterate_one hworklist hnode hstate, store]
  exact congrArg Except.ok (if_neg hnew)

lemma iterate_unchanged (hworklist : s.worklist = n :: rest)
    (hnode : E.graph.nodes[n]? = some node) (hstate : E.recompute s node = .ok (s.stateOf n)) :
    E.iterate 1 s = .ok ⟨s.states, s.visits.modify n (· + 1), rest⟩ := by
  rw [iterate_one hworklist hnode hstate, store]
  exact congrArg Except.ok (if_pos rfl)

lemma recompute_of_one (hwidening : node.widening = false) (hin : E.incoming s node.id = [p])
    (htransfer : E.model.transfer node.atom p.env = .ok (some env)) :
    E.recompute s node = .ok [⟨p.trace.extend node.id, env⟩] := by
  have hpass : E.pass node p = .ok (some ⟨p.trace.extend node.id, env⟩) := by
    rw [pass, htransfer]
    rfl
  rw [recompute, hin, List.filterMapM_cons, hpass, hwidening]
  rfl

end Engine

namespace CountingLoop

variable {l : CountingLoop} {m : Model} {r : Range} {bound : Int64}

def path (n : Nat) : Trace := ⟨List.range (n + 1)⟩

def part (l : CountingLoop) (t : Trace) (i : Interval) : Partition :=
  ⟨t, .single l.x.var (.ints i)⟩

def engine (l : CountingLoop) (m : Model) (r : Range) : Engine where
  graph := ⟨l.program, l.graphNodes.toArray, graphEdges.toArray,
    #[[1], [2], [3, 5], [4], [2], [6], []], #[[], [0], [1, 4], [2], [3], [2], [5]]⟩
  model := m
  rule := .default
  startEnv := .single l.x.var (.ints r.top)

def visited (trail : List NodeId) : Array Nat :=
  trail.foldl (fun visits n => visits.modify n (· + 1)) (Array.replicate 7 0)

def point (l : CountingLoop) (r : Range) (states : List (List Partition))
    (trail worklist : List NodeId) : Progress :=
  ⟨([l.part (path 0) r.top] :: [l.part (path 1) (.between 0 0)] :: states).toArray, visited trail,
    worklist⟩

lemma visited_snoc (trail : List NodeId) (n : NodeId) :
    visited (trail ++ [n]) = (visited trail).modify n (· + 1) := by
  rw [visited, visited, List.foldl_append, List.foldl_cons, List.foldl_nil]

lemma getElem?_visited {trail : List NodeId} {n : NodeId} (hn : n < 7) :
    (visited trail)[n]? = some (List.count n trail) := by
  induction trail using List.reverseRecOn with
  | nil =>
    rw [visited, List.foldl_nil, Array.getElem?_replicate, if_pos hn]
    rfl
  | append_singleton trail k ih =>
    rw [visited_snoc, Array.getElem?_modify, ih, List.count_append, List.count_singleton]
    by_cases hk : k = n <;> simp [hk]

lemma part_inj {t t' : Trace} {i j : Interval} (h : l.part t i = l.part t' j) : t = t' ∧ i = j := by
  obtain ⟨htrace, henv⟩ := Partition.mk.inj h
  exact ⟨htrace, Value.ints.inj (Env.single_inj henv)⟩

lemma parts_ne {t t' : Trace} {a u v : Int64} (hu : a ≤ u) (hlt : v < u) :
    [l.part t (.between a u)] ≠ [l.part t' (.between a v)] := by
  intro heq
  obtain ⟨_, heq⟩ := part_inj (List.cons.inj heq).1
  exact Int64.ne_of_lt hlt (Interval.between_inj hu heq).2.symm

section Visits

variable {states : List (List Partition)} {trail rest : List NodeId} {n : NodeId}

lemma iterate_changed {node : Node} {state : List Partition}
    (hnode : (l.engine m r).graph.nodes[n]? = some node)
    (hstate : (l.engine m r).recompute (l.point r states trail (n :: rest)) node = .ok state)
    (hnew : state ≠ (l.point r states trail (n :: rest)).stateOf n) :
    (l.engine m r).iterate 1 (l.point r states trail (n :: rest)) =
      .ok ⟨(l.point r states trail (n :: rest)).states.setIfInBounds n state,
        visited (trail ++ [n]), ((l.engine m r).graph.succsOf n).foldl Progress.schedule rest⟩ := by
  rw [Engine.iterate_changed rfl hnode hstate hnew, visited_snoc]
  rfl

lemma iterate_unchanged {node : Node} (hnode : (l.engine m r).graph.nodes[n]? = some node)
    (hstate : (l.engine m r).recompute (l.point r states trail (n :: rest)) node =
      .ok ((l.point r states trail (n :: rest)).stateOf n)) :
    (l.engine m r).iterate 1 (l.point r states trail (n :: rest)) =
      .ok (l.point r states (trail ++ [n]) rest) := by
  rw [Engine.iterate_unchanged rfl hnode hstate]
  simp only [point, visited_snoc]

lemma recompute_of_one {worklist : List NodeId} {name : String} {atom : Option Atom} {t : Trace}
    {i j : Interval}
    (hin : (l.engine m r).incoming (l.point r states trail worklist) n = [l.part t i])
    (htransfer : m.transfer atom (.single l.x.var (.ints i)) =
      .ok (some (.single l.x.var (.ints j)))) :
    (l.engine m r).recompute (l.point r states trail worklist) ⟨n, name, false, atom⟩ =
      .ok [l.part (t.extend n) j] :=
  Engine.recompute_of_one (p := l.part t i) rfl hin htransfer

lemma iterate_visit {name : String} {atom : Option Atom} {t : Trace} {i j : Interval}
    (hnode : (l.engine m r).graph.nodes[n]? = some ⟨n, name, false, atom⟩)
    (hin : (l.engine m r).incoming (l.point r states trail (n :: rest)) n = [l.part t i])
    (htransfer : m.transfer atom (.single l.x.var (.ints i)) =
      .ok (some (.single l.x.var (.ints j))))
    (hnew : [l.part (t.extend n) j] ≠ (l.point r states trail (n :: rest)).stateOf n) :
    (l.engine m r).iterate 1 (l.point r states trail (n :: rest)) =
      .ok ⟨(l.point r states trail (n :: rest)).states.setIfInBounds n [l.part (t.extend n) j],
        visited (trail ++ [n]), ((l.engine m r).graph.succsOf n).foldl Progress.schedule rest⟩ :=
  iterate_changed hnode (recompute_of_one hin htransfer) hnew

lemma iterate_head_first :
    (l.engine m r).iterate 1 (l.point r [[], [], [], [], []] [0, 1] [2]) =
      .ok (l.point r [[l.part (path 2) (.between 0 0)], [], [], [], []] [0, 1, 2] [3, 5]) := by
  have hstate : (l.engine m r).recompute (l.point r [[], [], [], [], []] [0, 1] [2])
      ⟨2, "loop_start0", true, none⟩ = .ok [l.part (path 2) (.between 0 0)] := rfl
  rw [iterate_changed rfl hstate (List.cons_ne_nil _ _)]
  rfl

end Visits

section Run

variable (h : l.Modelled m r bound)
include h

lemma engine_eq : Config.default.engine (.ofProgram l.program) m = l.engine m r := by
  have htop : Env.top l.program m = .single l.x.var (.ints r.top) := by
    have hvar := h.var
    simp only [Env.top, program, decl, List.filterMap_cons, List.filterMap_nil, hvar, Option.map_some]
    rfl
  rw [Config.engine, graph_program, engine, Config.startEnv, ← htop]
  rfl

lemma iterate_start (hmin : r.min ≤ 0) (hmax : 0 ≤ r.max) :
    (l.engine m r).iterate 2 (l.engine m r).initial =
      .ok (l.point r [[], [], [], [], []] [0, 1] [2]) := by
  have hfirst : (l.engine m r).iterate 1 (l.engine m r).initial =
      .ok ⟨#[[l.part (path 0) r.top], [], [], [], [], [], []], visited [0], [1]⟩ := by
    have hstate : (l.engine m r).recompute (l.engine m r).initial ⟨0, "start0", false, none⟩ =
        .ok [l.part (path 0) r.top] := rfl
    rw [Engine.iterate_changed (n := 0) rfl rfl hstate (List.cons_ne_nil _ _)]
    rfl
  apply Engine.iterate_trans (j := 1) hfirst
  have hstate : (l.engine m r).recompute ⟨#[[l.part (path 0) r.top], [], [], [], [], [], []],
      visited [0], [1]⟩ ⟨1, "assign0", false, some (.assign l.x (l.number 0 "0"))⟩ =
        .ok [l.part (path 1) (.between 0 0)] :=
    Engine.recompute_of_one (p := l.part (path 0) r.top) rfl rfl (transfer_zero h hmin hmax _)
  rw [Engine.iterate_changed (n := 1) rfl rfl hstate (List.cons_ne_nil _ _)]
  rfl

lemma iterate_round (t : Trace) {u : Int64} {guard inc : List Partition} (trail : List NodeId)
    (hmin : r.min ≤ 0) (hbound : 0 < bound) (hmax : bound ≤ r.max) (hu : 0 ≤ u)
    (hguard : [l.part (t.extend 3) (.between 0 (min u (sub bound 1)))] ≠ guard)
    (hinc : [l.part ((t.extend 3).extend 4)
      (.between 1 (add (min u (sub bound 1)) 1))] ≠ inc) :
    (l.engine m r).iterate 2
        (l.point r [[l.part t (.between 0 u)], guard, inc, [], []] trail [3, 5]) =
      .ok (l.point r [[l.part t (.between 0 u)],
        [l.part (t.extend 3) (.between 0 (min u (sub bound 1)))],
        [l.part ((t.extend 3).extend 4) (.between 1 (add (min u (sub bound 1)) 1))], [], []]
        (trail ++ [3] ++ [4]) [2, 5]) := by
  have hassume : (l.engine m r).iterate 1
      (l.point r [[l.part t (.between 0 u)], guard, inc, [], []] trail [3, 5]) =
        .ok (l.point r [[l.part t (.between 0 u)],
          [l.part (t.extend 3) (.between 0 (min u (sub bound 1)))], inc, [], []]
          (trail ++ [3]) [4, 5]) :=
    iterate_visit rfl rfl (transfer_below h hu hbound) hguard
  have hnext := transfer_next h hmin (pred_nonneg hu hbound) (pred_lt_max hbound hmax u)
  exact Engine.iterate_trans (j := 1) hassume (iterate_visit rfl rfl hnext hinc)

lemma mergeAll_head {w : Int64} (hw : 1 ≤ w) :
    MergeRule.default.mergeAll m [l.part (path 2) (.between 0 0), l.part (path 4) (.between 1 w)] =
      .ok [l.part (path 4) (.between 0 w)] := by
  have hzero : (0 : Int64) ≤ w := Int64.le_trans (by decide) hw
  have hjoin : (Domain.int r).join (.ints (.between 0 0)) (.ints (.between 1 w)) =
      .ok (.ints (.between 0 w)) := by
    have hunion : (Interval.between 0 0).join (.between 1 w) = .between 0 w := by
      rw [Interval.join_between (Int64.le_refl 0) hw, min_of_le (by decide), max_of_le hzero]
    exact congrArg (fun i => Except.ok (Value.ints i)) hunion
  change (((Env.join (.single l.x.var _) (.single l.x.var _) m >>= _) >>= _) >>= _) = _
  rw [Env.join, Env.combine_single h.var hjoin]
  rfl

lemma recompute_head (guard : List Partition) (trail worklist : List NodeId) {w : Int64}
    {head state : List Partition} (hw : 1 ≤ w)
    (hwiden : Engine.widenState m head [l.part (path 4) (.between 0 w)] = .ok state) :
    (l.engine m r).recompute (l.point r
      [head, guard, [l.part (path 4) (.between 1 w)], [], []] trail worklist)
      ⟨2, "loop_start0", true, none⟩ = .ok state := by
  change (MergeRule.default.mergeAll m _ >>= fun merged => Engine.widenState m head merged) = _
  rw [← hwiden]
  exact congrArg (· >>= Engine.widenState m head) (mergeAll_head h hw)

lemma iterate_head (guard : List Partition) (trail : List NodeId) {w : Int64}
    {head state : List Partition} (hw : 1 ≤ w)
    (hwiden : Engine.widenState m head [l.part (path 4) (.between 0 w)] = .ok state)
    (hnew : state ≠ head) :
    (l.engine m r).iterate 1 (l.point r
      [head, guard, [l.part (path 4) (.between 1 w)], [], []] trail [2, 5]) =
        .ok (l.point r [state, guard, [l.part (path 4) (.between 1 w)], [], []]
          (trail ++ [2]) [3, 5]) :=
  iterate_changed (n := 2) rfl (recompute_head h guard trail [2, 5] hw hwiden) hnew

lemma widenState_longer {w : Int64} (hw : 0 ≤ w) :
    Engine.widenState m [l.part (path 2) (.between 0 0)] [l.part (path 4) (.between 0 w)] =
      .ok [l.part (path 4) (.between 0 w)] := by
  have hle : (Domain.int r).le (.ints (.between 0 0)) (.ints (.between 0 w)) = .ok true :=
    congrArg Except.ok (Interval.subset_between (Int64.le_refl 0) hw)
  change ((((Env.le (.single l.x.var _) (.single l.x.var _) m) >>= _) >>= _) >>= _) = _
  rw [Env.le_single h.var hle]
  rfl

lemma widenState_again {u w : Int64} (hu : 0 ≤ u) (hw : 0 ≤ w) :
    Engine.widenState m [l.part (path 4) (.between 0 u)] [l.part (path 4) (.between 0 w)] =
      .ok [l.part (path 4) (.between 0 (if u < w then max r.max w else u))] := by
  have hwiden : (Domain.int r).widen (.ints (.between 0 u)) (.ints (.between 0 w)) =
      .ok (.ints (.between 0 (if u < w then max r.max w else u))) :=
    congrArg (fun i => Except.ok (Value.ints i)) (r.widen_between hu hw)
  change ((((Env.widen (.single l.x.var _) (.single l.x.var _) m) >>= _) >>= _) >>= _) = _
  rw [Env.widen, Env.combine_single h.var hwiden]
  rfl

lemma iterate_widened (hmin : r.min ≤ 0) (htwo : 2 ≤ bound) (hmax : bound ≤ r.max) :
    (l.engine m r).iterate 9 (l.engine m r).initial =
      .ok (l.point r [[l.part (path 4) (.between 0 r.max)], [l.part (path 4) (.between 0 1)],
        [l.part (path 4) (.between 1 2)], [], []] [0, 1, 2, 3, 4, 2, 3, 4, 2] [3, 5]) := by
  have hbound : 0 < bound := Int64.lt_of_lt_of_le (by decide) htwo
  have hlast : 2 ≤ r.max := Int64.le_trans htwo hmax
  have hzero : min 0 (sub bound 1) = 0 := min_of_le (le_pred hbound)
  have hone : min 1 (sub bound 1) = 1 := min_of_le (le_pred (Int64.lt_of_lt_of_le (by decide) htwo))
  have hstart := Engine.iterate_trans (iterate_start h hmin (Int64.le_trans (by decide) hlast))
    iterate_head_first
  have hround := iterate_round h (path 2) [0, 1, 2] hmin hbound hmax (Int64.le_refl 0)
    (List.cons_ne_nil _ _) (List.cons_ne_nil _ _)
  rw [hzero] at hround
  have hhead := iterate_head h [l.part (path 3) (.between 0 0)] [0, 1, 2, 3, 4] (Int64.le_refl 1)
    (widenState_longer h (by decide)) (parts_ne (by decide) (by decide))
  have hguard : [l.part (path 4) (.between 0 (min 1 (sub bound 1)))] ≠
      [l.part (path 3) (.between 0 0)] := by
    rw [hone]
    exact parts_ne (by decide) (by decide)
  have hinc : [l.part (path 4) (.between 1 (add (min 1 (sub bound 1)) 1))] ≠
      [l.part (path 4) (.between 1 1)] := by
    rw [hone]
    exact parts_ne (by decide) (by decide)
  have hround' := iterate_round h (path 4) [0, 1, 2, 3, 4, 2] hmin hbound hmax (by decide) hguard hinc
  rw [hone] at hround'
  have hwiden := widenState_again h (u := 1) (w := 2) (by decide) (by decide)
  rw [if_pos (by decide), max_of_ge hlast] at hwiden
  have hhead' := iterate_head h [l.part (path 4) (.between 0 1)] [0, 1, 2, 3, 4, 2, 3, 4] (by decide)
    hwiden (parts_ne (Int64.le_trans (by decide) hlast) (Int64.lt_of_lt_of_le (by decide) hlast))
  exact Engine.iterate_trans (Engine.iterate_trans (Engine.iterate_trans (Engine.iterate_trans hstart
    hround) hhead) hround') hhead'

lemma iterate_settle (hmin : r.min ≤ 0) (htwo : 2 ≤ bound) (hmax : bound ≤ r.max)
    (trail : List NodeId) :
    ∃ steps more, steps ≤ 3 ∧ List.count 2 more = (if bound = 2 then 0 else 1) ∧
      (l.engine m r).iterate steps (l.point r [[l.part (path 4) (.between 0 r.max)],
        [l.part (path 4) (.between 0 1)], [l.part (path 4) (.between 1 2)], [], []]
        trail [3, 5]) =
      .ok (l.point r [[l.part (path 4) (.between 0 r.max)],
        [l.part (path 4) (.between 0 (sub bound 1))], [l.part (path 4) (.between 1 bound)], [], []]
        (trail ++ more) [5]) := by
  have hbound : 0 < bound := Int64.lt_of_lt_of_le (by decide) htwo
  have hlast : 0 ≤ r.max := Int64.le_trans (Int64.le_of_lt hbound) hmax
  have hpred : min r.max (sub bound 1) = sub bound 1 :=
    min_of_ge (Int64.le_of_lt (Int64.lt_of_lt_of_le (pred_lt hbound) hmax))
  have hsucc := add_pred hbound
  by_cases heq : bound = 2
  · subst heq
    refine ⟨1, [3], by decide, by decide, ?_⟩
    apply iterate_unchanged (n := 3) rfl
    have htransfer := transfer_below h hlast hbound
    rw [hpred] at htransfer
    exact recompute_of_one (t := path 4) (n := 3) rfl htransfer
  · have hgreater : 2 < bound := Int64.lt_of_le_of_ne htwo (Ne.symm heq)
    refine ⟨3, [3, 4, 2], by decide, by rw [if_neg heq]; rfl, ?_⟩
    have hguard : [l.part (path 4) (.between 0 (min r.max (sub bound 1)))] ≠
        [l.part (path 4) (.between 0 1)] := by
      rw [hpred]
      exact parts_ne (le_pred hbound) (Int64.lt_of_lt_of_le (by decide) (le_pred hgreater))
    have hinc : [l.part (path 4) (.between 1 (add (min r.max (sub bound 1)) 1))] ≠
        [l.part (path 4) (.between 1 2)] := by
      rw [hpred, hsucc]
      exact parts_ne (one_le hbound) hgreater
    have hround := iterate_round h (path 4) trail hmin hbound hmax hlast hguard hinc
    rw [hpred, hsucc] at hround
    have hwiden := widenState_again h hlast (Int64.le_of_lt hbound)
    rw [if_neg (Int64.not_lt.mpr hmax)] at hwiden
    have hhead : (l.engine m r).iterate 1 _ = _ := iterate_unchanged (n := 2) rfl
      (recompute_head h [l.part (path 4) (.between 0 (sub bound 1))] (trail ++ [3] ++ [4]) [2, 5]
        (one_le hbound) hwiden)
    have hall := Engine.iterate_trans hround hhead
    simpa only [List.append_assoc, List.cons_append, List.nil_append] using hall

lemma iterate_exit (hbound : 0 < bound) (hmax : bound ≤ r.max) {guard inc : List Partition}
    {trail : List NodeId} :
    (l.engine m r).iterate 2 (l.point r
      [[l.part (path 4) (.between 0 r.max)], guard, inc, [], []] trail [5]) =
      .ok (l.point r [[l.part (path 4) (.between 0 r.max)], guard, inc,
        [l.part (path 5) (.between 0 r.max)], [l.part (path 6) (.between bound r.max)]]
        (trail ++ [5] ++ [6]) []) := by
  have hjoin : (l.engine m r).iterate 1 (l.point r
      [[l.part (path 4) (.between 0 r.max)], guard, inc, [], []] trail [5]) =
        .ok (l.point r [[l.part (path 4) (.between 0 r.max)], guard, inc,
          [l.part (path 5) (.between 0 r.max)], []] (trail ++ [5]) [6]) :=
    iterate_visit (t := path 4) rfl rfl rfl (List.cons_ne_nil _ _)
  exact Engine.iterate_trans (j := 1) hjoin
    (iterate_visit (t := path 5) rfl rfl (transfer_negated h hbound hmax) (List.cons_ne_nil _ _))

def finished (l : CountingLoop) (r : Range) (bound : Int64) (trail : List NodeId) : Progress :=
  l.point r [[l.part (path 4) (.between 0 r.max)], [l.part (path 4) (.between 0 (sub bound 1))],
    [l.part (path 4) (.between 1 bound)], [l.part (path 5) (.between 0 r.max)],
    [l.part (path 6) (.between bound r.max)]] trail []

lemma exists_finished (hmin : r.min ≤ 0) (htwo : 2 ≤ bound) (hmax : bound ≤ r.max) :
    ∃ trail, List.count 2 trail = (if bound = 2 then 3 else 4) ∧ ∀ fuel, 14 ≤ fuel →
      (l.engine m r).after fuel = .ok (l.finished r bound trail) := by
  have hbound : 0 < bound := Int64.lt_of_lt_of_le (by decide) htwo
  obtain ⟨steps, more, hsteps, hmore, hsettle⟩ :=
    iterate_settle h hmin htwo hmax [0, 1, 2, 3, 4, 2, 3, 4, 2]
  have hrun := Engine.iterate_trans (Engine.iterate_trans (iterate_widened h hmin htwo hmax) hsettle)
    (iterate_exit h hbound hmax)
  refine ⟨[0, 1, 2, 3, 4, 2, 3, 4, 2] ++ more ++ [5] ++ [6], ?_, fun fuel hfuel => ?_⟩
  · simp only [List.count_append, hmore]
    split <;> rfl
  · have hdone := Engine.iterate_of_done (E := l.engine m r) (s := l.finished r bound
      ([0, 1, 2, 3, 4, 2, 3, 4, 2] ++ more ++ [5] ++ [6])) rfl (fuel - (9 + steps + 2))
    have hall := Engine.iterate_trans hrun hdone
    rwa [show 9 + steps + 2 + (fuel - (9 + steps + 2)) = fuel by omega] at hall

lemma checkNode_nodes {e : Expr} (he : e ∈ l.nodes) : m.checkNode e = .ok () := by
  have hsome : ∀ entry ∈ entries r bound, entry.isSome = true := List.all_eq_true.mp rfl
  have hident : ∀ e ∈ l.nodes, ∀ x, e.ident? = some x → x = l.x := by
    simp [nodes, Expr.ident?, number, counter, below, next, negated]
  have hentry := List.mem_map_of_mem (f := m.entry?) he
  rw [h.entries] at hentry
  obtain ⟨entry, hentry⟩ := Option.isSome_iff_exists.mp (hsome _ hentry)
  rw [Model.checkNode, hentry]
  cases hx : e.ident? with
  | none => rfl
  | some x =>
    rw [hident e he x hx]
    change m.checkVar l.x = _
    rw [Model.checkVar, h.var]

lemma checkAtom_atoms {a : Atom} (ha : a ∈ l.program.body.atoms) : m.checkAtom a = .ok () := by
  have hatoms : l.program.body.atoms = [.assign l.x (l.number 0 "0"), .assume l.below none,
    .assign l.x l.next, .assume l.negated none] := rfl
  have hexpr : ∀ e ∈ a.exprs, m.checkExpr e = .ok () := by
    intro e he
    apply forM_ok
    intro x hx
    exact checkNode_nodes h (mem_nodes.mpr (Block.mem_exprs.mpr ⟨a, ha, e, he, hx⟩))
  have hvar : m.checkVar l.x = .ok () := by rw [Model.checkVar, h.var]
  rw [hatoms] at ha
  simp only [List.mem_cons, List.not_mem_nil, or_false] at ha
  rcases ha with rfl | rfl | rfl | rfl
  · rw [Model.checkAtom, hvar, hexpr _ (List.mem_singleton_self _), h.var, Model.exprDomain?,
      h.entry (k := 0) rfl rfl]
    rfl
  · rw [Model.checkAtom, hexpr _ (List.mem_singleton_self _), Model.exprDomain?,
      h.entry (k := 3) rfl rfl]
    rfl
  · rw [Model.checkAtom, hvar, hexpr _ (List.mem_singleton_self _), h.var, Model.exprDomain?,
      h.entry (k := 6) rfl rfl]
    rfl
  · rw [Model.checkAtom, hexpr _ (List.mem_singleton_self _), Model.exprDomain?,
      h.entry (k := 7) rfl rfl]
    rfl

lemma check_program : m.check (.ofProgram l.program) .empty = .ok () := by
  have hgraph : m.checkGraph (.ofProgram l.program) = .ok () := by
    apply forM_ok
    intro node hnode
    obtain ⟨n, hn⟩ := List.getElem?_of_mem hnode
    rw [Array.getElem?_toList] at hn
    cases hatom : node.atom with
    | none => rfl
    | some a => exact checkAtom_atoms h ((Graph.sound_ofProgram l.program).atoms n node a hn hatom)
  rw [Model.check, hgraph]
  rfl

end Run

lemma valueAt_of_part {a : Analysis} {n : NodeId} {t : Trace} {i : Interval}
    (hdom : a.model.varDomain? l.x.var = some (.int r)) (hstate : a.stateOf n = [l.part t i]) :
    a.valueAt n l.x.var = .ok (some (.ints i)) := by
  have hvalues : (a.stateOf n).filterMap (·.env.get? l.x.var) = [.ints i] := by
    rw [hstate]
    simp [part]
  rw [Analysis.valueAt, hdom]
  dsimp only
  rw [hvalues, Domain.joinMany_singleton rfl]
  rfl

lemma exists_analysis (h : l.Modelled m r bound) (hmin : r.min ≤ 0) (htwo : 2 ≤ bound)
    (hmax : bound ≤ r.max) :
    ∃ a, (∀ fuel, 14 ≤ fuel → Analysis.ofProgram .default m l.program fuel = .ok a) ∧
      a.graph = .ofProgram l.program ∧ a.visitsOf 2 = (if bound = 2 then 3 else 4) ∧
      a.valueAt 4 l.x.var = .ok (some (.ints (.between 1 bound))) ∧
      a.valueAt 6 l.x.var = .ok (some (.ints (.between bound r.max))) := by
  obtain ⟨trail, htrail, hrun⟩ := exists_finished h hmin htwo hmax
  refine ⟨⟨.ofProgram l.program, m, (l.finished r bound trail).states, visited trail⟩,
    fun fuel hfuel => ?_, rfl, ?_, valueAt_of_part h.var rfl, valueAt_of_part h.var rfl⟩
  · have hafter := hrun fuel hfuel
    rw [← engine_eq h] at hafter
    exact Analysis.ofProgram_of_done (check_program h) hafter rfl
  · rw [Analysis.visitsOf, Array.getD_eq_getD_getElem?, getElem?_visited (by decide), htrail]
    rfl

theorem cost_independent_of_bound {typer : Typer} {r : Range} {bound : Int64} (hmin : r.min ≤ 0)
    (htwo : 2 ≤ bound) (hmax : bound ≤ r.max) (hint : typer "int" = some (.int r.min r.max))
    (hbool : typer "bool" = some .bool) (lenient : Bool) {name var : String} {supply : Supply}
    {x : Ident} {p : Program} (hp : ((build name var (text bound)).run supply).1 = (x, p)) :
    ∃ m a, (ModelBuilder.run ⟨typer, .standard, lenient⟩ .empty [p]).1 = .ok m ∧
      (∀ fuel, 14 ≤ fuel → Analysis.ofProgram .default m p fuel = .ok a) ∧
      ∃ head inc exit, a.graph.nodeNamed? "loop_start0" = some head ∧ head.widening = true ∧
        a.visitsOf head.id = (if bound = 2 then 3 else 4) ∧
        a.graph.nodeNamed? "assign1" = some inc ∧
        a.valueAt inc.id x.var = .ok (some (.ints (.between 1 bound))) ∧
        a.graph.nodeNamed? "assume1" = some exit ∧
        a.valueAt exit.id x.var = .ok (some (.ints (.between bound r.max))) := by
  obtain ⟨l, hlimit, hl⟩ := exists_of_build name var (text bound) supply
  obtain ⟨rfl, rfl⟩ := Prod.mk.inj (hl.symm.trans hp)
  have hparse : Text.Numeral.parse? l.limit = some bound.toInt := by
    rw [hlimit]
    exact Text.Numeral.parse?_toString bound.toInt
  obtain ⟨m, hm, h⟩ := exists_modelled (b := ⟨typer, .standard, lenient⟩) (r := r) rfl hint hbool
    hmin htwo hmax hparse
  obtain ⟨a, ha, hgraph, hvisits, hinc, hexit⟩ := exists_analysis h hmin htwo hmax
  have hnodes := l.nodeNamed?_program
  rw [← hgraph] at hnodes
  simp only [graphNodes, List.forall_mem_cons] at hnodes
  obtain ⟨_, _, hhead, _, hassign, _, hassume, _⟩ := hnodes
  rw [← ModelBuilder.run_eq_built .empty] at hm
  exact ⟨m, a, hm, ha, _, _, _, hhead, rfl, hvisits, hassign, hinc, hassume, hexit⟩

def words : Typer := fun hint =>
  if hint = "int" then some (.int Int64.minValue Int64.maxValue)
  else if hint = "bool" then some .bool
  else none

def longest : Ident × Program := ((build "longest" "x" (text Int64.maxValue)).run .start).1

theorem longest_cost :
    ∃ m a, (ModelBuilder.run ⟨words, .standard, false⟩ .empty [longest.2]).1 = .ok m ∧
      (∀ fuel, 14 ≤ fuel → Analysis.ofProgram .default m longest.2 fuel = .ok a) ∧
      ∃ head inc exit, a.graph.nodeNamed? "loop_start0" = some head ∧ head.widening = true ∧
        a.visitsOf head.id = 4 ∧ a.graph.nodeNamed? "assign1" = some inc ∧
        a.valueAt inc.id longest.1.var = .ok (some (.ints (.between 1 Int64.maxValue))) ∧
        a.graph.nodeNamed? "assume1" = some exit ∧
        a.valueAt exit.id longest.1.var =
          .ok (some (.ints (.between Int64.maxValue Int64.maxValue))) :=
  cost_independent_of_bound (r := ⟨Int64.minValue, Int64.maxValue, by decide⟩) (by decide)
    (by decide) (by decide) rfl rfl false rfl

end CountingLoop

end Tracewise
