import Tracewise.Proofs.MonotoneTransfer
import Tracewise.Proofs.Preservation

namespace Tracewise

open Fallible

namespace Partition

instance : Preorder Partition where
  le p q := p.trace.nodes ⊆ q.trace.nodes ∧ p.env ≤ q.env
  le_refl p := ⟨List.Subset.refl _, le_rfl⟩
  le_trans _ _ _ h h' := ⟨List.Subset.trans h.1 h'.1, h.2.trans h'.2⟩

def Covered (l l' : List Partition) : Prop := ∀ p ∈ l, ∃ q ∈ l', p ≤ q

lemma Covered.refl (l : List Partition) : Covered l l := fun p hp => ⟨p, hp, le_rfl⟩

lemma Covered.trans {l l' l'' : List Partition} (h : Covered l l') (h' : Covered l' l'') :
    Covered l l'' := by
  intro p hp
  obtain ⟨q, hq, hpq⟩ := h p hp
  obtain ⟨r, hr, hqr⟩ := h' q hq
  exact ⟨r, hr, hpq.trans hqr⟩

lemma Apart.eq_of_perm {l : List Partition} (h : Apart l) {p q : Partition} (hp : p ∈ l)
    (hq : q ∈ l) (hperm : p.trace.nodes.Perm q.trace.nodes) : p = q := by
  have hpairwise : l.Pairwise fun p q => ¬ p.trace.nodes.Perm q.trace.nodes := by
    refine h.imp fun hsame hpq => ?_
    rw [Trace.sameNodes_of_perm hpq] at hsame
    cases hsame
  have : Std.Symm fun p q : Partition => ¬ p.trace.nodes.Perm q.trace.nodes :=
    ⟨fun _ _ hpq hqp => hpq hqp.symm⟩
  by_contra hne
  exact hpairwise.forall hp hq hne hperm

structure Regular (E : Engine) (p : Partition) : Prop where
  fits : p.Fits E.model E.startEnv
  inRange : p.env.InRange E.model
  nodup : p.trace.nodes.Nodup
  bounded : ∀ n ∈ p.trace.nodes, n < E.graph.size

variable {E : Engine} {p q r : Partition}

lemma Regular.merge (hp : p.Regular E) (hq : q.Regular E) (h : p.merge q E.model = .ok r) :
    r.Regular E := by
  obtain ⟨r', hr', hfits, _, _⟩ := merge_spec hp.fits hq.fits
  obtain rfl := Except.ok.inj (h.symm.trans hr')
  obtain ⟨env, henv, h⟩ := bind_eq_ok h
  cases h
  refine ⟨hfits, ?_, Trace.nodup_union hp.nodup _, ?_⟩
  · exact Env.InRange.join hp.fits.typed hq.fits.typed
      (hp.fits.sameVars.symm.trans hq.fits.sameVars) henv hp.inRange hq.inRange
  · intro n hn
    exact (Trace.mem_union.mp hn).elim (hp.bounded n) (hq.bounded n)

lemma Regular.widenPart {old : List Partition} (hold : ∀ o ∈ old, o.Regular E) (hp : p.Regular E)
    (h : Engine.widenPart E.model old p = .ok q) : q.Regular E := by
  obtain ⟨htrace, hfits, _, _⟩ := Engine.widenPart_spec (fun o ho => (hold o ho).fits) hp.fits h
  refine ⟨hfits, ?_, htrace ▸ hp.nodup, htrace ▸ hp.bounded⟩
  rcases Engine.widenPart_eq_ok h with rfl | ⟨o, ho, env, henv, rfl⟩
  · exact hp.inRange
  · have ho := hold o ho
    exact Env.InRange.widen ho.fits.typed hp.fits.typed
      (ho.fits.sameVars.symm.trans hp.fits.sameVars) henv ho.inRange hp.inRange

end Partition

namespace Engine

open Tracewise.Partition

variable {E : Engine} {m : Model} {old new result : List Partition}

lemma apart_keep {present present' : List Partition} {o : Partition} (hapart : Apart present)
    (h : keep m present o = .ok present') : Apart present' := by
  obtain ⟨covered, hcovered, h⟩ := bind_eq_ok h
  cases covered with
  | true =>
    cases h
    exact hapart
  | false =>
    cases h
    refine List.pairwise_append.mpr ⟨hapart, List.pairwise_singleton _ _, ?_⟩
    intro p hp o' ho'
    rw [List.mem_singleton.mp ho']
    have hnot := of_anyM_eq_false hcovered p hp
    rw [covers] at hnot
    split at hnot
    · cases hnot
    · rename_i hsame
      exact Bool.eq_false_of_not_eq_true hsame

lemma apart_widenState (hapart : Apart new) (h : widenState m old new = .ok result) :
    Apart result := by
  obtain ⟨new', hnew', hfold⟩ := bind_eq_ok h
  have htraces : new'.map Partition.trace = new.map Partition.trace := by
    have hparts := mapM_eq_ok hnew'
    clear hnew' hapart h hfold
    induction hparts with
    | nil => rfl
    | cons hp _ ih => rw [List.map_cons, List.map_cons, ih, trace_widenPart hp]
  have hapart' : (new.map Partition.trace).Pairwise fun t u => t.sameNodes u = false :=
    List.pairwise_map.mpr hapart
  rw [← htraces] at hapart'
  exact foldlM_induction hfold (List.pairwise_map.mp hapart') fun _ _ _ _ => apart_keep

lemma covered_foldlM_keep {vars : Env} {present l : List Partition}
    (hpresent : ∀ p ∈ present, p.Fits m vars) (hl : ∀ o ∈ l, o.Fits m vars) (hapart : Apart l)
    (hsame : ∀ p ∈ present, ∀ o ∈ l, p.trace.sameNodes o.trace = true → o ≤ p)
    (h : l.foldlM (keep m) present = .ok result) : Covered l result := by
  induction l generalizing present with
  | nil => exact fun o ho => absurd ho List.not_mem_nil
  | cons o l ih =>
    obtain ⟨hhead, htail⟩ := List.pairwise_cons.mp hapart
    have hrest := fun p hp => hl p (List.mem_cons_of_mem o hp)
    have hsameRest := fun p hp o' ho' => hsame p hp o' (List.mem_cons_of_mem o ho')
    rw [List.foldlM_cons] at h
    obtain ⟨present', hkeep, h⟩ := bind_eq_ok h
    obtain ⟨_, _, hresult, _⟩ := foldlM_keep_eq_ok h
    obtain ⟨covered, hcovered, hkeep⟩ := bind_eq_ok hkeep
    cases covered with
    | true =>
      cases hkeep
      intro o' ho'
      rcases List.mem_cons.mp ho' with rfl | ho'
      · obtain ⟨p, hp, hcover⟩ := exists_of_anyM_eq_true hcovered
        refine ⟨p, hresult ▸ List.mem_append_left _ hp, ?_⟩
        rw [covers] at hcover
        split at hcover
        · exact hsame p hp o' List.mem_cons_self ‹_›
        · split at hcover
          · rename_i hsub
            have ho := hl o' List.mem_cons_self
            have hp := hpresent p hp
            exact ⟨Trace.subset_iff.mp hsub, (Env.le_eq_true_iff ho.typed hp.typed
              (ho.sameVars.symm.trans hp.sameVars)).mp hcover⟩
          · cases hcover
      · exact ih hpresent hrest htail hsameRest h o' ho'
    | false =>
      cases hkeep
      have hcoveredRest : Covered l result := ih ?_ hrest htail ?_ h
      · intro o' ho'
        rcases List.mem_cons.mp ho' with rfl | ho'
        · exact ⟨o', hresult ▸ by simp, le_rfl⟩
        · exact hcoveredRest o' ho'
      · intro p hp
        rcases List.mem_append.mp hp with hp | hp
        · exact hpresent p hp
        · exact List.mem_singleton.mp hp ▸ hl o List.mem_cons_self
      · intro p hp o' ho' hpo
        rcases List.mem_append.mp hp with hp | hp
        · exact hsameRest p hp o' ho' hpo
        · rw [List.mem_singleton.mp hp, hhead o' ho'] at hpo
          cases hpo

lemma covered_widenState (hold : ∀ o ∈ old, o.Regular E) (hnew : ∀ p ∈ new, p.Regular E)
    (hapart : Apart old) (h : widenState E.model old new = .ok result) : Covered old result := by
  obtain ⟨new', hnew', h⟩ := bind_eq_ok h
  have hparts : ∀ p' ∈ new', ∃ p ∈ new, widenPart E.model old p = .ok p' :=
    fun p' hp' => exists_of_forall₂ (mapM_eq_ok hnew').flip hp'
  refine covered_foldlM_keep ?_ (fun o ho => (hold o ho).fits) hapart ?_ h
  · intro p' hp'
    obtain ⟨p, hp, hwiden⟩ := hparts p' hp'
    exact ((hnew p hp).widenPart hold hwiden).fits
  · intro p' hp' o ho hsame
    obtain ⟨p, hp, hwiden⟩ := hparts p' hp'
    have hp := hnew p hp
    rw [trace_widenPart hwiden] at hsame
    have hperm := Trace.perm_of_sameNodes hp.nodup hsame
    rw [widenPart] at hwiden
    split at hwiden
    · rename_i o' hfind
      have ho' := List.mem_of_find?_eq_some hfind
      have hsame' := List.find?_some hfind
      have hperm' := Trace.perm_of_sameNodes (hold o' ho').nodup hsame'
      obtain rfl := hapart.eq_of_perm ho' ho (hperm'.trans hperm)
      obtain ⟨env, henv, hwiden⟩ := bind_eq_ok hwiden
      cases hwiden
      have ho := (hold o' ho).fits
      exact ⟨hperm.symm.subset, Env.le_widen ho.typed hp.fits.typed
        (ho.sameVars.symm.trans hp.fits.sameVars) henv⟩
    · rename_i hfind
      exact absurd (Trace.sameNodes_of_perm hperm.symm) (List.find?_eq_none.mp hfind o ho)

def gather (E : Engine) (s : Progress) (node : Node) : Except Fault (List Partition) := do
  let outgoing ← (E.incoming s node.id).filterMapM (E.pass node)
  E.rule.mergeAll E.model outgoing

def absorbed (E : Engine) (s : Progress) (node : Node) (merged : List Partition) :
    Except Fault (List Partition) :=
  if node.widening then widenState E.model (s.stateOf node.id) merged else .ok merged

variable {s s' : Progress} {n : NodeId} {node : Node} {state merged : List Partition}

lemma recompute_eq_gather (E : Engine) (s : Progress) (node : Node) :
    E.recompute s node = E.gather s node >>= E.absorbed s node := by
  rw [gather, bind_assoc]
  rfl

structure Ranged (E : Engine) : Prop extends Ready E where
  literals : E.model.LiteralsInRange
  startRange : E.startEnv.InRange E.model

structure Orderly (E : Engine) (s : Progress) : Prop where
  regular : ∀ n, ∀ p ∈ s.stateOf n, p.Regular E
  apart : ∀ n, Apart (s.stateOf n)

lemma Orderly.fits (hs : E.Orderly s) : ∀ n, ∀ p ∈ s.stateOf n, p.Fits E.model E.startEnv :=
  fun n p hp => (hs.regular n p hp).fits

lemma orderly_initial (E : Engine) : E.Orderly E.initial := by
  constructor
  · intro n p hp
    rw [stateOf_initial] at hp
    exact absurd hp List.not_mem_nil
  · intro n
    rw [stateOf_initial]
    exact .nil

namespace Ranged

lemma regular_start (hE : E.Ranged) : (⟨.empty, E.startEnv⟩ : Partition).Regular E :=
  ⟨fits_start hE.toReady, hE.startRange, List.nodup_nil, fun _ hn => absurd hn List.not_mem_nil⟩

lemma regular_incoming (hE : E.Ranged) (hs : E.Orderly s) (n : NodeId) :
    ∀ p ∈ E.incoming s n, p.Regular E := by
  intro p hp
  rcases mem_incoming.mp hp with ⟨_, rfl⟩ | ⟨k, _, hp⟩
  · exact hE.regular_start
  · exact hs.regular k p hp

lemma regular_pass (hE : E.Ranged) (hnode : E.graph.nodes[n]? = some node) {p q : Partition}
    (hp : p.Regular E) (h : E.pass node p = .ok (some q)) : q.Regular E := by
  obtain ⟨result, hresult, hfits, _⟩ := hE.pass_spec hnode hp.fits
  obtain rfl := Except.ok.inj (h.symm.trans hresult)
  obtain ⟨htrace, henv⟩ := pass_eq_ok h
  refine ⟨hfits q rfl, ?_, htrace ▸ Trace.nodup_extend hp.nodup _, ?_⟩
  · exact Model.transfer_inRange hE.literals (hE.admits n node hnode) hp.fits.typed hp.fits.sameVars
      hp.inRange henv
  · rw [htrace]
    intro k hk
    rcases Trace.mem_extend.mp hk with hk | rfl
    · exact hp.bounded k hk
    · rw [hE.graph.ids n node hnode]
      exact (Array.getElem?_eq_some_iff.mp hnode).1

lemma preserves_regular (hE : E.Ranged) : E.Preserves fun _ p => p.Regular E where
  start _ _ hnode := hE.regular_pass hnode hE.regular_start
  pass _ _ _ _ _ _ hnode := hE.regular_pass hnode
  merge _ _ _ _ := Regular.merge
  widen _ _ _ _ := Regular.widenPart

lemma gather_spec (hE : E.Ranged) (hs : E.Orderly s) (hnode : E.graph.nodes[n]? = some node)
    (h : E.gather s node = .ok merged) : (∀ p ∈ merged, p.Regular E) ∧ Apart merged := by
  obtain ⟨outgoing, hout, h⟩ := bind_eq_ok h
  rw [hE.graph.ids n node hnode] at hout
  exact ⟨hE.preserves_regular.gathered hs.regular hnode hout h, MergeRule.apart_mergeAll h⟩

lemma exists_gather (hE : E.Ranged) (hs : E.Orderly s) (hnode : E.graph.nodes[n]? = some node) :
    ∃ merged, E.gather s node = .ok merged := by
  obtain ⟨state, hstate⟩ := hE.exists_recompute hs.fits hnode
  rw [recompute_eq_gather] at hstate
  obtain ⟨merged, hmerged, _⟩ := bind_eq_ok hstate
  exact ⟨merged, hmerged⟩

lemma recompute_orderly (hE : E.Ranged) (hs : E.Orderly s) (hnode : E.graph.nodes[n]? = some node)
    (h : E.recompute s node = .ok state) :
    Apart state ∧ (node.widening = true → Covered (s.stateOf n) state) := by
  rw [recompute_eq_gather] at h
  obtain ⟨merged, hmerged, h⟩ := bind_eq_ok h
  obtain ⟨hregular, hapart⟩ := hE.gather_spec hs hnode hmerged
  rw [absorbed, hE.graph.ids n node hnode] at h
  split at h
  · exact ⟨apart_widenState hapart h,
      fun _ => covered_widenState (hs.regular n) hregular (hs.apart n) h⟩
  · rename_i hwidening
    obtain rfl := Except.ok.inj h
    exact ⟨hapart, fun hw => absurd hw hwidening⟩

end Ranged

lemma Visits.orderly (hE : E.Ranged) (hs : E.Orderly s) (h : E.Visits s s' n node state) :
    E.Orderly s' := by
  refine ⟨hE.preserves_regular.visited hE.graph hs.regular h, fun k => ?_⟩
  by_cases hk : k = n
  · rw [hk, h.stateOf_self]
    exact (hE.recompute_orderly hs h.lookup h.recompute).1
  · rw [h.stateOf_other hk]
    exact hs.apart k

lemma Ranged.orderly_after (hE : E.Ranged) {steps : Nat} (h : E.after steps = .ok s) :
    E.Sized s ∧ E.Orderly s :=
  visits_induction hE.graph (fun _ _ _ _ _ hs hvisits => hvisits.orderly hE hs) h
    (sized_initial hE.graph) (orderly_initial E)

lemma Orderly.pairwise_toFinset_ne (hs : E.Orderly s) (n : NodeId) :
    (s.stateOf n).Pairwise fun p q => p.trace.nodes.toFinset ≠ q.trace.nodes.toFinset := by
  refine (hs.apart n).imp_of_mem fun {p q} hp hq hsame heq => ?_
  have hnodup (p : Partition) (hp : p ∈ s.stateOf n) := (hs.regular n p hp).nodup
  rw [(Trace.sameNodes_iff_toFinset (hnodup p hp) (hnodup q hq)).mpr heq] at hsame
  cases hsame

end Engine

lemma Config.foldl_set_inRange {m : Model} {bindings : List (VarId × Value)} {env : Env}
    (henv : env.InRange m)
    (h : ∀ b ∈ bindings, ∃ dom, m.varDomain? b.1 = some dom ∧ b.2 ≤ dom.top) :
    (bindings.foldl (fun env b => env.set b.1 b.2) env).InRange m := by
  refine List.foldlRecOn (motive := fun env : Env => env.InRange m) bindings _ henv ?_
  intro env henv b hb
  obtain ⟨dom, hdom, htop⟩ := h b hb
  exact henv.set hdom htop

lemma Config.startEnv_inRange {c : Config} {p : Program} {m : Model}
    (h : m.check (.ofProgram p) c.initial = .ok ()) : (c.startEnv p m).InRange m := by
  apply foldl_set_inRange
  · apply foldl_set_inRange
    · intro v a dom ha
      cases ha
    · intro b hb
      obtain ⟨d, _, hb⟩ := List.mem_filterMap.mp hb
      obtain ⟨dom, hdom, rfl⟩ := Option.map_eq_some_iff.mp hb
      exact ⟨dom, hdom, le_rfl⟩
  · rintro ⟨v, value⟩ hb
    have hvalue := (Env.mem_toList c.initial v value).mp hb
    obtain ⟨dom, hdom, hacc, hle⟩ :=
      Model.checkInitialValue_eq_ok (Model.checkInitialValue_of_check h hvalue)
    exact ⟨dom, hdom, (Domain.le_eq_true_iff hacc (Domain.accepts_top dom)).mp hle⟩

lemma Analysis.ranged_of_check {c : Config} {m : Model} {p : Program} (hm : m.Serves p)
    (h : m.check (.ofProgram p) c.initial = .ok ()) : (c.engine (.ofProgram p) m).Ranged where
  toReady := ready_of_check hm h
  literals := hm.literalsInRange
  startRange := Config.startEnv_inRange h

end Tracewise
