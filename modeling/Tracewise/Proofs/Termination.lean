import Tracewise.Proofs.Nesting
import Tracewise.Proofs.Settling

/-! The analysis that merges all partitions ends. Of the nodes that change for ever take the least:
with every change the trace of its state agrees with the last one in more nodes, but it has only
finitely many. -/

namespace Tracewise

open Fallible Filter Tracewise.Partition Tracewise.Trace

lemma exists_first_difference {l l' : List NodeId} (hlength : l.length = l'.length) (h : l ≠ l') :
    ∃ k, ∃ hk : k < l'.length, l'.take k = l.take k ∧ l[k]? ≠ some l'[k] := by
  induction l generalizing l' with
  | nil => exact absurd (List.eq_nil_of_length_eq_zero hlength.symm).symm h
  | cons a l ih =>
    cases l' with
    | nil => cases hlength
    | cons b l' =>
      by_cases hab : a = b
      · subst hab
        obtain ⟨k, hk, htake, hne⟩ :=
          ih (Nat.succ.inj hlength) fun heq => h (congrArg (a :: ·) heq)
        exact ⟨k + 1, Nat.succ_lt_succ hk, congrArg (a :: ·) htake, hne⟩
      · exact ⟨0, Nat.succ_pos _, rfl, fun heq => hab (Option.some.inj heq)⟩

namespace Engine

variable {E : Engine} {s s' : Progress} {n : NodeId} {node : Node}
  {state merged : List Partition}

lemma eq_of_alike {old l l' : List Partition} (hapart : Apart old) (hl : l ⊆ old) (hl' : l' ⊆ old)
    (h : List.Forall₂ (Retraced Reordered) l l') : l = l' := by
  induction h with
  | nil => rfl
  | cons hp _ ih =>
    rw [hapart.eq_of_perm (hl List.mem_cons_self) (hl' List.mem_cons_self) hp.1.2,
      ih (List.subset_of_cons_subset hl) (List.subset_of_cons_subset hl')]

lemma tail_absorbed_subset (hlength : merged.length ≤ 1)
    (h : E.absorbed s node merged = .ok state) : state.tail ⊆ s.stateOf node.id := by
  rw [absorbed] at h
  split at h
  · obtain ⟨new', hnew', h⟩ := bind_eq_ok h
    obtain ⟨kept, hkept, rfl, _⟩ := foldlM_keep_eq_ok h
    have hlength' : new'.length ≤ 1 := (mapM_eq_ok hnew').length_eq ▸ hlength
    cases new' with
    | nil => exact List.Subset.trans (List.tail_subset kept) hkept
    | cons p new' =>
      rw [List.length_cons] at hlength'
      obtain rfl := List.eq_nil_of_length_eq_zero (show new'.length = 0 by omega)
      exact hkept
  · cases h
    have htail : state.tail = [] := by
      apply List.eq_nil_of_length_eq_zero
      rw [List.length_tail]
      omega
    rw [htail]
    exact List.nil_subset _

structure Turns (s s' : Progress) (n : NodeId) (p p' : Partition) (rest : List Partition) :
    Prop where
  before : s.stateOf n = p :: rest
  after : s'.stateOf n = p' :: rest
  retraced : p.Retraced Reordered p'
  ne : p.trace.nodes ≠ p'.trace.nodes

lemma Turns.stateOf_ne {p p' : Partition} {rest : List Partition} (h : Turns s s' n p p' rest) :
    s'.stateOf n ≠ s.stateOf n := by
  rw [h.before, h.after]
  intro heq
  obtain ⟨rfl, _⟩ := List.cons.inj heq
  exact h.ne rfl

lemma Visits.turns (hE : E.Tame) (hs : E.Orderly s) (h : E.Visits s s' n node state)
    (halike : List.Forall₂ (Retraced Reordered) (s.stateOf n) (s'.stateOf n))
    (hne : s'.stateOf n ≠ s.stateOf n) :
    ∃ p p' rest, Turns s s' n p p' rest := by
  obtain ⟨merged, hmerged, hstate⟩ := h.gather
  have htail := tail_absorbed_subset (hE.length_gather hs h.lookup hmerged) hstate
  rw [hE.graph.ids n node h.lookup] at htail
  rw [h.stateOf_self] at halike hne
  have hapart := hs.apart n
  cases hold : s.stateOf n with
  | nil =>
    rw [hold] at halike
    cases halike
    exact absurd hold.symm hne
  | cons p rest =>
    rw [hold] at halike htail hne hapart
    obtain ⟨p', rest', hp, hrest, rfl⟩ := List.forall₂_cons_left_iff.mp halike
    obtain rfl := eq_of_alike hapart (List.subset_cons_self p rest) htail hrest
    refine ⟨p, p', rest, hold, h.stateOf_self, hp, fun htrace => hne ?_⟩
    obtain ⟨⟨nodes⟩, env⟩ := p
    obtain ⟨⟨nodes'⟩, env'⟩ := p'
    obtain rfl : nodes = nodes' := htrace
    obtain rfl : env = env' := hp.2
    rfl

namespace Endless

variable {run : ℕ → Progress}

lemma sorted (h : E.Endless run) (i : ℕ) : (run i).worklist.Pairwise (· < ·) :=
  h.induction (P := fun s => s.worklist.Pairwise (· < ·)) (List.pairwise_singleton _ _)
    (fun _ _ => pairwise_step) i

lemma guarded (h : E.Endless run) (hE : E.Ready) {head last : Nat}
    (hloop : E.graph.IsLoop head last) (i : ℕ) :
    (run i).Guarded head last := by
  induction i with
  | zero => exact h.start ▸ guarded_initial E head last
  | succ i ih =>
    obtain ⟨n, node, state, hvisits⟩ := h.visits hE i
    exact hvisits.guarded hE.graph (h.sorted i) hloop ih

theorem exists_frequently_changes (h : E.Endless run) (hE : E.Ready) :
    ∃ n, ∃ᶠ i in atTop, (run (i + 1)).stateOf n ≠ (run i).stateOf n := by
  by_contra hnot
  rw [not_exists] at hnot
  simp only [not_frequently, not_not] at hnot
  have hall : ∀ᶠ i in atTop, ∀ n ∈ Finset.range E.graph.size,
      (run (i + 1)).stateOf n = (run i).stateOf n :=
    (eventually_all_finset _).mpr fun n _ => hnot n
  obtain ⟨t, ht⟩ := eventually_atTop.mp hall
  have hdrop : ∀ i, t ≤ i →
      (run (i + 1)).worklist.toFinset.card < (run i).worklist.toFinset.card := by
    intro i hi
    obtain ⟨n, node, state, hvisits⟩ := h.visits hE i
    obtain ⟨rest, hworklist, hmem⟩ := hvisits.worklist
    have hn := (Array.getElem?_eq_some_iff.mp hvisits.lookup).1
    have hsame := ht i hi n (Finset.mem_range.mpr hn)
    rw [hvisits.stateOf_self] at hsame
    have hsorted := h.sorted i
    rw [hworklist] at hsorted
    have hfresh : n ∉ rest := fun hn => lt_irrefl n ((List.pairwise_cons.mp hsorted).1 n hn)
    have hrest : (run (i + 1)).worklist.toFinset = rest.toFinset := by
      ext k
      rw [List.mem_toFinset, List.mem_toFinset, hmem]
      exact or_iff_left fun hk => hk.1 hsame
    rw [hrest, hworklist, List.toFinset_cons, Finset.card_insert_of_notMem
      (List.mem_toFinset.not.mpr hfresh)]
    exact Nat.lt_succ_self _
  have hanti : StrictAnti fun i => (run (t + i)).worklist.toFinset.card :=
    strictAnti_nat_of_succ_lt fun i => hdrop (t + i) (Nat.le_add_right t i)
  exact not_strictAnti_of_wellFoundedLT _ hanti

section Body

variable {R : Trace → Trace → Prop} {head last i j : Nat}

/-- Until the head of a loop changes again, its body holds what it held before the last change, up
to the relation between the head's states before and after that change. -/
lemma alike_until (h : E.Endless run) (hE : E.Tame) (hR : Congruence R)
    (hloop : E.graph.IsLoop head last)
    (hvisits : E.Visits (run i) (run (i + 1)) head node state)
    (hchange : List.Forall₂ (Retraced R) ((run i).stateOf head) ((run (i + 1)).stateOf head))
    (hsame : ∀ m, i < m → m < j → (run (m + 1)).stateOf head = (run m).stateOf head) (m : Nat)
    (him : i < m) (hmj : m ≤ j) (n : Nat) (hn : head ≤ n) (hn' : n ≤ last) :
    List.Forall₂ (Retraced R) ((run i).stateOf n) ((run m).stateOf n) := by
  have hrefl := fun n => (h.orderly hE.toRanged i).alike hR n
  have hsettled : ∀ (n : Nat) (node' : Node), head < n → n ≤ last →
      E.graph.nodes[n]? = some node' → E.recompute (run i) node' = .ok ((run i).stateOf n) := by
    intro n node' hlt hle hnode'
    refine (h.invariant hE.toReady i).settled n node' hnode' fun hmem => ?_
    obtain ⟨rest, hworklist, _⟩ := hvisits.worklist
    exact h.guarded hE.toReady hloop i head n (hworklist ▸ List.mem_cons_self) hmem le_rfl
      ⟨hlt, hle⟩
  induction m, him using Nat.le_induction generalizing n with
  | base =>
    by_cases hnh : n = head
    · exact hnh ▸ hchange
    · rw [hvisits.stateOf_other hnh]
      exact hrefl n
  | succ m him ih =>
    have ih := ih (by omega)
    obtain ⟨k, node', state', hvisits'⟩ := h.visits hE.toReady m
    by_cases hnh : n = head
    · rw [hnh, hsame m him (by omega)]
      exact ih head le_rfl hloop.le
    · by_cases hnk : n = k
      · subst hnk
        have hid := hE.graph.ids n node' hvisits'.lookup
        have hlt : head < n := lt_of_le_of_ne hn (Ne.symm hnh)
        have hpreds : ∀ x ∈ E.graph.predsOf node'.id,
            List.Forall₂ (Retraced R) ((run i).stateOf x) ((run m).stateOf x) := by
          intro x hx
          rw [hid, hE.graph.preds] at hx
          obtain ⟨hx, hx'⟩ := hloop.entered x n hx hlt hn'
          exact ih x hx hx'
        obtain ⟨found, hfound, hrel⟩ := hR.follows_recompute hE hpreds (hid.symm ▸ ih n hn hn') _
          (hsettled n node' hlt hn' hvisits'.lookup)
        obtain rfl := Except.ok.inj (hfound.symm.trans hvisits'.recompute)
        rw [hvisits'.stateOf_self]
        exact hrel
      · rw [hvisits'.stateOf_other hnk]
        exact ih n hn hn'

lemma alike_again (h : E.Endless run) (hE : E.Tame) (hR : Congruence R)
    (hloop : E.graph.IsLoop head last) (hij : i < j)
    (hvisits : E.Visits (run i) (run (i + 1)) head node state)
    {state' : List Partition} (hvisits' : E.Visits (run j) (run (j + 1)) head node state')
    (hquiet : ∀ x < head, (run j).stateOf x = (run i).stateOf x)
    (hchange : List.Forall₂ (Retraced R) ((run i).stateOf head) ((run (i + 1)).stateOf head))
    (hsame : ∀ m, i < m → m < j → (run (m + 1)).stateOf head = (run m).stateOf head) :
    List.Forall₂ (Retraced R) ((run (i + 1)).stateOf head) ((run (j + 1)).stateOf head) := by
  have hid := hE.graph.ids head node hvisits.lookup
  have hbody := h.alike_until hE hR hloop hvisits hchange hsame j hij le_rfl
  have hpreds : ∀ x ∈ E.graph.predsOf node.id,
      List.Forall₂ (Retraced R) ((run i).stateOf x) ((run j).stateOf x) := by
    intro x hx
    rw [hid, hE.graph.preds] at hx
    by_cases hxh : x < head
    · rw [hquiet x hxh]
      exact (h.orderly hE.toRanged i).alike hR x
    · exact hbody x (not_lt.mp hxh) (hloop.back x hx)
  obtain ⟨found, hfound, hrel⟩ := hR.follows_recompute hE hpreds
    (hid.symm ▸ hbody head le_rfl hloop.le) _ hvisits.recompute
  obtain rfl := Except.ok.inj (hfound.symm.trans hvisits'.recompute)
  rw [hvisits.stateOf_self, hvisits'.stateOf_self]
  exact hrel

end Body

lemma visits_of_change (h : E.Endless run) (hE : E.Ready) {i : ℕ} {n : NodeId}
    (hne : (run (i + 1)).stateOf n ≠ (run i).stateOf n) :
    ∃ node state, E.Visits (run i) (run (i + 1)) n node state := by
  obtain ⟨k, node, state, hvisits⟩ := h.visits hE i
  by_cases hk : n = k
  · exact ⟨node, state, hk ▸ hvisits⟩
  · exact absurd (hvisits.stateOf_other hk) hne

lemma stateOf_eq_of_le {i j : ℕ} {n : NodeId} (hij : i ≤ j)
    (h : ∀ m, i ≤ m → m < j → (run (m + 1)).stateOf n = (run m).stateOf n) :
    (run j).stateOf n = (run i).stateOf n := by
  induction j, hij using Nat.le_induction with
  | base => rfl
  | succ j hij ih =>
    rw [h j hij (Nat.lt_succ_self j), ih fun m hm hmj => h m hm (hmj.trans (Nat.lt_succ_self j))]

/-- From one change of a loop head to the next, the traces before and after agree in more nodes. -/
lemma agree_more (h : E.Endless run) (hE : E.Tame) {head last i j : Nat}
    (hloop : E.graph.IsLoop head last) (hij : i < j)
    (hquiet : ∀ m, i ≤ m → ∀ x < head, (run (m + 1)).stateOf x = (run m).stateOf x)
    (hsame : ∀ m, i < m → m < j → (run (m + 1)).stateOf head = (run m).stateOf head)
    {p p' q q' : Partition} {rest rest' : List Partition}
    (hturns : Turns (run i) (run (i + 1)) head p p' rest)
    (hturns' : Turns (run j) (run (j + 1)) head q q' rest') {d : Nat}
    (hagree : p'.trace.nodes.take d = p.trace.nodes.take d) :
    q'.trace.nodes.take (d + 1) = q.trace.nodes.take (d + 1) := by
  obtain ⟨node, state, hvisits⟩ := h.visits_of_change hE.toReady hturns.stateOf_ne
  obtain ⟨node', state', hvisits'⟩ := h.visits_of_change hE.toReady hturns'.stateOf_ne
  obtain rfl := Option.some.inj (hvisits.lookup.symm.trans hvisits'.lookup)
  obtain ⟨k, hk, htake, hdiff⟩ :=
    exists_first_difference hturns.retraced.1.2.length_eq hturns.ne
  let c := p'.trace.nodes[k]
  have hc : p'.trace.nodes[k]? = some c := List.getElem?_eq_getElem hk
  have hchange : List.Forall₂ (Retraced (Veers k c)) ((run i).stateOf head)
      ((run (i + 1)).stateOf head) := by
    have hrefl := (h.orderly hE.toRanged i).alike (congruence_veers k c) head
    rw [hturns.before] at hrefl ⊢
    rw [hturns.after]
    exact .cons ⟨⟨hturns.retraced.1, htake, Or.inr hc⟩, hturns.retraced.2⟩
      (List.forall₂_cons.mp hrefl).2
  have hagain := h.alike_again hE (congruence_veers k c) hloop hij hvisits hvisits'
    (fun x hx => stateOf_eq_of_le hij.le fun m hm _ => hquiet m hm x hx) hchange hsame
  have hkept : (run j).stateOf head = (run (i + 1)).stateOf head := stateOf_eq_of_le hij hsame
  rw [hturns.after, hturns'.after] at hagain
  rw [hturns.after, hturns'.before] at hkept
  obtain ⟨rfl, rfl⟩ := List.cons.inj hkept
  have hsucc := (List.forall₂_cons.mp hagain).1.1.take_succ hc
  -- the traces before and after the first change agree in the first `k` nodes at most
  have hdk : d ≤ k := by
    by_contra hkd
    have hget := congrArg (·[k]?) hagree
    simp only [List.getElem?_take, if_pos (not_le.mp hkd)] at hget
    exact hdiff (hget.symm.trans hc)
  have htakes := congrArg (List.take (d + 1)) hsucc
  rwa [List.take_take, List.take_take, min_eq_left (by omega)] at htakes

section Changes

variable {head last t : Nat}

lemma exists_turns_agreeing (h : E.Endless run) (hE : E.Tame)
    (hloop : E.graph.IsLoop head last)
    (hquiet : ∀ i, t ≤ i → ∀ x < head, (run (i + 1)).stateOf x = (run i).stateOf x)
    (halike : ∀ i, t ≤ i → List.Forall₂ (Retraced Reordered) ((run i).stateOf head)
      ((run (i + 1)).stateOf head))
    (hchanges : ∀ i, ∃ j, i ≤ j ∧ (run (j + 1)).stateOf head ≠ (run j).stateOf head) (d : Nat) :
    ∃ i p p' rest, t ≤ i ∧ Turns (run i) (run (i + 1)) head p p' rest ∧
      p'.trace.nodes.take d = p.trace.nodes.take d := by
  classical
  have hturns : ∀ i, t ≤ i → (run (i + 1)).stateOf head ≠ (run i).stateOf head →
      ∃ p p' rest, Turns (run i) (run (i + 1)) head p p' rest := by
    intro i hi hne
    obtain ⟨node, state, hvisits⟩ := h.visits_of_change hE.toReady hne
    exact hvisits.turns hE (h.orderly hE.toRanged i) (halike i hi) hne
  induction d with
  | zero =>
    obtain ⟨i, hi, hne⟩ := hchanges t
    obtain ⟨p, p', rest, hi'⟩ := hturns i hi hne
    exact ⟨i, p, p', rest, hi, hi', rfl⟩
  | succ d ih =>
    obtain ⟨i, p, p', rest, hi, hi', hagree⟩ := ih
    obtain ⟨hj, hne⟩ := Nat.find_spec (hchanges (i + 1))
    have hleast := fun m (hm : m < Nat.find (hchanges (i + 1))) =>
      Nat.find_min (hchanges (i + 1)) hm
    generalize Nat.find (hchanges (i + 1)) = j at hj hne hleast
    obtain ⟨q, q', rest', hj'⟩ := hturns j (by omega) hne
    refine ⟨j, q, q', rest', by omega, hj', ?_⟩
    refine h.agree_more hE hloop hj (fun m hm => hquiet m (by omega)) ?_ hi' hj' hagree
    intro m hm hmj
    by_contra hnem
    exact hleast m hmj ⟨hm, hnem⟩

theorem not_changes_forever (h : E.Endless run) (hE : E.Tame)
    (hloop : E.graph.IsLoop head last)
    (hquiet : ∀ i, t ≤ i → ∀ x < head, (run (i + 1)).stateOf x = (run i).stateOf x)
    (halike : ∀ i, t ≤ i → List.Forall₂ (Retraced Reordered) ((run i).stateOf head)
      ((run (i + 1)).stateOf head)) :
    ¬ ∃ᶠ i in atTop, (run (i + 1)).stateOf head ≠ (run i).stateOf head := by
  intro hchanges
  obtain ⟨i, p, p', rest, _, hturns, hagree⟩ := h.exists_turns_agreeing hE hloop hquiet halike
    (frequently_atTop.mp hchanges) E.graph.size
  have hsize : p.trace.nodes.length ≤ E.graph.size := by
    have hregular := (h.orderly hE.toRanged i).regular head p (hturns.before ▸ List.mem_cons_self)
    have hsub : p.trace.nodes ⊆ List.range E.graph.size :=
      fun n hn => List.mem_range.mpr (hregular.bounded n hn)
    exact (hregular.nodup.subperm hsub).length_le.trans_eq List.length_range
  have hsize' : p'.trace.nodes.length ≤ E.graph.size := hturns.retraced.1.2.length_eq ▸ hsize
  rw [List.take_of_length_le hsize, List.take_of_length_le hsize'] at hagree
  exact hturns.ne hagree.symm

end Changes

end Endless

theorem Tame.not_endless (hE : E.Tame)
    (hnest : ∀ n, ∃ last, E.graph.IsLoop n last) (run : ℕ → Progress) :
    ¬ E.Endless run := by
  classical
  intro h
  have hex := h.exists_frequently_changes hE.toReady
  have hfreq := Nat.find_spec hex
  have hleast := fun x (hx : x < Nat.find hex) => Nat.find_min hex hx
  generalize Nat.find hex = head at hfreq hleast
  have hquiet : ∀ᶠ i in atTop, ∀ x ∈ Finset.range head,
      (run (i + 1)).stateOf x = (run i).stateOf x := by
    refine (eventually_all_finset _).mpr fun x hx => ?_
    simpa only [not_frequently, not_not] using hleast x (Finset.mem_range.mp hx)
  obtain ⟨t, ht⟩ := eventually_atTop.mp (hquiet.and (h.eventually_alike hE head))
  obtain ⟨last, hloop⟩ := hnest head
  exact h.not_changes_forever hE hloop
    (fun i hi x hx => (ht i hi).1 x (Finset.mem_range.mpr hx)) (fun i hi => (ht i hi).2) hfreq

lemma Ready.exists_done_of_acc (hE : E.Ready)
    (hacc : Acc (fun s' s => E.step s = .ok (some s')) s) (hs : E.Invariant s) :
    ∃ fuel s', E.iterate fuel s = .ok s' ∧ s'.worklist = [] := by
  induction hacc with
  | intro s _ ih =>
    obtain ⟨next, hnext⟩ := hE.exists_step hs
    cases next with
    | none => exact ⟨0, s, rfl, worklist_of_done hnext⟩
    | some next =>
      obtain ⟨fuel, s', hs', hdone⟩ := ih next hnext (hE.invariant_step hs hnext)
      exact ⟨fuel + 1, s', by rw [iterate, hnext, ok_bind]; exact hs', hdone⟩

theorem Tame.exists_done (hE : E.Tame)
    (hnest : ∀ n, ∃ last, E.graph.IsLoop n last) :
    ∃ fuel s, E.iterate fuel E.initial = .ok s ∧ s.worklist = [] := by
  refine hE.exists_done_of_acc ?_ hE.invariant_initial
  by_contra hacc
  obtain ⟨run, hstart, hstep⟩ := not_acc_iff_exists_descending_chain.mp hacc
  exact hE.not_endless hnest run ⟨hstart, hstep⟩

end Engine

namespace Analysis

lemma tame_of_check {m : Model} {p : Program} {initial : Env} (hm : m.Serves p)
    (hcheck : m.check (.ofProgram p) initial = .ok ())
    (htame : ∀ a ∈ p.body.atoms, m.Tame (some a)) :
    (Config.engine ⟨.always, initial⟩ (.ofProgram p) m).Tame where
  toRanged := ranged_of_check hm hcheck
  rule := rfl
  tame n node hnode := by
    cases hatom : node.atom with
    | none => trivial
    | some a => exact htame a ((Graph.sound_ofProgram p).atoms n node a hnode hatom)

theorem exists_ofProgram_always {m : Model} {p : Program} {initial : Env} (hm : m.Interprets p)
    (hcheck : m.check (.ofProgram p) initial = .ok ())
    (htame : ∀ a ∈ p.body.atoms, m.Tame (some a)) :
    ∃ fuel a, ofProgram ⟨.always, initial⟩ m p fuel = .ok a := by
  have hE := tame_of_check hm.serves hcheck htame
  obtain ⟨fuel, s, hs, hdone⟩ := hE.exists_done fun n => Graph.exists_isLoop p n
  refine ⟨fuel, ⟨.ofProgram p, m, s.states, s.visits⟩, ?_⟩
  simp only [ofProgram, run, hcheck, ok_bind, hs, Failure.ofFault, hdone, List.isEmpty_nil, if_true,
    pure_eq_ok]

end Analysis

theorem Climb.exists_ofProgram_always_climb :
    model.Interprets program ∧ (∀ a ∈ program.body.atoms, model.Tame (some a)) ∧
      ∃ fuel a, Analysis.ofProgram ⟨.always, .empty⟩ model program fuel = .ok a := by
  have hcheck : model.check (.ofProgram program) .empty = .ok () := by
    have hsome : (model.check (.ofProgram program) .empty).toOption = some () := by decide +kernel
    exact toOption_eq_some hsome
  have htame : ∀ a ∈ program.body.atoms, model.Tame (some a) := by decide +kernel
  exact ⟨interprets, htame, Analysis.exists_ofProgram_always interprets hcheck htame⟩

end Tracewise
