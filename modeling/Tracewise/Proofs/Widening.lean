import Tracewise.Analysis.Engine
import Tracewise.Proofs.Partitions

/-! Widening of states: the merged partitions are covered, and widening by the same partitions once
more changes nothing, down to the order of partitions and traces. -/

namespace Tracewise.Engine

open Fallible Tracewise.Partition

variable {m : Model} {vars : Env} {old new : List Partition}

lemma widenPart_eq_ok {p q : Partition} (h : widenPart m old p = .ok q) :
    q = p ∨ ∃ o ∈ old, ∃ env, o.env.widen p.env m = .ok env ∧ q = ⟨p.trace, env⟩ := by
  rw [widenPart] at h
  split at h
  · rename_i o ho
    obtain ⟨env, henv, h⟩ := bind_eq_ok h
    cases h
    exact Or.inr ⟨o, List.mem_of_find?_eq_some ho, env, henv, rfl⟩
  · cases h
    exact Or.inl rfl

lemma trace_widenPart {p p' : Partition} (h : widenPart m old p = .ok p') : p'.trace = p.trace := by
  rcases widenPart_eq_ok h with rfl | ⟨_, _, _, _, rfl⟩ <;> rfl

lemma widenPart_spec {p p' : Partition} (hold : ∀ o ∈ old, o.Fits m vars) (hp : p.Fits m vars)
    (h : widenPart m old p = .ok p') :
    p'.trace = p.trace ∧ p'.Fits m vars ∧ p.Within p' ∧ p'.env.widen p.env m = .ok p'.env := by
  rcases widenPart_eq_ok h with rfl | ⟨o, ho, env, henv, rfl⟩
  · exact ⟨rfl, hp, Within.refl p', Env.widen_self hp.typed⟩
  · have hfits := hold o ho
    obtain ⟨env', henv', htyped, hsame, hdescribes, hagain⟩ :=
      Env.widen_spec hfits.typed hp.typed (hfits.sameVars.symm.trans hp.sameVars)
    obtain rfl := Except.ok.inj (henv.symm.trans henv')
    exact ⟨rfl, ⟨htyped, hfits.sameVars.trans hsame⟩,
      ⟨List.Subset.refl _, fun σ hσ => hdescribes σ (Or.inr hσ)⟩, hagain⟩

lemma find?_widened {new' : List Partition} (before kept : List Partition)
    (htraces : List.Forall₂ (fun p p' => p'.trace = p.trace) new new') (hapart : Apart new)
    (hbefore : ∀ q ∈ before, ∀ p ∈ new, q.trace.sameNodes p.trace = false) :
    List.Forall₂ (fun p p' => (before ++ (new' ++ kept)).find? (·.trace.sameNodes p.trace) = some p')
      new new' := by
  -- the widened forms before it have other nodes than the partition that is looked for
  induction htraces generalizing before with
  | nil => exact .nil
  | @cons p p' new new' hp _ ih =>
    obtain ⟨hhead, htail⟩ := List.pairwise_cons.mp hapart
    refine .cons ?_ ?_
    · rw [List.find?_append, List.find?_eq_none.mpr, Option.none_or, List.cons_append,
        List.find?_cons_of_pos]
      · rw [hp]
        exact Trace.sameNodes_refl _
      · intro q hq
        rw [hbefore q hq p List.mem_cons_self]
        exact Bool.false_ne_true
    · have hrest := ih (before ++ [p']) htail ?_
      · simpa only [List.append_assoc, List.cons_append, List.nil_append] using hrest
      · intro q hq r hr
        rcases List.mem_append.mp hq with hq | hq
        · exact hbefore q hq r (List.mem_cons_of_mem _ hr)
        · rw [List.mem_singleton.mp hq, hp]
          exact hhead r hr

lemma exists_covers {o p : Partition} (ho : o.Fits m vars) (hp : p.Fits m vars) :
    ∃ b, covers m o p = .ok b := by
  rw [covers]
  split
  · exact ⟨true, rfl⟩
  · split
    · exact Env.exists_le ho.typed hp.typed
    · exact ⟨false, rfl⟩

lemma keep_of_mem {present : List Partition} (hpresent : ∀ p ∈ present, p.Fits m vars)
    {o : Partition} (ho : o ∈ present) : keep m present o = .ok present := by
  have hself : covers m o o = .ok true := by
    rw [covers, if_pos (Trace.sameNodes_refl _)]
  have hany : present.anyM (covers m o) = .ok true :=
    anyM_eq_true (fun p hp => exists_covers (hpresent o ho) (hpresent p hp)) ho hself
  rw [keep, hany]
  rfl

lemma foldlM_keep_of_subset {present l : List Partition} (hpresent : ∀ p ∈ present, p.Fits m vars)
    (hl : l ⊆ present) : l.foldlM (keep m) present = .ok present := by
  induction l with
  | nil => rfl
  | cons o l ih =>
    rw [List.foldlM_cons, keep_of_mem hpresent (hl List.mem_cons_self), ok_bind]
    exact ih fun p hp => hl (List.mem_cons_of_mem _ hp)

lemma foldlM_keep_eq_ok {present l result : List Partition}
    (h : l.foldlM (keep m) present = .ok result) :
    ∃ kept, kept ⊆ l ∧ result = present ++ kept ∧ kept.foldlM (keep m) present = .ok result := by
  induction l generalizing present with
  | nil =>
    cases h
    exact ⟨[], List.Subset.refl _, (List.append_nil _).symm, rfl⟩
  | cons o l ih =>
    rw [List.foldlM_cons] at h
    obtain ⟨present', hkeep, h⟩ := bind_eq_ok h
    obtain ⟨kept, hsub, hresult, hfold⟩ := ih h
    rw [keep] at hkeep
    obtain ⟨covered, hcovered, hkeep⟩ := bind_eq_ok hkeep
    cases covered with
    | true =>
      cases hkeep
      exact ⟨kept, List.subset_cons_of_subset o hsub, hresult, hfold⟩
    | false =>
      cases hkeep
      refine ⟨o :: kept, List.cons_subset_cons o hsub, ?_, ?_⟩
      · exact hresult.trans (List.append_assoc present [o] kept)
      · rw [List.foldlM_cons, keep, hcovered]
        exact hfold

theorem widenState_spec {result : List Partition} (hold : ∀ o ∈ old, o.Fits m vars)
    (hnew : ∀ p ∈ new, p.Fits m vars) (hapart : Apart new)
    (h : widenState m old new = .ok result) :
    (∀ q ∈ result, q.Fits m vars) ∧
      (∀ p ∈ new, ∃ q ∈ result, q.trace = p.trace ∧ p.Within q) ∧
      widenState m result new = .ok result := by
  obtain ⟨new', hnew', h⟩ := bind_eq_ok h
  obtain ⟨kept, hkept, rfl, hfold⟩ := foldlM_keep_eq_ok h
  have hparts : List.Forall₂ (fun p p' => p'.trace = p.trace ∧ p'.Fits m vars ∧ p.Within p' ∧
      p'.env.widen p.env m = .ok p'.env) new new' := by
    refine ((List.forall₂_and_left _ _).mpr ⟨hnew, mapM_eq_ok hnew'⟩).imp ?_
    rintro p p' ⟨hp, hwiden⟩
    exact widenPart_spec hold hp hwiden
  have hfits : ∀ q ∈ new', q.Fits m vars := by
    intro q hq
    obtain ⟨_, _, _, hq, _⟩ := exists_of_forall₂ hparts.flip hq
    exact hq
  refine ⟨?_, ?_, ?_⟩
  · intro q hq
    rcases List.mem_append.mp hq with hq | hq
    · exact hfits q hq
    · exact hold q (hkept hq)
  · intro p hp
    obtain ⟨p', hp', htrace, _, hin, _⟩ := exists_of_forall₂ hparts hp
    exact ⟨p', List.mem_append_left _ hp', htrace, hin⟩
  · have hagain : new.mapM (widenPart m (new' ++ kept)) = .ok new' := by
      apply mapM_ok
      refine List.Forall₂.mp ?_ hparts
        (find?_widened [] kept (hparts.imp fun _ _ h => h.1) hapart nofun)
      rintro p p' ⟨htrace, _, _, hwiden⟩ hfind
      rw [List.nil_append] at hfind
      rw [widenPart, hfind]
      simp only [hwiden, ok_bind, pure_eq_ok, ← htrace]
    rw [widenState, hagain, ok_bind, List.foldlM_append,
      foldlM_keep_of_subset hfits (List.Subset.refl _), ok_bind]
    exact hfold

lemma exists_widenPart {p : Partition} (hold : ∀ o ∈ old, o.Fits m vars) (hp : p.Fits m vars) :
    ∃ p', widenPart m old p = .ok p' := by
  rw [widenPart]
  split
  · rename_i o ho
    have hfits := hold o (List.mem_of_find?_eq_some ho)
    obtain ⟨env, henv, _⟩ :=
      Env.widen_spec hfits.typed hp.typed (hfits.sameVars.symm.trans hp.sameVars)
    exact ⟨⟨p.trace, env⟩, by rw [henv]; rfl⟩
  · exact ⟨p, rfl⟩

lemma exists_foldlM_keep {present l : List Partition} (hpresent : ∀ p ∈ present, p.Fits m vars)
    (hl : ∀ o ∈ l, o.Fits m vars) : ∃ result, l.foldlM (keep m) present = .ok result := by
  induction l generalizing present with
  | nil => exact ⟨present, rfl⟩
  | cons o l ih =>
    have ho := hl o List.mem_cons_self
    have hrest := fun p hp => hl p (List.mem_cons_of_mem o hp)
    obtain ⟨covered, hcovered⟩ :=
      exists_anyM fun p (hp : p ∈ present) => exists_covers ho (hpresent p hp)
    rw [List.foldlM_cons, keep, hcovered, ok_bind, pure_eq_ok, ok_bind]
    cases covered with
    | true => exact ih hpresent hrest
    | false =>
      refine ih (fun p hp => ?_) hrest
      rcases List.mem_append.mp hp with hp | hp
      · exact hpresent p hp
      · rw [List.mem_singleton.mp hp]
        exact ho

theorem exists_widenState (hold : ∀ o ∈ old, o.Fits m vars) (hnew : ∀ p ∈ new, p.Fits m vars) :
    ∃ result, widenState m old new = .ok result := by
  obtain ⟨new', hnew'⟩ := exists_mapM fun p (hp : p ∈ new) => exists_widenPart hold (hnew p hp)
  have hfits : ∀ q ∈ new', q.Fits m vars := by
    intro q hq
    obtain ⟨p, hp, hwiden⟩ := exists_of_forall₂ (mapM_eq_ok hnew').flip hq
    exact (widenPart_spec hold (hnew p hp) hwiden).2.1
  rw [widenState, hnew', ok_bind]
  exact exists_foldlM_keep hfits hold

end Tracewise.Engine
