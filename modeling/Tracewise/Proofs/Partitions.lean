import Tracewise.Proofs.Environments
import Tracewise.Proofs.TraceSets
import Tracewise.State.MergeRule

namespace Tracewise

open Fallible

namespace Partition

structure Fits (m : Model) (vars : Env) (p : Partition) : Prop where
  typed : p.env.Typed m
  sameVars : vars.SameVars p.env

def Within (p q : Partition) : Prop :=
  p.trace.nodes ⊆ q.trace.nodes ∧ ∀ σ, p.env.Describes σ → q.env.Describes σ

lemma Within.refl (p : Partition) : p.Within p := ⟨List.Subset.refl _, fun _ => id⟩

lemma Within.trans {p q r : Partition} (h : p.Within q) (h' : q.Within r) : p.Within r :=
  ⟨List.Subset.trans h.1 h'.1, fun σ hσ => h'.2 σ (h.2 σ hσ)⟩

def Apart (parts : List Partition) : Prop :=
  parts.Pairwise fun p q => p.trace.sameNodes q.trace = false

variable {m : Model} {vars : Env}

lemma merge_spec {p q : Partition} (hp : p.Fits m vars) (hq : q.Fits m vars) :
    ∃ r, p.merge q m = .ok r ∧ r.Fits m vars ∧ p.Within r ∧ q.Within r := by
  obtain ⟨env, henv, htyped, hsame, hdescribes⟩ :=
    Env.join_spec hp.typed hq.typed (hp.sameVars.symm.trans hq.sameVars)
  refine ⟨⟨p.trace.union q.trace, env⟩, by rw [merge, henv]; rfl, ?_, ?_, ?_⟩
  · exact ⟨htyped, hp.sameVars.trans hsame⟩
  · exact ⟨fun n hn => Trace.mem_union.mpr (Or.inl hn), fun σ hσ => hdescribes σ (Or.inl hσ)⟩
  · exact ⟨fun n hn => Trace.mem_union.mpr (Or.inr hn), fun σ hσ => hdescribes σ (Or.inr hσ)⟩

structure Condenses (m : Model) (vars : Env) (parts result : List Partition) : Prop where
  fits : ∀ q ∈ result, q.Fits m vars
  apart : Apart result
  covers : ∀ p ∈ parts, ∃ q ∈ result, p.Within q

end Partition

namespace MergeRule

open Tracewise.Partition

variable {m : Model} {vars : Env} {rule : MergeRule}

lemma extract?_eq_some {test : Partition → Except Fault Bool} {l rest : List Partition}
    {q : Partition} (h : extract? test l = .ok (some (q, rest))) :
    test q = .ok true ∧ ∃ before after, l = before ++ q :: after ∧ rest = before ++ after := by
  induction l generalizing rest with
  | nil => cases h
  | cons p l ih =>
    rw [extract?] at h
    obtain ⟨found, hfound, h⟩ := bind_eq_ok h
    cases found with
    | true =>
      cases h
      exact ⟨hfound, [], l, rfl, rfl⟩
    | false =>
      obtain ⟨result, hresult, h⟩ := bind_eq_ok h
      cases result with
      | none => cases h
      | some found =>
        cases h
        obtain ⟨htest, before, after, hl, hrest⟩ := ih hresult
        exact ⟨htest, p :: before, after, by rw [hl]; rfl, by rw [hrest]; rfl⟩

lemma extract?_eq_none {test : Partition → Except Fault Bool} {l : List Partition}
    (h : extract? test l = .ok none) : ∀ q ∈ l, test q = .ok false := by
  induction l with
  | nil => exact nofun
  | cons p l ih =>
    rw [extract?] at h
    obtain ⟨found, hfound, h⟩ := bind_eq_ok h
    cases found with
    | true => cases h
    | false =>
      obtain ⟨result, hresult, h⟩ := bind_eq_ok h
      cases result with
      | none =>
        intro q hq
        rcases List.mem_cons.mp hq with rfl | hq
        · exact hfound
        · exact ih hresult q hq
      | some found => cases h

lemma folds_eq_false_iff {p q : Partition} :
    rule.folds m p q = .ok false ↔
      p.trace.sameNodes q.trace = false ∧ rule.applies m p q = .ok false := by
  rw [folds]
  cases p.trace.sameNodes q.trace <;> simp

/-- Inserting a partition: it takes up kept partitions one by one, until none that is left is to be
folded into it, and then comes last. -/
inductive Absorbs (rule : MergeRule) (m : Model) :
    List Partition → Partition → List Partition → Prop
  | keep {kept : List Partition} {part : Partition}
      (h : ∀ q ∈ kept, rule.folds m q part = .ok false) : Absorbs rule m kept part (kept ++ [part])
  | fold {before after result : List Partition} {q part merged : Partition}
      (hfolds : rule.folds m q part = .ok true) (hmerge : q.merge part m = .ok merged)
      (h : Absorbs rule m (before ++ after) merged result) :
      Absorbs rule m (before ++ q :: after) part result

lemma absorbs_of_absorb {fuel : Nat} {kept result : List Partition} {part : Partition}
    (hfuel : kept.length ≤ fuel) (h : rule.absorb m fuel kept part = .ok result) :
    rule.Absorbs m kept part result := by
  -- each fold takes one partition away, so their number is fuel enough
  induction fuel generalizing kept part with
  | zero =>
    cases h
    obtain rfl := List.eq_nil_of_length_eq_zero (Nat.le_zero.mp hfuel)
    exact .keep fun q hq => absurd hq List.not_mem_nil
  | succ fuel ih =>
    rw [absorb] at h
    obtain ⟨found, hfound, h⟩ := bind_eq_ok h
    cases found with
    | none =>
      cases h
      exact .keep (extract?_eq_none hfound)
    | some found =>
      obtain ⟨q, rest⟩ := found
      obtain ⟨merged, hmerged, habsorb⟩ := bind_eq_ok h
      obtain ⟨hfolds, before, after, rfl, rfl⟩ := extract?_eq_some hfound
      refine .fold hfolds hmerged (ih ?_ habsorb)
      simp only [List.length_append, List.length_cons] at hfuel ⊢
      omega

lemma absorbs_of_insert {kept result : List Partition} {part : Partition}
    (h : rule.insert m kept part = .ok result) : rule.Absorbs m kept part result :=
  absorbs_of_absorb le_rfl h

structure Gathers (rule : MergeRule) (m : Model) (P : Partition → Prop)
    (R : List Partition → Partition → Prop) : Prop where
  single : ∀ p, P p → R [p] p
  merge : ∀ g g' p q r, R g p → R g' q → rule.folds m p q = .ok true → p.merge q m = .ok r →
    R (g ++ g') r

section Gathers

variable {P : Partition → Prop} {R : List Partition → Partition → Prop}
  {groups : List (List Partition)} {group kept result : List Partition} {part : Partition}

lemma Gathers.absorbs (hR : rule.Gathers m P R) (hkept : List.Forall₂ R groups kept)
    (hpart : R group part) (h : rule.Absorbs m kept part result) :
    ∃ groups', groups'.flatten.Perm (groups.flatten ++ group) ∧ List.Forall₂ R groups' result := by
  induction h generalizing groups group with
  | keep _ =>
    refine ⟨groups ++ [group], ?_, List.rel_append hkept (.cons hpart .nil)⟩
    rw [List.flatten_append, List.flatten_singleton]
  | fold hfolds hmerge _ ih =>
    obtain ⟨groups₁, group', groups₂, rfl, hbefore, hq, hafter⟩ := forall₂_middle hkept
    obtain ⟨groups', hperm, hresult⟩ := ih (List.rel_append hbefore hafter)
      (hR.merge group' group _ _ _ hq hpart hfolds hmerge)
    refine ⟨groups', hperm.trans ?_, hresult⟩
    simp only [List.flatten_append, List.flatten_cons, List.append_assoc]
    exact (List.perm_append_comm_assoc _ _ _).append_left _

lemma Gathers.mergeAll (hR : rule.Gathers m P R) {parts : List Partition}
    (hparts : ∀ p ∈ parts, P p) (h : rule.mergeAll m parts = .ok result) :
    ∃ groups, groups.flatten.Perm parts ∧ List.Forall₂ R groups result := by
  have hfold : ∀ groups kept, List.Forall₂ R groups kept →
      parts.foldlM (rule.insert m) kept = .ok result →
      ∃ groups', groups'.flatten.Perm (groups.flatten ++ parts) ∧
        List.Forall₂ R groups' result := by
    clear h
    induction parts with
    | nil =>
      rintro groups kept hkept ⟨⟩
      exact ⟨groups, by rw [List.append_nil], hkept⟩
    | cons part parts ih =>
      intro groups kept hkept h
      rw [List.foldlM_cons] at h
      obtain ⟨kept', hkept', h⟩ := bind_eq_ok h
      obtain ⟨groups', hperm', hgroups'⟩ := hR.absorbs hkept
        (hR.single part (hparts part List.mem_cons_self)) (absorbs_of_insert hkept')
      obtain ⟨groups'', hperm'', hresult⟩ :=
        ih (fun p hp => hparts p (List.mem_cons_of_mem _ hp)) groups' kept' hgroups' h
      refine ⟨groups'', hperm''.trans ?_, hresult⟩
      rw [List.append_cons]
      exact hperm'.append_right parts
  exact hfold [] [] .nil h

end Gathers

structure Respects (rule : MergeRule) (m : Model) (P : Partition → Prop)
    (R : Partition → Partition → Prop) : Prop where
  refl : ∀ p, R p p
  trans : ∀ p q r, R p q → R q r → R p r
  merge : ∀ p q r, P p → P q → rule.folds m p q = .ok true → p.merge q m = .ok r →
    P r ∧ R p r ∧ R q r

section Respects

variable {P : Partition → Prop} {R : Partition → Partition → Prop} {parts result : List Partition}

lemma Respects.gathers (hR : rule.Respects m P R) :
    rule.Gathers m P fun group q => P q ∧ ∀ p ∈ group, R p q where
  single p hp := ⟨hp, fun q hq => List.mem_singleton.mp hq ▸ hR.refl q⟩
  merge g g' p q r hg hg' hfolds hmerge := by
    obtain ⟨hr, hpr, hqr⟩ := hR.merge p q r hg.1 hg'.1 hfolds hmerge
    refine ⟨hr, fun o ho => ?_⟩
    rcases List.mem_append.mp ho with ho | ho
    · exact hR.trans o p r (hg.2 o ho) hpr
    · exact hR.trans o q r (hg'.2 o ho) hqr

lemma Respects.mergeAll (hR : rule.Respects m P R) (hparts : ∀ p ∈ parts, P p)
    (h : rule.mergeAll m parts = .ok result) :
    (∀ q ∈ result, P q) ∧ ∀ p ∈ parts, ∃ q ∈ result, R p q := by
  obtain ⟨groups, hperm, hresult⟩ := hR.gathers.mergeAll hparts h
  constructor
  · intro q hq
    obtain ⟨_, _, hq, _⟩ := exists_of_forall₂ hresult.flip hq
    exact hq
  · intro p hp
    obtain ⟨group, hgroup, hp⟩ := List.mem_flatten.mp (hperm.mem_iff.mpr hp)
    obtain ⟨q, hq, _, hin⟩ := exists_of_forall₂ hresult hgroup
    exact ⟨q, hq, hin p hp⟩

lemma mergeAll_induction (hmerge : ∀ p q r, P p → P q → p.merge q m = .ok r → P r)
    (hparts : ∀ p ∈ parts, P p) (h : rule.mergeAll m parts = .ok result) : ∀ q ∈ result, P q := by
  have hR : rule.Respects m P fun _ _ => True :=
    ⟨fun _ => trivial, fun _ _ _ _ _ => trivial,
      fun p q r hp hq _ hr => ⟨hmerge p q r hp hq hr, trivial, trivial⟩⟩
  exact (hR.mergeAll hparts h).1

end Respects

lemma respects_within : rule.Respects m (Fits m vars) Within where
  refl := Within.refl
  trans _ _ _ := Within.trans
  merge p q r hp hq _ h := by
    obtain ⟨r', hr', hspec⟩ := merge_spec hp hq
    obtain rfl := Except.ok.inj (h.symm.trans hr')
    exact hspec

def Settled (rule : MergeRule) (m : Model) (parts : List Partition) : Prop :=
  parts.Pairwise fun p q => rule.folds m p q = .ok false

lemma Settled.absorbs {kept result : List Partition} {part : Partition}
    (hkept : rule.Settled m kept) (h : rule.Absorbs m kept part result) :
    rule.Settled m result := by
  induction h with
  | keep h =>
    exact List.pairwise_append.mpr ⟨hkept, List.pairwise_singleton _ _,
      fun q hq => List.forall_mem_singleton.mpr (h q hq)⟩
  | fold _ _ _ ih =>
    exact ih (hkept.sublist ((List.Sublist.refl _).append (List.sublist_cons_self _ _)))

lemma settled_mergeAll {parts result : List Partition} (h : rule.mergeAll m parts = .ok result) :
    rule.Settled m result :=
  foldlM_induction h .nil fun _ _ _ _ hkept hinsert => hkept.absorbs (absorbs_of_insert hinsert)

lemma extract?_of_forall {test : Partition → Except Fault Bool} {l : List Partition}
    (h : ∀ q ∈ l, test q = .ok false) : extract? test l = .ok none := by
  induction l with
  | nil => rfl
  | cons q l ih =>
    rw [extract?, h q List.mem_cons_self, ok_bind, ih fun p hp => h p (List.mem_cons_of_mem _ hp)]
    rfl

lemma insert_of_settled {kept : List Partition} {part : Partition}
    (h : ∀ q ∈ kept, rule.folds m q part = .ok false) :
    rule.insert m kept part = .ok (kept ++ [part]) := by
  rw [insert]
  cases hfuel : kept.length with
  | zero => rfl
  | succ fuel => rw [absorb, extract?_of_forall h]; rfl

lemma mergeAll_of_settled {parts : List Partition} (h : rule.Settled m parts) :
    rule.mergeAll m parts = .ok parts := by
  have hfold : ∀ kept, rule.Settled m (kept ++ parts) →
      parts.foldlM (rule.insert m) kept = .ok (kept ++ parts) := by
    clear h
    induction parts with
    | nil =>
      intro kept _
      rw [List.append_nil]
      rfl
    | cons part parts ih =>
      intro kept hsettled
      have hpart : ∀ q ∈ kept, rule.folds m q part = .ok false := fun q hq =>
        (List.pairwise_append.mp hsettled).2.2 q hq part List.mem_cons_self
      rw [List.append_cons] at hsettled ⊢
      rw [List.foldlM_cons, insert_of_settled hpart, ok_bind]
      exact ih _ hsettled
  exact hfold [] h

lemma apart_mergeAll {parts result : List Partition} (h : rule.mergeAll m parts = .ok result) :
    Apart result :=
  (settled_mergeAll h).imp fun hfolds => (folds_eq_false_iff.mp hfolds).1

theorem mergeAll_spec {parts result : List Partition} (hparts : ∀ p ∈ parts, p.Fits m vars)
    (h : rule.mergeAll m parts = .ok result) : Condenses m vars parts result := by
  obtain ⟨hfits, hcovers⟩ := respects_within.mergeAll hparts h
  exact ⟨hfits, apart_mergeAll h, hcovers⟩

lemma exists_applies {p q : Partition} (hp : p.Fits m vars) (hq : q.Fits m vars) :
    ∃ b, rule.applies m p q = .ok b := by
  induction rule with
  | always => exact ⟨true, rfl⟩
  | never => exact ⟨false, rfl⟩
  | traceIncluded => exact ⟨_, rfl⟩
  | traceEqual => exact ⟨_, rfl⟩
  | envEqual => exact ⟨_, rfl⟩
  | envIncluded =>
    obtain ⟨b, hb⟩ := Env.exists_le hp.typed hq.typed
    rw [applies, hb, ok_bind]
    cases b with
    | true => exact ⟨true, rfl⟩
    | false => exact Env.exists_le hq.typed hp.typed
  | longerThan n => exact ⟨_, rfl⟩
  | and fst snd ihf ihs =>
    obtain ⟨b, hb⟩ := ihf
    rw [applies, hb, ok_bind]
    cases b with
    | true => exact ihs
    | false => exact ⟨false, rfl⟩
  | or fst snd ihf ihs =>
    obtain ⟨b, hb⟩ := ihf
    rw [applies, hb, ok_bind]
    cases b with
    | true => exact ⟨true, rfl⟩
    | false => exact ihs
  | custom f => exact ⟨_, rfl⟩

lemma exists_extract? {test : Partition → Except Fault Bool} {l : List Partition}
    (h : ∀ q ∈ l, ∃ b, test q = .ok b) : ∃ found, extract? test l = .ok found := by
  induction l with
  | nil => exact ⟨none, rfl⟩
  | cons q l ih =>
    obtain ⟨b, hb⟩ := h q List.mem_cons_self
    obtain ⟨found, hfound⟩ := ih fun p hp => h p (List.mem_cons_of_mem _ hp)
    rw [extract?, hb, ok_bind]
    cases b with
    | true => exact ⟨some (q, l), rfl⟩
    | false => exact ⟨_, by rw [hfound]; rfl⟩

lemma exists_absorb {fuel : Nat} {kept : List Partition} {part : Partition}
    (hkept : ∀ q ∈ kept, q.Fits m vars) (hpart : part.Fits m vars) :
    ∃ result, rule.absorb m fuel kept part = .ok result ∧ ∀ q ∈ result, q.Fits m vars := by
  induction fuel generalizing kept part with
  | zero => exact ⟨_, rfl, List.forall_mem_append.mpr ⟨hkept, List.forall_mem_singleton.mpr hpart⟩⟩
  | succ fuel ih =>
    have hfolds : ∀ q ∈ kept, ∃ b, rule.folds m q part = .ok b := by
      intro q hq
      rw [folds]
      split
      · exact ⟨true, rfl⟩
      · exact exists_applies (hkept q hq) hpart
    obtain ⟨found, hfound⟩ := exists_extract? hfolds
    rw [absorb, hfound, ok_bind]
    cases found with
    | none =>
      exact ⟨_, rfl, List.forall_mem_append.mpr ⟨hkept, List.forall_mem_singleton.mpr hpart⟩⟩
    | some found =>
      obtain ⟨q, rest⟩ := found
      obtain ⟨_, before, after, rfl, rfl⟩ := extract?_eq_some hfound
      have hq : q ∈ before ++ q :: after := List.mem_append_right _ List.mem_cons_self
      obtain ⟨merged, hmerged, hfits, _, _⟩ := merge_spec (hkept q hq) hpart
      have hsub : (before ++ after).Sublist (before ++ q :: after) :=
        (List.Sublist.refl before).append (List.sublist_cons_self q after)
      simp only [hmerged, ok_bind]
      exact ih (fun p hp => hkept p (hsub.subset hp)) hfits

theorem exists_mergeAll {parts : List Partition} (hparts : ∀ p ∈ parts, p.Fits m vars) :
    ∃ result, rule.mergeAll m parts = .ok result := by
  have hfold : ∀ kept, (∀ q ∈ kept, q.Fits m vars) →
      ∃ result, parts.foldlM (rule.insert m) kept = .ok result := by
    induction parts with
    | nil => exact fun kept _ => ⟨kept, rfl⟩
    | cons part parts ih =>
      intro kept hkept
      obtain ⟨kept', hkept', hfits⟩ : ∃ kept', rule.insert m kept part = .ok kept' ∧
          ∀ q ∈ kept', q.Fits m vars := exists_absorb hkept (hparts part List.mem_cons_self)
      rw [List.foldlM_cons, hkept', ok_bind]
      exact ih (fun p hp => hparts p (List.mem_cons_of_mem _ hp)) kept' hfits
  exact hfold [] nofun

end MergeRule

end Tracewise
