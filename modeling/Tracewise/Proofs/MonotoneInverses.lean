import Tracewise.Proofs.Inverses
import Tracewise.Proofs.MonotoneDefinitions

/-! Inverses leave more of larger operands, and where more results are expected, as long as no
operand has the largest word: where it is taken away from itself it stays. -/

namespace Tracewise

open Saturating

namespace Interval

variable {i i' j j' : Interval}

lemma atMost_mono {w w' : Int64} (h : w.toInt ≤ w'.toInt) : atMost w ≤ atMost w' := by
  intro n hn
  rw [atMost, spans_between] at hn ⊢
  omega

lemma atLeast_mono {w w' : Int64} (h : w'.toInt ≤ w.toInt) : atLeast w ≤ atLeast w' := by
  intro n hn
  rw [atLeast, spans_between] at hn ⊢
  omega

def BelowLimit (i : Interval) : Prop := ¬ i.Spans Int64.maxValue.toInt

lemma removeEnd_le (i : Interval) (w : Int64) : i.removeEnd w ≤ i := by
  cases i with
  | empty => exact empty_le _
  | range l h le =>
    have hl := l.le_toInt
    have hl' := l.toInt_lt
    have hh := h.le_toInt
    have hh' := h.toInt_lt
    have hone : (1 : Int64).toInt = 1 := rfl
    intro n hn
    rw [removeEnd] at hn
    rw [spans_range]
    split at hn
    · rw [spans_between, toInt_add, hone] at hn
      have := le_nearest (m := l.toInt) (n := l.toInt + 1) (by omega) (by omega) (by omega)
      omega
    · split at hn
      · rw [spans_between, toInt_sub, hone] at hn
        have := nearest_le (m := h.toInt - 1) (n := h.toInt) (by omega) (by omega) (by omega)
        omega
      · exact hn

lemma interior_of_spans_removeEnd {l h w : Int64} {le : l ≤ h} (hi : (range l h le).BelowLimit)
    (hw : ((range l h le).removeEnd w).Spans w.toInt) : l.toInt < w.toInt ∧ w.toInt < h.toInt := by
  have hlh := Int64.le_iff_toInt_le.mp le
  have hh : h.toInt < 2 ^ 63 - 1 := by
    have hlt := h.toInt_lt
    rw [BelowLimit, spans_range, Int64.toInt_maxValue] at hi
    omega
  have hl := l.le_toInt
  have hone : (1 : Int64).toInt = 1 := rfl
  have hspans : l.toInt ≤ w.toInt ∧ w.toInt ≤ h.toInt := removeEnd_le _ _ _ hw
  rw [removeEnd] at hw
  split at hw
  · rename_i hlw
    subst hlw
    rw [spans_between, toInt_add, hone, nearest] at hw
    omega
  · rename_i hlw
    have hlw : l.toInt ≠ w.toInt := fun heq => hlw (Int64.toInt_inj.mp heq)
    split at hw
    · rename_i hhw
      subst hhw
      rw [spans_between, toInt_sub, hone, nearest] at hw
      omega
    · rename_i hhw
      have hhw : h.toInt ≠ w.toInt := fun heq => hhw (Int64.toInt_inj.mp heq)
      omega

lemma eq_of_le_constant {w : Int64} {n : Int} (h : j ≤ j') (hw : j'.constant? = some w)
    (hn : j.Spans n) : j = j' := by
  apply ext_spans
  intro k
  constructor
  · exact h k
  · intro hk
    rwa [spans_of_constant hw hk, ← spans_of_constant hw (h n hn)]

end Interval

namespace Backward

def Below {α : Type} [LE α] (o o' : Option α) : Prop :=
  ∀ p, o = some p → ∃ p', o' = some p' ∧ p ≤ p'

def Expands {α : Type} [LE α] (ok : α → Prop) (narrow : α → α → Option (α × α)) : Prop :=
  ∀ ⦃l r l' r' : α⦄, ok l → ok r → l ≤ l' → r ≤ r' → Below (narrow l r) (narrow l' r')

section Relations

variable {α : Type} [Preorder α] {ok : α → Prop} {l r l' r' : α}

lemma Expands.swap {narrow : α → α → Option (α × α)} (h : Expands ok narrow) :
    Expands ok fun l r => (narrow r l).map Prod.swap := by
  intro l r l' r' hokl hokr hl hr p hp
  obtain ⟨q, hq, rfl⟩ := Option.map_eq_some_iff.mp hp
  obtain ⟨q', hq', hle⟩ := h hokr hokl hr hl q hq
  exact ⟨q'.swap, by simp only [hq', Option.map_some], hle.2, hle.1⟩

lemma Expands.guard {narrow : α → α → Option (α × α)} (h : Expands ok narrow) (hokl : ok l)
    (hokr : ok r) (hl : l ≤ l') (hr : r ≤ r') {e e' : BoolSet} (he : e ≤ e') (b : Bool) :
    Below (if e.contains b then narrow l r else none)
      (if e'.contains b then narrow l' r' else none) := by
  intro p hp
  split at hp
  · rename_i hb
    have hb' : e'.contains b = true := he b hb
    rw [if_pos hb']
    exact h hokl hokr hl hr p hp
  · cases hp

lemma below_invertRelation {join : α → α → α}
    (hjoin : ∀ s t u : α, join s t ≤ u ↔ s ≤ u ∧ t ≤ u)
    {whenTrue whenFalse : α → α → Option (α × α)} (ht : Expands ok whenTrue)
    (hf : Expands ok whenFalse) {e e' : BoolSet} (he : e ≤ e') (hokl : ok l) (hokr : ok r)
    (hl : l ≤ l') (hr : r ≤ r') :
    Below (invertRelation join whenTrue whenFalse e l r)
      (invertRelation join whenTrue whenFalse e' l' r') := by
  have ht := ht.guard hokl hokr hl hr he true
  have hf := hf.guard hokl hokr hl hr he false
  have hleft : ∀ s t : α, s ≤ join s t := fun s t => ((hjoin s t _).mp le_rfl).1
  have hright : ∀ s t : α, t ≤ join s t := fun s t => ((hjoin s t _).mp le_rfl).2
  intro p hp
  simp only [invertRelation] at hp ⊢
  generalize (if e.contains true then whenTrue l r else none) = t at ht hp
  generalize (if e.contains false then whenFalse l r else none) = f at hf hp
  generalize (if e'.contains true then whenTrue l' r' else none) = t' at ht ⊢
  generalize (if e'.contains false then whenFalse l' r' else none) = f' at hf ⊢
  cases t with
  | none =>
    cases f with
    | none => cases hp
    | some f =>
      obtain rfl := Option.some.inj hp
      obtain ⟨q, rfl, hq⟩ := hf f rfl
      cases t' with
      | none => exact ⟨q, rfl, hq⟩
      | some t' => exact ⟨_, rfl, hq.1.trans (hright _ _), hq.2.trans (hright _ _)⟩
  | some t =>
    obtain ⟨q, rfl, hq⟩ := ht t rfl
    cases f with
    | none =>
      obtain rfl := Option.some.inj hp
      cases f' with
      | none => exact ⟨q, rfl, hq⟩
      | some f' => exact ⟨_, rfl, hq.1.trans (hleft _ _), hq.2.trans (hleft _ _)⟩
    | some f =>
      obtain ⟨q', rfl, hq'⟩ := hf f rfl
      obtain rfl := Option.some.inj hp
      refine ⟨_, rfl, (hjoin _ _ _).mpr ?_, (hjoin _ _ _).mpr ?_⟩
      · exact ⟨hq.1.trans (hleft _ _), hq'.1.trans (hright _ _)⟩
      · exact ⟨hq.2.trans (hleft _ _), hq'.2.trans (hright _ _)⟩

end Relations

section Intervals

variable {i i' j j' : Interval}

lemma nonempty_eq_some {p : Interval × Interval} (h : nonempty i j = some p) :
    p = (i, j) ∧ (∃ n, i.Spans n) ∧ ∃ n, j.Spans n := by
  rw [nonempty] at h
  split at h
  · cases h
  · rename_i hempty
    rw [Bool.or_eq_true, not_or, Bool.not_eq_true, Bool.not_eq_true] at hempty
    exact ⟨(Option.some.inj h).symm, Interval.exists_spans hempty.1, Interval.exists_spans hempty.2⟩

lemma below_nonempty (hi : i ≤ i') (hj : j ≤ j') : Below (nonempty i j) (nonempty i' j') := by
  intro p hp
  obtain ⟨rfl, ⟨n, hn⟩, k, hk⟩ := nonempty_eq_some hp
  exact ⟨_, nonempty_of_spans (hi n hn) (hj k hk), hi, hj⟩

lemma expands_of_ranges {narrow : Interval → Interval → Option (Interval × Interval)}
    (hleft : ∀ i, narrow .empty i = none) (hright : ∀ i, narrow i .empty = none)
    (hranges : ∀ l₁ h₁ le₁ l₂ h₂ le₂ l₁' h₁' le₁' l₂' h₂' le₂',
      Interval.range l₁ h₁ le₁ ≤ .range l₁' h₁' le₁' →
      Interval.range l₂ h₂ le₂ ≤ .range l₂' h₂' le₂' →
      Below (narrow (.range l₁ h₁ le₁) (.range l₂ h₂ le₂))
        (narrow (.range l₁' h₁' le₁') (.range l₂' h₂' le₂'))) :
    Expands Interval.BelowLimit narrow := by
  intro l r l' r' _ _ hl hr p hp
  cases l with
  | empty =>
    rw [hleft] at hp
    cases hp
  | range l₁ h₁ le₁ =>
    cases r with
    | empty =>
      rw [hright] at hp
      cases hp
    | range l₂ h₂ le₂ =>
      cases l' with
      | empty => exact absurd hl (Interval.not_range_le_empty l₁ h₁ le₁)
      | range l₁' h₁' le₁' =>
        cases r' with
        | empty => exact absurd hr (Interval.not_range_le_empty l₂ h₂ le₂)
        | range l₂' h₂' le₂' => exact hranges _ _ _ _ _ _ _ _ _ _ _ _ hl hr p hp

lemma expands_lt : Expands Interval.BelowLimit narrowLt := by
  refine expands_of_ranges (fun i => by cases i <;> rfl) (fun i => by cases i <;> rfl) ?_
  intro l₁ h₁ le₁ l₂ h₂ le₂ l₁' h₁' le₁' l₂' h₂' le₂' hl hr
  refine below_nonempty (Interval.meet_mono hl (Interval.atMost_mono ?_))
    (Interval.meet_mono hr (Interval.atLeast_mono ?_))
  · rw [toInt_sub, toInt_sub]
    exact nearest_mono (Int.sub_le_sub_right (Interval.range_le_range.mp hr).2 _)
  · rw [toInt_add, toInt_add]
    exact nearest_mono (Int.add_le_add_right (Interval.range_le_range.mp hl).1 _)

lemma expands_le : Expands Interval.BelowLimit narrowLe := by
  refine expands_of_ranges (fun i => by cases i <;> rfl) (fun i => by cases i <;> rfl) ?_
  intro l₁ h₁ le₁ l₂ h₂ le₂ l₁' h₁' le₁' l₂' h₂' le₂' hl hr
  exact below_nonempty
    (Interval.meet_mono hl (Interval.atMost_mono (Interval.range_le_range.mp hr).2))
    (Interval.meet_mono hr (Interval.atLeast_mono (Interval.range_le_range.mp hl).1))

lemma expands_gt : Expands Interval.BelowLimit narrowGt := expands_lt.swap

lemma expands_ge : Expands Interval.BelowLimit narrowGe := expands_le.swap

lemma expands_eq : Expands Interval.BelowLimit narrowEq := by
  intro l r l' r' _ _ hl hr
  exact below_nonempty (Interval.meet_mono hl hr) (Interval.meet_mono hl hr)

lemma other_le (i j : Interval) : j.constant?.elim i i.removeEnd ≤ i := by
  cases j.constant? with
  | none => exact le_rfl
  | some w => exact Interval.removeEnd_le i w

lemma other_mono {n : Int} (hi : i ≤ i') (hj : j ≤ j') (hn : j.Spans n) (hlimit : i.BelowLimit) :
    j.constant?.elim i i.removeEnd ≤ j'.constant?.elim i' i'.removeEnd := by
  intro k hk
  have hki := other_le i j k hk
  cases hc : j'.constant? with
  | none => exact hi k hki
  | some w =>
    rw [Interval.eq_of_le_constant hj hc hn, hc] at hk
    by_cases hkw : k = w.toInt
    · -- the word has stayed, so it is not at an end, and even less so in the larger operand
      subst hkw
      cases i with
      | empty => exact hki.elim
      | range l h le =>
        obtain ⟨hlw, hwh⟩ := Interval.interior_of_spans_removeEnd hlimit hk
        cases i' with
        | empty => exact absurd hi (Interval.not_range_le_empty _ _ _)
        | range l' h' le' =>
          rw [Interval.range_le_range] at hi
          have hl' : l' ≠ w := by
            rintro rfl
            omega
          have hh' : h' ≠ w := by
            rintro rfl
            omega
          rw [Option.elim_some, Interval.removeEnd, if_neg hl', if_neg hh', Interval.spans_range]
          omega
    · exact Interval.spans_removeEnd (hi k hki) hkw

lemma expands_ne : Expands Interval.BelowLimit narrowNe := by
  intro l r l' r' hlimitl hlimitr hl hr p hp
  obtain ⟨_, ⟨n, hn⟩, k, hk⟩ := nonempty_eq_some hp
  exact below_nonempty (other_mono hl hr (other_le r l k hk) hlimitl)
    (other_mono hr hl (other_le l r n hn) hlimitr) p hp

lemma below_compareCases {op : BinOp} {cases : (Interval → Interval → Option (Interval × Interval)) ×
    (Interval → Interval → Option (Interval × Interval))} (h : compareCases? op = some cases)
    {e e' : BoolSet} (he : e ≤ e') (hlimiti : i.BelowLimit) (hlimitj : j.BelowLimit) (hi : i ≤ i')
    (hj : j ≤ j') :
    Below (invertRelation .join cases.1 cases.2 e i j)
      (invertRelation .join cases.1 cases.2 e' i' j') := by
  have hcases : Expands Interval.BelowLimit cases.1 ∧ Expands Interval.BelowLimit cases.2 := by
    cases op <;> simp only [compareCases?, Option.some.injEq, reduceCtorEq] at h <;> subst h
    case eq => exact ⟨expands_eq, expands_ne⟩
    case ne => exact ⟨expands_ne, expands_eq⟩
    case lt => exact ⟨expands_lt, expands_ge⟩
    case le => exact ⟨expands_le, expands_gt⟩
    case gt => exact ⟨expands_gt, expands_le⟩
    case ge => exact ⟨expands_ge, expands_lt⟩
  exact below_invertRelation Interval.join_le_iff hcases.1 hcases.2 he hlimiti hlimitj hi hj

lemma below_invertArith {op : BinOp}
    {f : Interval → Interval → Interval → Option (Interval × Interval)}
    (h : invertArith? op = some f) {e e' : Interval} (he : e ≤ e') (hi : i ≤ i') (hj : j ≤ j') :
    Below (f e i j) (f e' i' j') := by
  cases op <;> simp only [invertArith?, Option.some.injEq, reduceCtorEq] at h <;> subst h
  case add =>
    exact below_nonempty (Interval.meet_mono hi (Interval.sub_mono he hj))
      (Interval.meet_mono hj (Interval.sub_mono he hi))
  case sub =>
    exact below_nonempty (Interval.meet_mono hi (Interval.add_mono he hj))
      (Interval.meet_mono hj (Interval.sub_mono hi he))
  case mul =>
    intro p hp
    dsimp only at hp ⊢
    split at hp
    · cases hp
    · rename_i hfeasible
      obtain ⟨n, hn⟩ := Interval.exists_spans (Bool.eq_false_of_not_eq_true hfeasible)
      have hn' := Interval.meet_mono he (Interval.mul_mono hi hj) n hn
      rw [Interval.isEmpty_eq_false hn']
      exact below_nonempty hi hj p hp

end Intervals

section Literals

variable {s s' t t' : ElemSet}

lemma nonemptySets_eq_some {p : ElemSet × ElemSet} (h : nonemptySets s t = some p) :
    p = (s, t) ∧ (∃ i : Nat, i ∈ s) ∧ ∃ i : Nat, i ∈ t := by
  rw [nonemptySets] at h
  split at h
  · cases h
  · rename_i hempty
    rw [Bool.or_eq_true, not_or, Bool.not_eq_true, Bool.not_eq_true] at hempty
    exact ⟨(Option.some.inj h).symm, ElemSet.exists_mem hempty.1, ElemSet.exists_mem hempty.2⟩

lemma below_nonemptySets (hs : s ≤ s') (ht : t ≤ t') :
    Below (nonemptySets s t) (nonemptySets s' t') := by
  intro p hp
  obtain ⟨rfl, ⟨i, hi⟩, j, hj⟩ := nonemptySets_eq_some hp
  exact ⟨_, nonemptySets_of_mem (hs i hi) (ht j hj), hs, ht⟩

lemma inter_mono (hs : s ≤ s') (ht : t ≤ t') : s.inter t ≤ s'.inter t' := by
  intro i hi
  rw [ElemSet.mem_inter] at hi ⊢
  exact ⟨hs i hi.1, ht i hi.2⟩

lemma expands_eqElems : Expands (fun _ => True) narrowEqElems := by
  intro l r l' r' _ _ hl hr
  exact below_nonemptySets (inter_mono hl hr) (inter_mono hl hr)

lemma otherElems_le (s t : ElemSet) : (if t.size == 1 then s.diff t else s) ≤ s := by
  split
  · exact fun i hi => ((ElemSet.mem_diff s t i).mp hi).1
  · exact le_rfl

lemma otherElems_mono {i : Nat} (hs : s ≤ s') (ht : t ≤ t') (hi : i ∈ t) :
    (if t.size == 1 then s.diff t else s) ≤ if t'.size == 1 then s'.diff t' else s' := by
  intro j hj
  have hjs := otherElems_le s t j hj
  by_cases hsize : t'.size = 1
  · obtain rfl : t = t' := by
      apply le_antisymm ht
      intro k hk
      rwa [ElemSet.eq_of_size_eq_one hsize hk (ht i hi)]
    rw [hsize] at hj ⊢
    exact (ElemSet.mem_diff s' t j).mpr ⟨hs j hjs, ((ElemSet.mem_diff s t j).mp hj).2⟩
  · rw [beq_false_of_ne hsize]
    exact hs j hjs

lemma expands_neElems : Expands (fun _ => True) narrowNeElems := by
  intro l r l' r' _ _ hl hr p hp
  obtain ⟨_, ⟨i, hi⟩, j, hj⟩ := nonemptySets_eq_some hp
  exact below_nonemptySets (otherElems_mono hl hr (otherElems_le r l j hj))
    (otherElems_mono hr hl (otherElems_le l r i hi)) p hp

lemma below_setCompareCases {op : BinOp} {cases : (ElemSet → ElemSet → Option (ElemSet × ElemSet)) ×
    (ElemSet → ElemSet → Option (ElemSet × ElemSet))} (h : setCompareCases? op = some cases)
    {e e' : BoolSet} (he : e ≤ e') (hs : s ≤ s') (ht : t ≤ t') :
    Below (invertRelation .union cases.1 cases.2 e s t)
      (invertRelation .union cases.1 cases.2 e' s' t') := by
  have hcases : Expands (fun _ => True) cases.1 ∧ Expands (fun _ => True) cases.2 := by
    cases op <;> simp only [setCompareCases?, Option.some.injEq, reduceCtorEq] at h <;> subst h
    case eq => exact ⟨expands_eqElems, expands_neElems⟩
    case ne => exact ⟨expands_neElems, expands_eqElems⟩
  exact below_invertRelation ElemSet.union_le_iff hcases.1 hcases.2 he trivial trivial hs ht

end Literals

lemma below_invertBool (f : Bool → Bool → Bool) {e e' l l' r r' : BoolSet} (he : e ≤ e')
    (hl : l ≤ l') (hr : r ≤ r') : Below (invertBool f e l r) (invertBool f e' l' r') := by
  intro p hp
  obtain ⟨⟨a, ha⟩, hleft, hright⟩ := invertBool_eq_some hp
  obtain ⟨hal, b, hbr, hab⟩ := (hleft a).mp ha
  obtain ⟨p', hp'⟩ := exists_invertBool (hl a hal) (hr b hbr) (he _ hab)
  obtain ⟨_, hleft', hright'⟩ := invertBool_eq_some hp'
  refine ⟨p', hp', fun a ha => ?_, fun b hb => ?_⟩
  · obtain ⟨hal, b, hbr, hab⟩ := (hleft a).mp ha
    exact (hleft' a).mpr ⟨hl a hal, b, hr b hbr, he _ hab⟩
  · obtain ⟨hbr, a, hal, hab⟩ := (hright b).mp hb
    exact (hright' b).mpr ⟨hr b hbr, a, hl a hal, he _ hab⟩

lemma below_pair {α : Type} [LE α] {value : α → Value}
    (hvalue : ∀ s t, s ≤ t → value s ≤ value t) {o o' : Option (α × α)} (h : Below o o')
    {narrowed : List Value} (hn : pair value o = some narrowed) :
    ∃ narrowed', pair value o' = some narrowed' ∧ List.Forall₂ (· ≤ ·) narrowed narrowed' := by
  obtain ⟨p, hp, rfl⟩ := Option.map_eq_some_iff.mp hn
  obtain ⟨p', rfl, hle⟩ := h p hp
  exact ⟨_, rfl, .cons (hvalue _ _ hle.1) (.cons (hvalue _ _ hle.2) .nil)⟩

lemma below_single {α : Type} (value : α → Value) (empty : α → Bool) {x x' : α}
    (hvalue : value x ≤ value x') (hempty : empty x = false → empty x' = false)
    {narrowed : List Value} (hn : (if empty x then none else some [value x]) = some narrowed) :
    ∃ narrowed', (if empty x' then none else some [value x']) = some narrowed' ∧
      List.Forall₂ (· ≤ ·) narrowed narrowed' := by
  obtain ⟨hx, ⟨⟩⟩ := Option.ite_none_left_eq_some.mp hn
  rw [hempty (Bool.eq_false_of_not_eq_true hx)]
  exact ⟨_, rfl, .cons hvalue .nil⟩

lemma invertNot_mono {s s' e e' : BoolSet} (hs : s ≤ s') (he : e ≤ e') :
    s.inter (e.map not) ≤ s'.inter (e'.map not) := by
  intro b hb
  rw [BoolSet.mem_inter, BoolSet.mem_map] at hb ⊢
  obtain ⟨hbs, c, hc, hcb⟩ := hb
  exact ⟨hs b hbs, c, he c hc, hcb⟩

theorem mono_inverse {op : Op} {sig : Signature} {inverse : Inverse}
    (h : inverse? op sig = some inverse) {expected expected' : Value}
    (hexp : sig.result.accepts expected = true) (hexp' : sig.result.accepts expected' = true)
    (hexple : expected ≤ expected') {args args' : List Value}
    (hargs : List.Forall₂ (fun dom v => dom.accepts v = true) sig.operands args)
    (hargs' : List.Forall₂ (fun dom v => dom.accepts v = true) sig.operands args')
    (hle : List.Forall₂ (· ≤ ·) args args')
    (hlimit : ∀ a ∈ args, Datum.int Int64.maxValue.toInt ∉ a) {narrowed : List Value}
    (hn : inverse expected args = .ok (some narrowed)) :
    ∃ narrowed', inverse expected' args' = .ok (some narrowed') ∧
      List.Forall₂ (· ≤ ·) narrowed narrowed' := by
  obtain ⟨_, hok, hinverts⟩ := exists_inverts h hexp hargs
  obtain ⟨result', hok', hinverts'⟩ := exists_inverts h hexp' hargs'
  obtain rfl := Except.ok.inj (hok.symm.trans hn)
  suffices hbelow : ∃ narrowed', result' = some narrowed' ∧
      List.Forall₂ (· ≤ ·) narrowed narrowed' by
    obtain ⟨narrowed', rfl, hnle⟩ := hbelow
    exact ⟨narrowed', hok', hnle⟩
  generalize hresult : some narrowed = result at hinverts
  cases hinverts with
  | not e s =>
    cases hinverts' with
    | not e' s' =>
      simp only [List.forall₂_cons, Value.bools_le_bools] at hle hexple
      have hnot := invertNot_mono hle.1 hexple
      refine below_single Value.bools BoolSet.isEmpty ((Value.bools_le_bools _ _).mpr hnot) ?_
        hresult.symm
      intro hnonempty
      obtain ⟨b, hb⟩ := BoolSet.exists_mem hnonempty
      exact BoolSet.isEmpty_eq_false (hnot b hb)
  | neg r range e i =>
    cases hinverts' with
    | neg _ _ e' i' =>
      simp only [List.forall₂_cons, Value.ints_le_ints] at hle hexple
      have hneg := Interval.meet_mono hle.1 (Interval.neg_mono hexple)
      refine below_single Value.ints Interval.isEmpty ((Value.ints_le_ints _ _).mpr hneg) ?_
        hresult.symm
      intro hnonempty
      obtain ⟨n, hn⟩ := Interval.exists_spans hnonempty
      exact Interval.isEmpty_eq_false (hneg n hn)
  | @boolOp op f hf e s t =>
    cases hinverts' with
    | boolOp hf' e' s' t' =>
      obtain rfl := Option.some.inj (hf.symm.trans hf')
      simp only [List.forall₂_cons, Value.bools_le_bools] at hle hexple
      exact below_pair (fun s t => (Value.bools_le_bools s t).mpr)
        (below_invertBool f hexple hle.1 hle.2.1) hresult.symm
  | arith hf r₁ r₂ range e i j =>
    cases hinverts' with
    | arith hf' _ _ _ e' i' j' =>
      obtain rfl := Option.some.inj (hf.symm.trans hf')
      simp only [List.forall₂_cons, Value.ints_le_ints] at hle hexple
      exact below_pair (fun s t => (Value.ints_le_ints s t).mpr)
        (below_invertArith hf hexple hle.1 hle.2.1) hresult.symm
  | compare hf r₁ r₂ e i j =>
    cases hinverts' with
    | compare hf' _ _ e' i' j' =>
      obtain rfl := Option.some.inj (hf.symm.trans hf')
      simp only [List.forall₂_cons, Value.ints_le_ints] at hle
      rw [Value.bools_le_bools] at hexple
      have hlimiti : i.BelowLimit := hlimit _ List.mem_cons_self
      have hlimitj : j.BelowLimit := hlimit _ (List.mem_cons_of_mem _ List.mem_cons_self)
      exact below_pair (fun s t => (Value.ints_le_ints s t).mpr)
        (below_compareCases hf hexple hlimiti hlimitj hle.1 hle.2.1) hresult.symm
  | setCompare hf e₁ e₂ e s t =>
    cases hinverts' with
    | setCompare hf' _ _ e' s' t' =>
      obtain rfl := Option.some.inj (hf.symm.trans hf')
      simp only [List.forall₂_cons, Value.elems_le_elems] at hle
      rw [Value.bools_le_bools] at hexple
      exact below_pair (fun s t => (Value.elems_le_elems s t).mpr)
        (below_setCompareCases hf hexple hle.1 hle.2.1) hresult.symm

end Backward

end Tracewise
