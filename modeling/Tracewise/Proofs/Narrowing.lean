import Tracewise.Proofs.MonotoneInverses

namespace Tracewise

lemma Interval.meet_le_left (i j : Interval) : i.meet j ≤ i :=
  fun n hn => ((spans_meet i j n).mp hn).1

lemma BoolSet.inter_le_left (s t : BoolSet) : s.inter t ≤ s :=
  fun b hb => ((mem_inter s t b).mp hb).1

lemma ElemSet.inter_le_left (s t : ElemSet) : s.inter t ≤ s :=
  fun i hi => ((mem_inter s t i).mp hi).1

lemma ElemSet.inter_le_right (s t : ElemSet) : s.inter t ≤ t :=
  fun i hi => ((mem_inter s t i).mp hi).2

namespace Backward

def Shrinks {α : Type} [LE α] (narrow : α → α → Option (α × α)) : Prop :=
  ∀ l r, Below (narrow l r) (some (l, r))

section Relations

lemma below_none {α : Type} [LE α] (o : Option α) : Below none o := by
  intro p hp
  cases hp

variable {α : Type} [Preorder α] {whenTrue whenFalse : α → α → Option (α × α)}

lemma Shrinks.swap {narrow : α → α → Option (α × α)} (h : Shrinks narrow) :
    Shrinks fun l r => (narrow r l).map Prod.swap := by
  intro l r p hp
  obtain ⟨q, hq, rfl⟩ := Option.map_eq_some_iff.mp hp
  obtain ⟨_, ⟨⟩, hle⟩ := h r l q hq
  exact ⟨_, rfl, hle.2, hle.1⟩

lemma Shrinks.guard {narrow : α → α → Option (α × α)} (h : Shrinks narrow) (b : Bool) (l r : α) :
    Below (if b then narrow l r else none) (some (l, r)) := by
  cases b with
  | true => exact h l r
  | false => exact below_none _

lemma shrinks_invertRelation {join : α → α → α}
    (hjoin : ∀ s t u : α, join s t ≤ u ↔ s ≤ u ∧ t ≤ u) (ht : Shrinks whenTrue)
    (hf : Shrinks whenFalse) (e : BoolSet) :
    Shrinks (invertRelation join whenTrue whenFalse e) := by
  intro l r p hp
  have ht := ht.guard (e.contains true) l r
  have hf := hf.guard (e.contains false) l r
  simp only [invertRelation] at hp
  generalize (if e.contains true then whenTrue l r else none) = t at ht hp
  generalize (if e.contains false then whenFalse l r else none) = f at hf hp
  cases t with
  | none => exact hf p hp
  | some t =>
    cases f with
    | none => exact ht p hp
    | some f =>
      obtain ⟨_, ⟨⟩, htl, htr⟩ := ht t rfl
      obtain ⟨_, ⟨⟩, hfl, hfr⟩ := hf f rfl
      obtain rfl := Option.some.inj hp
      exact ⟨_, rfl, (hjoin _ _ _).mpr ⟨htl, hfl⟩, (hjoin _ _ _).mpr ⟨htr, hfr⟩⟩

end Relations

section Intervals

variable {i j l r : Interval}

lemma nonempty_within (hi : i ≤ l) (hj : j ≤ r) : Below (nonempty i j) (some (l, r)) := by
  intro p hp
  obtain ⟨rfl, _⟩ := nonempty_eq_some hp
  exact ⟨_, rfl, hi, hj⟩

lemma shrinks_lt : Shrinks narrowLt := by
  intro l r
  rw [narrowLt]
  split
  · exact nonempty_within (l.meet_le_left _) (r.meet_le_left _)
  · exact below_none _

lemma shrinks_le : Shrinks narrowLe := by
  intro l r
  rw [narrowLe]
  split
  · exact nonempty_within (l.meet_le_left _) (r.meet_le_left _)
  · exact below_none _

lemma shrinks_gt : Shrinks narrowGt := shrinks_lt.swap

lemma shrinks_ge : Shrinks narrowGe := shrinks_le.swap

lemma shrinks_eq : Shrinks narrowEq := by
  intro l r
  exact nonempty_within (l.meet_le_left r) fun n hn => ((l.spans_meet r n).mp hn).2

lemma shrinks_ne : Shrinks narrowNe := by
  intro l r
  exact nonempty_within (other_le l r) (other_le r l)

lemma shrinks_compareCases {op : BinOp}
    {cases : (Interval → Interval → Option (Interval × Interval)) ×
      (Interval → Interval → Option (Interval × Interval))} (h : compareCases? op = some cases)
    (e : BoolSet) : Shrinks (invertRelation .join cases.1 cases.2 e) := by
  have hcases : Shrinks cases.1 ∧ Shrinks cases.2 := by
    cases op <;> simp only [compareCases?, Option.some.injEq, reduceCtorEq] at h <;> subst h
    case eq => exact ⟨shrinks_eq, shrinks_ne⟩
    case ne => exact ⟨shrinks_ne, shrinks_eq⟩
    case lt => exact ⟨shrinks_lt, shrinks_ge⟩
    case le => exact ⟨shrinks_le, shrinks_gt⟩
    case gt => exact ⟨shrinks_gt, shrinks_le⟩
    case ge => exact ⟨shrinks_ge, shrinks_lt⟩
  exact shrinks_invertRelation Interval.join_le_iff hcases.1 hcases.2 e

lemma shrinks_invertArith {op : BinOp}
    {f : Interval → Interval → Interval → Option (Interval × Interval)}
    (h : invertArith? op = some f) (e : Interval) : Shrinks (f e) := by
  intro l r
  cases op <;> simp only [invertArith?, Option.some.injEq, reduceCtorEq] at h <;> subst h
  case add => exact nonempty_within (l.meet_le_left _) (r.meet_le_left _)
  case sub => exact nonempty_within (l.meet_le_left _) (r.meet_le_left _)
  case mul =>
    dsimp only
    split
    · exact below_none _
    · exact nonempty_within le_rfl le_rfl

end Intervals

section Literals

variable {s t l r : ElemSet}

lemma nonemptySets_within (hs : s ≤ l) (ht : t ≤ r) : Below (nonemptySets s t) (some (l, r)) := by
  intro p hp
  obtain ⟨rfl, _⟩ := nonemptySets_eq_some hp
  exact ⟨_, rfl, hs, ht⟩

lemma shrinks_eqElems : Shrinks narrowEqElems := by
  intro l r
  exact nonemptySets_within (l.inter_le_left r) (l.inter_le_right r)

lemma shrinks_neElems : Shrinks narrowNeElems := by
  intro l r
  exact nonemptySets_within (otherElems_le l r) (otherElems_le r l)

lemma shrinks_setCompareCases {op : BinOp}
    {cases : (ElemSet → ElemSet → Option (ElemSet × ElemSet)) ×
      (ElemSet → ElemSet → Option (ElemSet × ElemSet))} (h : setCompareCases? op = some cases)
    (e : BoolSet) : Shrinks (invertRelation .union cases.1 cases.2 e) := by
  have hcases : Shrinks cases.1 ∧ Shrinks cases.2 := by
    cases op <;> simp only [setCompareCases?, Option.some.injEq, reduceCtorEq] at h <;> subst h
    case eq => exact ⟨shrinks_eqElems, shrinks_neElems⟩
    case ne => exact ⟨shrinks_neElems, shrinks_eqElems⟩
  exact shrinks_invertRelation ElemSet.union_le_iff hcases.1 hcases.2 e

end Literals

lemma shrinks_invertBool (f : Bool → Bool → Bool) (e : BoolSet) : Shrinks (invertBool f e) := by
  intro l r p hp
  obtain ⟨_, hleft, hright⟩ := invertBool_eq_some hp
  exact ⟨_, rfl, fun a ha => ((hleft a).mp ha).1, fun b hb => ((hright b).mp hb).1⟩

lemma pair_within {α : Type} [LE α] {value : α → Value} (hvalue : ∀ s t, s ≤ t → value s ≤ value t)
    {o : Option (α × α)} {s t : α} (h : Below o (some (s, t))) {narrowed : List Value}
    (hn : pair value o = some narrowed) :
    List.Forall₂ (· ≤ ·) narrowed [value s, value t] := by
  obtain ⟨_, ⟨⟩, hle⟩ := below_pair hvalue h hn
  exact hle

lemma Inverts.narrowed_le {op : Op} {sig : Signature} {expected : Value} {args : List Value}
    {result : Option (List Value)} (h : Inverts op sig expected args result) {narrowed : List Value}
    (hn : result = some narrowed) : List.Forall₂ (· ≤ ·) narrowed args := by
  cases h with
  | not e s =>
    obtain ⟨_, ⟨⟩⟩ := Option.ite_none_left_eq_some.mp hn
    exact .cons ((Value.bools_le_bools _ _).mpr (s.inter_le_left _)) .nil
  | neg r range e i =>
    obtain ⟨_, ⟨⟩⟩ := Option.ite_none_left_eq_some.mp hn
    exact .cons ((Value.ints_le_ints _ _).mpr (i.meet_le_left _)) .nil
  | @boolOp op f hf e s t =>
    exact pair_within (fun s t => (Value.bools_le_bools s t).mpr) (shrinks_invertBool f e s t) hn
  | arith hf r₁ r₂ range e i j =>
    exact pair_within (fun s t => (Value.ints_le_ints s t).mpr) (shrinks_invertArith hf e i j) hn
  | compare hf r₁ r₂ e i j =>
    exact pair_within (fun s t => (Value.ints_le_ints s t).mpr) (shrinks_compareCases hf e i j) hn
  | setCompare hf e₁ e₂ e s t =>
    exact pair_within (fun s t => (Value.elems_le_elems s t).mpr)
      (shrinks_setCompareCases hf e s t) hn

/-- Nothing is asked of the domain of the result: the exact result may lie outside it. -/
theorem inverses_narrow_soundly {op : Op} {sig : Signature} {inverse : Inverse}
    (h : inverse? op sig = some inverse) {expected : Value}
    (hexp : sig.result.accepts expected = true) {args : List Value}
    (hargs : List.Forall₂ (fun dom v => dom.accepts v = true) sig.operands args) :
    ∃ result, inverse expected args = .ok result ∧
      (∀ narrowed, result = some narrowed →
        List.Forall₂ (fun dom v => dom.accepts v = true) sig.operands narrowed ∧
        List.Forall₂ (· ≤ ·) narrowed args ∧
        ∀ data d, List.Forall₂ (· ∈ ·) data args → op.compute? data = some d → d ∈ expected →
          List.Forall₂ (· ∈ ·) data narrowed) ∧
      (result = none → ∀ data d, List.Forall₂ (· ∈ ·) data args → op.compute? data = some d →
        d ∉ expected) := by
  obtain ⟨result, hresult, hacc, hkeeps⟩ := sound_inverse h expected args hexp hargs
  obtain ⟨_, hok, hinverts⟩ := exists_inverts h hexp hargs
  obtain rfl := Except.ok.inj (hresult.symm.trans hok)
  refine ⟨result, hresult, ?_, ?_⟩
  · rintro narrowed rfl
    refine ⟨hacc narrowed rfl, hinverts.narrowed_le rfl, ?_⟩
    intro data d hdata hd hmem
    obtain ⟨_, ⟨⟩, hnarrowed⟩ := hkeeps data d hdata hd hmem
    exact hnarrowed
  · rintro rfl data d hdata hd hmem
    obtain ⟨_, ⟨⟩, _⟩ := hkeeps data d hdata hd hmem

def nearLimit : Value := .ints (.between (Int64.maxValue - 1) Int64.maxValue)

def differenceOperands : List Value := [.ints Range.words.top, .ints (.between (-1) 1)]

theorem difference_narrows_at_limit :
    ∃ inverse narrowed, inverse? (.binary .sub) ⟨[.int .words, .int .words], .int .words⟩ =
        some inverse ∧
      inverse nearLimit differenceOperands = .ok (some narrowed) ∧
      List.Forall₂ (· ≤ ·) narrowed differenceOperands ∧
      List.Forall₂ (· ∈ ·) [Datum.int (2 ^ 63 - 1), .int 1] narrowed := by
  have hinv : inverse? (.binary .sub) ⟨[.int .words, .int .words], .int .words⟩ = some _ := rfl
  have hargs : List.Forall₂ (fun dom v => dom.accepts v = true) [Domain.int .words, .int .words]
      differenceOperands := .cons rfl (.cons rfl .nil)
  have hdata : List.Forall₂ (· ∈ ·) [Datum.int (2 ^ 63 - 1), .int 1] differenceOperands :=
    .cons (by decide +kernel) (.cons (by decide +kernel) .nil)
  have hmem : Datum.int (2 ^ 63 - 1 - 1) ∈ nearLimit := by decide +kernel
  have hexp : (Domain.int .words).accepts nearLimit = true := rfl
  obtain ⟨result, hresult, hsome, hnone⟩ := inverses_narrow_soundly hinv hexp hargs
  cases result with
  | none => exact absurd hmem (hnone rfl _ _ hdata rfl)
  | some narrowed =>
    obtain ⟨_, hle, hkeeps⟩ := hsome narrowed rfl
    exact ⟨_, narrowed, hinv, hresult, hle, hkeeps _ _ hdata rfl hmem⟩

end Backward

end Tracewise
