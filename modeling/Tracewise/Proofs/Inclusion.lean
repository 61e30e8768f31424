import Tracewise.Proofs.Environments

namespace Tracewise

open Fallible

namespace BoolSet

lemma ext_mem {s t : BoolSet} (h : ∀ b, b ∈ s ↔ b ∈ t) : s = t := by
  have hfalse : s.contains false = t.contains false := Bool.eq_iff_iff.mpr (h false)
  have htrue : s.contains true = t.contains true := Bool.eq_iff_iff.mpr (h true)
  cases s
  cases t
  simp_all [contains]

instance : PartialOrder BoolSet where
  le s t := ∀ b, b ∈ s → b ∈ t
  le_refl _ _ hb := hb
  le_trans _ _ _ h h' b hb := h' b (h b hb)
  le_antisymm _ _ h h' := ext_mem fun b => ⟨h b, h' b⟩

lemma subset_eq_true_iff (s t : BoolSet) : s.subset t = true ↔ s ≤ t := by
  constructor
  · intro h b hb
    cases b <;> simp_all [subset, mem_iff, contains]
  · intro h
    have hfalse := h false
    have htrue := h true
    simp only [mem_iff, contains] at hfalse htrue
    cases hf : s.hasFalse <;> cases ht : s.hasTrue <;> simp_all [subset]

lemma union_le_iff (s t u : BoolSet) : s.union t ≤ u ↔ s ≤ u ∧ t ≤ u := by
  constructor
  · intro h
    exact ⟨fun b hb => h b ((mem_union s t b).mpr (Or.inl hb)),
      fun b hb => h b ((mem_union s t b).mpr (Or.inr hb))⟩
  · rintro ⟨hs, ht⟩ b hb
    exact ((mem_union s t b).mp hb).elim (hs b) (ht b)

end BoolSet

namespace ElemSet

lemma ext_mem {s t : ElemSet} (h : ∀ i : Nat, i ∈ s ↔ i ∈ t) : s = t := by
  have hmask : s.mask = t.mask := by
    apply BitVec.eq_of_getLsbD_eq
    intro i _
    rw [Bool.eq_iff_iff, ← mem_iff, ← mem_iff]
    exact h i
  cases s
  cases t
  exact congrArg mk hmask

instance : PartialOrder ElemSet where
  le s t := ∀ i : Nat, i ∈ s → i ∈ t
  le_refl _ _ hi := hi
  le_trans _ _ _ h h' i hi := h' i (h i hi)
  le_antisymm _ _ h h' := ext_mem fun i => ⟨h i, h' i⟩

lemma not_mem_empty (i : Nat) : i ∉ empty := by
  simp [mem_iff, empty]

lemma subset_eq_true_iff (s t : ElemSet) : s.subset t = true ↔ s ≤ t := by
  have hdiff : s.subset t = true ↔ s.diff t = empty := by
    rw [subset, beq_iff_eq, diff, empty, mk.injEq]
  rw [hdiff]
  constructor
  · intro h i hi
    by_contra hit
    exact not_mem_empty i (h ▸ (mem_diff s t i).mpr ⟨hi, hit⟩)
  · intro h
    apply ext_mem
    intro i
    rw [mem_diff]
    constructor
    · rintro ⟨his, hit⟩
      exact absurd (h i his) hit
    · intro hi
      exact absurd hi (not_mem_empty i)

lemma union_le_iff (s t u : ElemSet) : s.union t ≤ u ↔ s ≤ u ∧ t ≤ u := by
  constructor
  · intro h
    exact ⟨fun i hi => h i ((mem_union s t i).mpr (Or.inl hi)),
      fun i hi => h i ((mem_union s t i).mpr (Or.inr hi))⟩
  · rintro ⟨hs, ht⟩ i hi
    exact ((mem_union s t i).mp hi).elim (hs i) (ht i)

end ElemSet

namespace Interval

lemma spans_low (l h : Int64) (le : l ≤ h) : (range l h le).Spans l.toInt :=
  ⟨le_rfl, Int64.le_iff_toInt_le.mp le⟩

lemma spans_high (l h : Int64) (le : l ≤ h) : (range l h le).Spans h.toInt :=
  ⟨Int64.le_iff_toInt_le.mp le, le_rfl⟩

lemma ext_spans {i j : Interval} (h : ∀ n, i.Spans n ↔ j.Spans n) : i = j := by
  cases i with
  | empty =>
    cases j with
    | empty => rfl
    | range l h' le => exact ((h l.toInt).mpr (spans_low l h' le)).elim
  | range l₁ h₁ le₁ =>
    cases j with
    | empty => exact ((h l₁.toInt).mp (spans_low l₁ h₁ le₁)).elim
    | range l₂ h₂ le₂ =>
      have hl₁ := (h _).mp (spans_low l₁ h₁ le₁)
      have hh₁ := (h _).mp (spans_high l₁ h₁ le₁)
      have hl₂ := (h _).mpr (spans_low l₂ h₂ le₂)
      have hh₂ := (h _).mpr (spans_high l₂ h₂ le₂)
      rw [spans_range] at hl₁ hh₁ hl₂ hh₂
      obtain rfl : l₁ = l₂ := Int64.toInt_inj.mp (by omega)
      obtain rfl : h₁ = h₂ := Int64.toInt_inj.mp (by omega)
      rfl

instance : PartialOrder Interval where
  le i j := ∀ n, i.Spans n → j.Spans n
  le_refl _ _ hn := hn
  le_trans _ _ _ h h' n hn := h' n (h n hn)
  le_antisymm _ _ h h' := ext_spans fun n => ⟨h n, h' n⟩

lemma empty_le (i : Interval) : empty ≤ i := fun _ hn => hn.elim

lemma not_range_le_empty (l h : Int64) (le : l ≤ h) : ¬ range l h le ≤ empty :=
  fun hle => hle _ (spans_low l h le)

lemma range_le_range {l₁ h₁ l₂ h₂ : Int64} {le₁ : l₁ ≤ h₁} {le₂ : l₂ ≤ h₂} :
    range l₁ h₁ le₁ ≤ range l₂ h₂ le₂ ↔ l₂.toInt ≤ l₁.toInt ∧ h₁.toInt ≤ h₂.toInt := by
  constructor
  · intro h
    exact ⟨(h _ (spans_low l₁ h₁ le₁)).1, (h _ (spans_high l₁ h₁ le₁)).2⟩
  · rintro ⟨hl, hh⟩ n hn
    exact ⟨hl.trans hn.1, hn.2.trans hh⟩

lemma subset_eq_true_iff (i j : Interval) : i.subset j = true ↔ i ≤ j := by
  cases i with
  | empty => exact iff_of_true rfl (empty_le j)
  | range l₁ h₁ le₁ =>
    cases j with
    | empty => exact iff_of_false Bool.false_ne_true (not_range_le_empty l₁ h₁ le₁)
    | range l₂ h₂ le₂ =>
      rw [range_le_range, subset, Bool.and_eq_true, decide_eq_true_eq, decide_eq_true_eq,
        Int64.le_iff_toInt_le, Int64.le_iff_toInt_le]

lemma join_le_iff (i j k : Interval) : i.join j ≤ k ↔ i ≤ k ∧ j ≤ k := by
  simp only [← subset_eq_true_iff]
  exact join_subset_iff i j k

lemma spans_of_le_of_le {i : Interval} {a b n : Int} (ha : i.Spans a) (hb : i.Spans b) (han : a ≤ n)
    (hnb : n ≤ b) : i.Spans n := by
  cases i with
  | empty => exact ha.elim
  | range l h le => exact ⟨ha.1.trans han, hnb.trans hb.2⟩

lemma exists_spans {i : Interval} (h : i.isEmpty = false) : ∃ n, i.Spans n := by
  cases i with
  | empty => cases h
  | range l r le => exact ⟨l.toInt, spans_low l r le⟩

end Interval

lemma Range.widen_le_top {r : Range} {i j : Interval} (hi : i ≤ r.top) (hj : j ≤ r.top) :
    r.widen i j ≤ r.top := by
  cases i with
  | empty => exact (Interval.join_le_iff _ _ _).mpr ⟨hi, hj⟩
  | range l₁ h₁ le₁ =>
    cases j with
    | empty => exact (Interval.join_le_iff _ _ _).mpr ⟨hi, hj⟩
    | range l₂ h₂ le₂ =>
      have hr := r.le
      rw [← Interval.subset_eq_true_iff] at hi hj
      simp only [top, Interval.between, hr, dif_pos, Interval.subset, Bool.and_eq_true,
        decide_eq_true_eq] at hi hj
      have hl : r.min ≤ if l₂ < l₁ then Min.min r.min l₂ else l₁ := by grind
      have hh : (if h₁ < h₂ then Max.max r.max h₂ else h₁) ≤ r.max := by grind
      rw [Int64.le_iff_toInt_le] at hl hh
      intro n hn
      rw [widen, Interval.spans_between] at hn
      rw [spans_top]
      omega

namespace Value

instance : Preorder Value where
  le a b := ∀ d, d ∈ a → d ∈ b
  le_refl _ _ hd := hd
  le_trans _ _ _ h h' d hd := h' d (h d hd)

@[simp] lemma bools_le_bools (s t : BoolSet) : bools s ≤ bools t ↔ s ≤ t := by
  constructor
  · exact fun h b hb => h (.bool b) hb
  · intro h d hd
    obtain ⟨b, rfl, hb⟩ := mem_bools.mp hd
    exact h b hb

@[simp] lemma ints_le_ints (i j : Interval) : ints i ≤ ints j ↔ i ≤ j := by
  constructor
  · exact fun h n hn => h (.int n) hn
  · intro h d hd
    obtain ⟨n, rfl, hn⟩ := mem_ints.mp hd
    exact h n hn

@[simp] lemma elems_le_elems (s t : ElemSet) : elems s ≤ elems t ↔ s ≤ t := by
  constructor
  · exact fun h i hi => h (.elem i) hi
  · intro h d hd
    obtain ⟨i, rfl, hi⟩ := mem_elems.mp hd
    exact h i hi

lemma exists_mem {a : Value} (h : a.isEmpty = false) : ∃ d, d ∈ a := by
  rw [isEmpty, beq_eq_false_iff_ne] at h
  cases a with
  | bools s =>
    have hmem : false ∈ s ∨ true ∈ s := by
      by_contra hnot
      rw [not_or] at hnot
      simp only [BoolSet.mem_iff, BoolSet.contains, Bool.not_eq_true] at hnot
      exact h (by simp [size, BoolSet.size, hnot])
    rcases hmem with hb | hb
    · exact ⟨.bool false, hb⟩
    · exact ⟨.bool true, hb⟩
  | ints i =>
    cases i with
    | empty => exact absurd rfl h
    | range l r le => exact ⟨.int l.toInt, Interval.spans_low l r le⟩
  | elems s =>
    rw [size, ElemSet.size_eq_length] at h
    obtain ⟨i, hi⟩ := List.exists_mem_of_length_pos (Nat.pos_of_ne_zero h)
    exact ⟨.elem i, (ElemSet.mem_toList s i).mp hi⟩

lemma isEmpty_eq_false_of_le {a b : Value} (h : a ≤ b) (ha : a.isEmpty = false) :
    b.isEmpty = false := by
  obtain ⟨d, hd⟩ := exists_mem ha
  exact isEmpty_eq_false (h d hd)

end Value

namespace Domain

variable {dom : Domain} {a b c k : Value}

lemma le_eq_true_iff (ha : dom.accepts a = true) (hb : dom.accepts b = true) :
    dom.le a b = .ok true ↔ a ≤ b := by
  cases dom with
  | bool =>
    obtain ⟨s, rfl⟩ := accepts_bool.mp ha
    obtain ⟨t, rfl⟩ := accepts_bool.mp hb
    rw [Value.bools_le_bools, ← BoolSet.subset_eq_true_iff]
    exact ⟨Except.ok.inj, congrArg Except.ok⟩
  | int r =>
    obtain ⟨i, rfl⟩ := accepts_int.mp ha
    obtain ⟨j, rfl⟩ := accepts_int.mp hb
    rw [Value.ints_le_ints, ← Interval.subset_eq_true_iff]
    exact ⟨Except.ok.inj, congrArg Except.ok⟩
  | finite e =>
    obtain ⟨s, rfl⟩ := accepts_finite.mp ha
    obtain ⟨t, rfl⟩ := accepts_finite.mp hb
    rw [Value.elems_le_elems, ← ElemSet.subset_eq_true_iff]
    exact ⟨Except.ok.inj, congrArg Except.ok⟩

lemma eq_of_le_of_le (ha : dom.accepts a = true) (hb : dom.accepts b = true) (h : a ≤ b)
    (h' : b ≤ a) : a = b := by
  cases dom with
  | bool =>
    obtain ⟨s, rfl⟩ := accepts_bool.mp ha
    obtain ⟨t, rfl⟩ := accepts_bool.mp hb
    rw [Value.bools_le_bools] at h h'
    rw [le_antisymm h h']
  | int r =>
    obtain ⟨i, rfl⟩ := accepts_int.mp ha
    obtain ⟨j, rfl⟩ := accepts_int.mp hb
    rw [Value.ints_le_ints] at h h'
    rw [le_antisymm h h']
  | finite e =>
    obtain ⟨s, rfl⟩ := accepts_finite.mp ha
    obtain ⟨t, rfl⟩ := accepts_finite.mp hb
    rw [Value.elems_le_elems] at h h'
    rw [le_antisymm h h']

lemma join_le_iff (ha : dom.accepts a = true) (hb : dom.accepts b = true)
    (hk : dom.accepts k = true) (h : dom.join a b = .ok c) : c ≤ k ↔ a ≤ k ∧ b ≤ k := by
  cases dom with
  | bool =>
    obtain ⟨s, rfl⟩ := accepts_bool.mp ha
    obtain ⟨t, rfl⟩ := accepts_bool.mp hb
    obtain ⟨u, rfl⟩ := accepts_bool.mp hk
    obtain rfl := Except.ok.inj h
    simp only [Value.bools_le_bools]
    exact BoolSet.union_le_iff s t u
  | int r =>
    obtain ⟨i, rfl⟩ := accepts_int.mp ha
    obtain ⟨j, rfl⟩ := accepts_int.mp hb
    obtain ⟨l, rfl⟩ := accepts_int.mp hk
    obtain rfl := Except.ok.inj h
    simp only [Value.ints_le_ints]
    exact Interval.join_le_iff i j l
  | finite e =>
    obtain ⟨s, rfl⟩ := accepts_finite.mp ha
    obtain ⟨t, rfl⟩ := accepts_finite.mp hb
    obtain ⟨u, rfl⟩ := accepts_finite.mp hk
    obtain rfl := Except.ok.inj h
    simp only [Value.elems_le_elems]
    exact ElemSet.union_le_iff s t u

lemma accepts_of_dispatch {β : Type} {f : {α : Type} → (α → Value) → LatticeOps α → α → α → β}
    {result : β} (h : dom.dispatch a b f = .ok result) :
    dom.accepts a = true ∧ dom.accepts b = true := by
  unfold dispatch at h
  split at h
  · exact ⟨rfl, rfl⟩
  · exact ⟨rfl, rfl⟩
  · exact ⟨rfl, rfl⟩
  · cases h

lemma meet_le (h : dom.meet a b = .ok c) : c ≤ a := by
  obtain ⟨ha, hb⟩ := accepts_of_dispatch h
  obtain ⟨c', hc', _, hmem⟩ := meet_spec ha hb
  obtain rfl := Except.ok.inj (h.symm.trans hc')
  exact fun d hd => ((hmem d).mp hd).1

lemma widen_le_top (ha : dom.accepts a = true) (hb : dom.accepts b = true) (hatop : a ≤ dom.top)
    (hbtop : b ≤ dom.top) (h : dom.widen a b = .ok c) : c ≤ dom.top := by
  cases dom with
  | bool =>
    obtain ⟨s, rfl⟩ := accepts_bool.mp ha
    obtain ⟨t, rfl⟩ := accepts_bool.mp hb
    exact (join_le_iff ha hb (accepts_top .bool) h).mpr ⟨hatop, hbtop⟩
  | int r =>
    obtain ⟨i, rfl⟩ := accepts_int.mp ha
    obtain ⟨j, rfl⟩ := accepts_int.mp hb
    obtain rfl := Except.ok.inj h
    rw [top, Value.ints_le_ints] at hatop hbtop ⊢
    exact Range.widen_le_top hatop hbtop
  | finite e =>
    obtain ⟨s, rfl⟩ := accepts_finite.mp ha
    obtain ⟨t, rfl⟩ := accepts_finite.mp hb
    exact (join_le_iff ha hb (accepts_top (.finite e)) h).mpr ⟨hatop, hbtop⟩

end Domain

namespace Env

instance : Preorder Env where
  le env other := ∀ v a, env.get? v = some a → ∃ b, other.get? v = some b ∧ a ≤ b
  le_refl _ _ a ha := ⟨a, ha, le_rfl⟩
  le_trans _ _ _ h h' v a ha := by
    obtain ⟨b, hb, hab⟩ := h v a ha
    obtain ⟨c, hc, hbc⟩ := h' v b hb
    exact ⟨c, hc, hab.trans hbc⟩

def InRange (env : Env) (m : Model) : Prop :=
  ∀ v a dom, env.get? v = some a → m.varDomain? v = some dom → a ≤ dom.top

variable {m : Model} {env other r : Env}

lemma eq_of_le_of_le (henv : env.Typed m) (hother : other.Typed m) (h : env ≤ other)
    (h' : other ≤ env) : env = other := by
  have hsame : env.SameVars other := by
    intro v
    rw [Bool.eq_iff_iff, Option.isSome_iff_exists, Option.isSome_iff_exists]
    constructor
    · rintro ⟨a, ha⟩
      obtain ⟨b, hb, _⟩ := h v a ha
      exact ⟨b, hb⟩
    · rintro ⟨b, hb⟩
      obtain ⟨a, ha, _⟩ := h' v b hb
      exact ⟨a, ha⟩
  apply hsame.eq
  intro v a b ha hb
  obtain ⟨b', hb', hab⟩ := h v a ha
  obtain ⟨a', ha', hba⟩ := h' v b hb
  obtain rfl := Option.some.inj (hb.symm.trans hb')
  obtain rfl := Option.some.inj (ha.symm.trans ha')
  obtain ⟨dom, hdom, hacca⟩ := henv v a ha
  obtain ⟨dom', hdom', haccb⟩ := hother v b hb
  obtain rfl := Option.some.inj (hdom.symm.trans hdom')
  exact Domain.eq_of_le_of_le hacca haccb hab hba

lemma set_le_set (h : env ≤ other) {v : VarId} {a b : Value} (hab : a ≤ b) :
    env.set v a ≤ other.set v b := by
  intro w c hc
  rw [get?_set] at hc ⊢
  split at hc
  · obtain rfl := Option.some.inj hc
    exact ⟨b, by rw [if_pos ‹_›], hab⟩
  · rw [if_neg ‹_›]
    exact h w c hc

lemma set_le {v : VarId} {a b : Value} (hb : env.get? v = some b) (hab : a ≤ b) :
    env.set v a ≤ env := by
  intro w c hc
  rw [get?_set] at hc
  split at hc
  · rename_i hw
    obtain rfl := Option.some.inj hc
    exact ⟨b, hw ▸ hb, hab⟩
  · exact ⟨c, hc, le_rfl⟩

def included (m : Model) (v : VarId) (a : Value) (found : Option Value) : Except Fault Bool :=
  match found, m.varDomain? v with
  | some b, some dom => dom.le a b
  | some b, none => .ok (a == b)
  | none, _ => .ok a.isEmpty

lemma included_of_tracked {v : VarId} {dom : Domain} (hdom : m.varDomain? v = some dom)
    (a b : Value) : included m v a (some b) = dom.le a b := by
  simp only [included, hdom]

lemma le_eq_true_iff_included : env.le other m = .ok true ↔
    ∀ v a, env.get? v = some a → included m v a (other.get? v) = .ok true := by
  have heq : env.le other m = env.toList.allM fun p => included m p.1 p.2 (other.get? p.1) := rfl
  rw [heq]
  constructor
  · intro h v a ha
    exact of_allM_eq_true h (v, a) ((mem_toList env v a).mpr ha)
  · intro h
    apply allM_eq_true
    rintro ⟨v, a⟩ hva
    exact h v a ((mem_toList env v a).mp hva)

lemma le_eq_true_iff (henv : env.Typed m) (hother : other.Typed m) (hvars : env.SameVars other) :
    env.le other m = .ok true ↔ env ≤ other := by
  rw [le_eq_true_iff_included]
  refine forall₃_congr fun v a ha => ?_
  obtain ⟨b, hb⟩ := hvars.symm.get? ha
  obtain ⟨dom, hdom, hacca⟩ := henv v a ha
  obtain ⟨dom', hdom', haccb⟩ := hother v b hb
  obtain rfl := Option.some.inj (hdom.symm.trans hdom')
  rw [hb, included_of_tracked hdom, Domain.le_eq_true_iff hacca haccb]
  simp

lemma join_le_iff {k : Env} (henv : env.Typed m) (hother : other.Typed m)
    (hvars : env.SameVars other) (hk : k.Typed m) (h : env.join other m = .ok r) :
    r ≤ k ↔ env ≤ k ∧ other ≤ k := by
  obtain ⟨r', hr', hsame, hspec⟩ := combine_spec
    (Q := fun d a b c => d.accepts a = true ∧ d.accepts b = true ∧ d.accepts c = true) henv hother
    hvars fun d a b ha hb => (Domain.join_spec ha hb).imp fun c hc => ⟨hc.1, ha, hb, hc.2.1⟩
  obtain rfl := Except.ok.inj (h.symm.trans hr')
  have hbound : ∀ v c, r.get? v = some c → ∃ a b, env.get? v = some a ∧ other.get? v = some b ∧
      a ≤ c ∧ b ≤ c ∧ ∀ u, k.get? v = some u → a ≤ u → b ≤ u → c ≤ u := by
    intro v c hc
    obtain ⟨d, a, b, hd, ha, hb, hjoin, hacca, haccb, haccc⟩ := hspec v c hc
    obtain ⟨hac, hbc⟩ := (Domain.join_le_iff hacca haccb haccc hjoin).mp le_rfl
    refine ⟨a, b, ha, hb, hac, hbc, fun u hu hau hbu => ?_⟩
    obtain ⟨d', hd', haccu⟩ := hk v u hu
    obtain rfl := Option.some.inj (hd.symm.trans hd')
    exact (Domain.join_le_iff hacca haccb haccu hjoin).mpr ⟨hau, hbu⟩
  constructor
  · intro hle
    constructor
    · intro v a ha
      obtain ⟨c, hc⟩ := hsame.symm.get? ha
      obtain ⟨a', b, ha', _, hac, _⟩ := hbound v c hc
      obtain rfl := Option.some.inj (ha.symm.trans ha')
      obtain ⟨u, hu, hcu⟩ := hle v c hc
      exact ⟨u, hu, hac.trans hcu⟩
    · intro v b hb
      obtain ⟨c, hc⟩ := (hvars.symm.trans hsame).symm.get? hb
      obtain ⟨a, b', _, hb', _, hbc, _⟩ := hbound v c hc
      obtain rfl := Option.some.inj (hb.symm.trans hb')
      obtain ⟨u, hu, hcu⟩ := hle v c hc
      exact ⟨u, hu, hbc.trans hcu⟩
  · rintro ⟨henvk, hotherk⟩ v c hc
    obtain ⟨a, b, ha, hb, _, _, hleast⟩ := hbound v c hc
    obtain ⟨u, hu, hau⟩ := henvk v a ha
    obtain ⟨u', hu', hbu⟩ := hotherk v b hb
    obtain rfl := Option.some.inj (hu.symm.trans hu')
    exact ⟨u, hu, hleast u hu hau hbu⟩

lemma le_widen (henv : env.Typed m) (hother : other.Typed m) (hvars : env.SameVars other)
    (h : env.widen other m = .ok r) : env ≤ r := by
  obtain ⟨r', hr', hsame, hspec⟩ := combine_spec henv hother hvars fun d a b => Domain.widen_spec
  obtain rfl := Except.ok.inj (h.symm.trans hr')
  intro v a ha
  obtain ⟨c, hc⟩ := hsame.symm.get? ha
  obtain ⟨_, a', b, _, ha', _, _, _, hmem, _⟩ := hspec v c hc
  obtain rfl := Option.some.inj (ha.symm.trans ha')
  exact ⟨c, hc, fun d hd => hmem d (Or.inl hd)⟩

namespace InRange

lemma mono (h : other.InRange m) (hle : env ≤ other) : env.InRange m := by
  intro v a dom ha hdom
  obtain ⟨b, hb, hab⟩ := hle v a ha
  exact hab.trans (h v b dom hb hdom)

lemma set (h : env.InRange m) {v : VarId} {a : Value} {dom : Domain}
    (hdom : m.varDomain? v = some dom) (ha : a ≤ dom.top) : (env.set v a).InRange m := by
  intro w b dom' hb hdom'
  rw [get?_set] at hb
  split at hb
  · rename_i hw
    obtain rfl := Option.some.inj hb
    subst hw
    obtain rfl := Option.some.inj (hdom.symm.trans hdom')
    exact ha
  · exact h w b dom' hb hdom'

lemma combine {f : Domain → Value → Value → Except Fault Value} (henv : env.Typed m)
    (hother : other.Typed m) (hvars : env.SameVars other)
    (hf : ∀ d a b, d.accepts a = true → d.accepts b = true →
      ∃ c, f d a b = .ok c ∧ (a ≤ d.top → b ≤ d.top → c ≤ d.top))
    (h : Env.combine f env other m = .ok r) (hin : env.InRange m) (hin' : other.InRange m) :
    r.InRange m := by
  obtain ⟨r', hr', _, hspec⟩ := combine_spec henv hother hvars hf
  obtain rfl := Except.ok.inj (h.symm.trans hr')
  intro v c dom hc hdom
  obtain ⟨d, a, b, hd, ha, hb, _, htop⟩ := hspec v c hc
  obtain rfl := Option.some.inj (hdom.symm.trans hd)
  exact htop (hin v a _ ha hdom) (hin' v b _ hb hdom)

lemma join (henv : env.Typed m) (hother : other.Typed m) (hvars : env.SameVars other)
    (h : env.join other m = .ok r) : env.InRange m → other.InRange m → r.InRange m := by
  refine combine henv hother hvars (fun d a b ha hb => ?_) h
  obtain ⟨c, hc, _⟩ := Domain.join_spec ha hb
  exact ⟨c, hc, fun hatop hbtop =>
    (Domain.join_le_iff ha hb (Domain.accepts_top d) hc).mpr ⟨hatop, hbtop⟩⟩

lemma widen (henv : env.Typed m) (hother : other.Typed m) (hvars : env.SameVars other)
    (h : env.widen other m = .ok r) : env.InRange m → other.InRange m → r.InRange m := by
  refine combine henv hother hvars (fun d a b ha hb => ?_) h
  obtain ⟨c, hc, _⟩ := Domain.widen_spec ha hb
  exact ⟨c, hc, fun hatop hbtop => Domain.widen_le_top ha hb hatop hbtop hc⟩

end InRange

end Env

end Tracewise
