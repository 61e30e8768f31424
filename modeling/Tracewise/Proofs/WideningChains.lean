import Mathlib.Data.Set.Card
import Tracewise.Proofs.IndexSets

/-! Chains of widenings. Each change of a value takes up some of the slack below the top, so their
number is bounded whatever the chain is widened by. -/

namespace Tracewise

open Fallible

lemma encard_changes_le {α : Type} (x : ℕ → α) (slack : α → ℕ)
    (h : ∀ n, x (n + 1) = x n ∨ slack (x (n + 1)) < slack (x n)) :
    {n | x (n + 1) ≠ x n}.encard ≤ slack (x 0) := by
  have hanti : Antitone fun n => slack (x n) := by
    apply antitone_nat_of_succ_le
    intro n
    rcases h n with heq | hlt
    · exact (congrArg slack heq).le
    · exact hlt.le
  have hdrop : ∀ n, x (n + 1) ≠ x n → ∀ k > n, slack (x k) < slack (x n) := by
    intro n hn k hk
    exact (hanti hk).trans_lt ((h n).resolve_left hn)
  -- where the chain changes, the slack before the change takes each positive value at most once
  have hmaps : Set.MapsTo (fun n => slack (x n)) {n | x (n + 1) ≠ x n}
      (Finset.Ioc 0 (slack (x 0))) := by
    intro n hn
    rw [Finset.mem_coe, Finset.mem_Ioc]
    exact ⟨Nat.zero_lt_of_lt (hdrop n hn (n + 1) n.lt_succ_self), hanti n.zero_le⟩
  have hinj : Set.InjOn (fun n => slack (x n)) {n | x (n + 1) ≠ x n} := by
    intro n hn k hk heq
    rcases lt_trichotomy n k with hlt | rfl | hlt
    · exact absurd heq (hdrop n hn k hlt).ne'
    · rfl
    · exact absurd heq (hdrop k hk n hlt).ne
  calc {n | x (n + 1) ≠ x n}.encard
      ≤ (Finset.Ioc 0 (slack (x 0)) : Set ℕ).encard := Set.encard_le_encard_of_injOn hmaps hinj
    _ = slack (x 0) := by rw [Set.encard_coe_eq_coe_finsetCard, Nat.card_Ioc, Nat.sub_zero]

namespace BoolSet

lemma size_le_two (s : BoolSet) : s.size ≤ 2 := by
  have hfalse := Bool.toNat_le s.hasFalse
  have htrue := Bool.toNat_le s.hasTrue
  rw [size]
  omega

lemma size_lt_union {s t : BoolSet} (h : s.union t ≠ s) : s.size < (s.union t).size := by
  obtain ⟨f, b⟩ := s
  obtain ⟨g, c⟩ := t
  cases f <;> cases b <;> cases g <;> cases c <;> simp_all [union, size]

end BoolSet

namespace ElemSet

lemma size_lt_union {s t : ElemSet} (h : s.union t ≠ s) : s.size < (s.union t).size := by
  rw [size_eq_card, size_eq_card]
  apply Finset.card_lt_card
  rw [indices_union, Finset.ssubset_iff_subset_ne]
  refine ⟨Finset.subset_union_left, fun heq => h (indices_injective ?_)⟩
  rw [indices_union, ← heq]

lemma size_le_length {e : Enumeration} {s : ElemSet} (h : s ≤ e.top) :
    s.size ≤ e.literals.length := by
  rw [size_eq_card, ← Finset.card_range e.literals.length]
  apply Finset.card_le_card
  intro i hi
  rw [Finset.mem_range, ← mem_full e.fits]
  exact h i (mem_indices.mp hi)

end ElemSet

namespace Range

variable {r : Range} {i j : Interval}

/-- The changes that an interval can still make: it may get bounds, and each bound may go to its
limit. -/
def slack (r : Range) : Interval → ℕ
  | .empty => 3
  | .range l h _ => (if l = r.min then 0 else 1) + if h = r.max then 0 else 1

lemma slack_range_le (l h : Int64) (le : l ≤ h) : r.slack (.range l h le) ≤ 2 := by
  rw [slack]
  split <;> split <;> omega

lemma widen_slack (hj : j ≤ r.top) : r.widen i j = i ∨ r.slack (r.widen i j) < r.slack i := by
  cases i with
  | empty =>
    cases j with
    | empty => exact Or.inl rfl
    | range l h le => exact Or.inr (Nat.lt_succ_of_le (slack_range_le l h le))
  | range l₁ h₁ le₁ =>
    cases j with
    | empty => exact Or.inl rfl
    | range l₂ h₂ le₂ =>
      have hr := r.le
      rw [← Interval.subset_eq_true_iff] at hj
      simp only [top, Interval.between, hr, dif_pos, Interval.subset, Bool.and_eq_true,
        decide_eq_true_eq] at hj
      rw [widen]
      generalize hl : (if l₂ < l₁ then Min.min r.min l₂ else l₁) = l
      generalize hh : (if h₁ < h₂ then Max.max r.max h₂ else h₁) = h
      have hlow : l = l₁ ∨ l = r.min ∧ l₁ ≠ r.min := by grind
      have hhigh : h = h₁ ∨ h = r.max ∧ h₁ ≠ r.max := by grind
      have hle : l ≤ h := by grind
      rw [Interval.between, dif_pos hle]
      rcases hlow with rfl | ⟨rfl, hlow⟩
      · rcases hhigh with rfl | ⟨rfl, hhigh⟩
        · exact Or.inl rfl
        · exact Or.inr (by simp [slack, hhigh])
      · rcases hhigh with rfl | ⟨rfl, hhigh⟩
        · exact Or.inr (by simp [slack, hlow])
        · exact Or.inr (by simp [slack, hlow, hhigh])

end Range

namespace Domain

/-- The changes that a value below the top can still make. -/
def slack : Domain → Value → ℕ
  | bool, .bools s => 2 - s.size
  | int r, .ints i => r.slack i
  | finite e, .elems s => e.literals.length - s.size
  | _, _ => 0

def changeLimit : Domain → Value → ℕ
  | bool, _ => 2
  | int _, a => if a.isEmpty then 3 else 2
  | finite e, _ => e.literals.length

variable {dom : Domain} {a b c : Value}

lemma slack_le_changeLimit (ha : dom.accepts a = true) : dom.slack a ≤ dom.changeLimit a := by
  cases dom with
  | bool =>
    obtain ⟨s, rfl⟩ := accepts_bool.mp ha
    exact Nat.sub_le 2 _
  | int r =>
    obtain ⟨i, rfl⟩ := accepts_int.mp ha
    cases i with
    | empty => exact le_rfl
    | range l h le =>
      have hempty : (Value.ints (.range l h le)).isEmpty = false :=
        Value.isEmpty_eq_false (d := .int l.toInt) (Interval.spans_low l h le)
      rw [changeLimit, hempty]
      exact Range.slack_range_le l h le
  | finite e =>
    obtain ⟨s, rfl⟩ := accepts_finite.mp ha
    exact Nat.sub_le _ _

lemma widen_slack (ha : dom.accepts a = true) (hb : dom.accepts b = true) (hatop : a ≤ dom.top)
    (hbtop : b ≤ dom.top) (h : dom.widen a b = .ok c) : c = a ∨ dom.slack c < dom.slack a := by
  have hctop := widen_le_top ha hb hatop hbtop h
  cases dom with
  | bool =>
    obtain ⟨s, rfl⟩ := accepts_bool.mp ha
    obtain ⟨t, rfl⟩ := accepts_bool.mp hb
    obtain rfl := Except.ok.inj h
    by_cases heq : s.union t = s
    · exact Or.inl (congrArg Value.bools heq)
    · have hlt := BoolSet.size_lt_union heq
      exact Or.inr (Nat.sub_lt_sub_left (hlt.trans_le (s.union t).size_le_two) hlt)
  | int r =>
    obtain ⟨i, rfl⟩ := accepts_int.mp ha
    obtain ⟨j, rfl⟩ := accepts_int.mp hb
    obtain rfl := Except.ok.inj h
    rw [top, Value.ints_le_ints] at hbtop
    exact (Range.widen_slack hbtop).imp_left (congrArg Value.ints)
  | finite e =>
    obtain ⟨s, rfl⟩ := accepts_finite.mp ha
    obtain ⟨t, rfl⟩ := accepts_finite.mp hb
    obtain rfl := Except.ok.inj h
    rw [top, Value.elems_le_elems] at hctop
    by_cases heq : s.union t = s
    · exact Or.inl (congrArg Value.elems heq)
    · have hlt := ElemSet.size_lt_union heq
      exact Or.inr (Nat.sub_lt_sub_left (hlt.trans_le (ElemSet.size_le_length hctop)) hlt)

def widenings (dom : Domain) (a : Value) (y : ℕ → Value) : ℕ → Except Fault Value
  | 0 => .ok a
  | n + 1 => do dom.widen (← dom.widenings a y n) (y n)

lemma le_top_iff : dom.le a dom.top = .ok true ↔ dom.accepts a = true ∧ a ≤ dom.top := by
  constructor
  · intro h
    obtain ⟨ha, htop⟩ := accepts_of_dispatch h
    exact ⟨ha, (le_eq_true_iff ha htop).mp h⟩
  · rintro ⟨ha, hle⟩
    exact (le_eq_true_iff ha (accepts_top dom)).mpr hle

lemma exists_widenings {y : ℕ → Value} (ha : dom.le a dom.top = .ok true)
    (hy : ∀ n, dom.le (y n) dom.top = .ok true) (n : ℕ) :
    ∃ c, dom.widenings a y n = .ok c ∧ dom.le c dom.top = .ok true := by
  induction n with
  | zero => exact ⟨a, rfl, ha⟩
  | succ n ih =>
    obtain ⟨b, hb, hbtop⟩ := ih
    obtain ⟨haccb, hbtop⟩ := le_top_iff.mp hbtop
    obtain ⟨haccy, hytop⟩ := le_top_iff.mp (hy n)
    obtain ⟨c, hc, haccc, _⟩ := widen_spec haccb haccy
    refine ⟨c, ?_, le_top_iff.mpr ⟨haccc, widen_le_top haccb haccy hbtop hytop hc⟩⟩
    rw [widenings, hb, ok_bind, hc]

theorem widening_chain_settles {x₀ : Value} {y : ℕ → Value} (hx₀ : dom.le x₀ dom.top = .ok true)
    (hy : ∀ n, dom.le (y n) dom.top = .ok true) :
    ∃ x : ℕ → Value, (∀ n, dom.widenings x₀ y n = .ok (x n)) ∧
      (∀ n, dom.le (x n) dom.top = .ok true) ∧
      {n | x (n + 1) ≠ x n}.encard ≤ dom.changeLimit x₀ := by
  choose x hx hxtop using exists_widenings hx₀ hy
  refine ⟨x, hx, hxtop, ?_⟩
  obtain rfl : x₀ = x 0 := Except.ok.inj (hx 0)
  have hchange : ∀ n, x (n + 1) = x n ∨ dom.slack (x (n + 1)) < dom.slack (x n) := by
    intro n
    obtain ⟨haccx, hxtop⟩ := le_top_iff.mp (hxtop n)
    obtain ⟨haccy, hytop⟩ := le_top_iff.mp (hy n)
    refine widen_slack haccx haccy hxtop hytop ?_
    rw [← hx (n + 1), widenings, hx n, ok_bind]
  have hlimit := slack_le_changeLimit (le_top_iff.mp hx₀).1
  exact (encard_changes_le x dom.slack hchange).trans (Nat.cast_le.mpr hlimit)

def swings : ℕ → Value
  | 0 => .ints (.constant 3)
  | 1 => .ints (.between 3 5)
  | _ => .ints (.constant 1)

theorem swings_settle :
    ∃ x : ℕ → Value, x 0 = .ints .empty ∧ x 1 = .ints (.constant 3) ∧ x 2 = .ints (.between 3 7) ∧
      x 3 = .ints (.between 0 7) ∧
      (∀ n, (int ⟨0, 7, by decide⟩).le (x n) (.ints (.between 0 7)) = .ok true) ∧
      {n | x (n + 1) ≠ x n}.encard ≤ 3 := by
  let digit : Domain := int ⟨0, 7, by decide⟩
  have hempty : digit.le (.ints .empty) digit.top = .ok true := rfl
  have hswings : ∀ n, digit.le (swings n) digit.top = .ok true := by
    intro n
    cases n with
    | zero => rfl
    | succ n => cases n <;> rfl
  obtain ⟨x, hx, hxtop, hchanges⟩ := widening_chain_settles hempty hswings
  exact ⟨x, (Except.ok.inj (hx 0)).symm, (Except.ok.inj (hx 1)).symm, (Except.ok.inj (hx 2)).symm,
    (Except.ok.inj (hx 3)).symm, hxtop, hchanges⟩

end Domain

end Tracewise
