import Tracewise.Proofs.Folding
import Tracewise.Typing

/-! Integer types between two constant expressions. A lower bound above every word bounds nothing,
and neither does an upper bound below every word. -/

namespace Tracewise

open FoldCache

namespace Saturating

lemma ofInt?_eq_none_iff {n : Int} :
    ofInt? n = none ↔ n < Int64.minValue.toInt ∨ Int64.maxValue.toInt < n := by
  unfold ofInt?
  split
  · simp only [reduceCtorEq, false_iff]
    omega
  · simp only [true_iff]
    omega

lemma toInt_lower (n : Int) :
    ((ofInt? n).getD Int64.minValue).toInt =
      if Int64.maxValue.toInt < n then Int64.minValue.toInt else nearest n := by
  cases hword : ofInt? n with
  | some w =>
    have hmax := w.toInt_le
    rw [← (ofInt?_eq_some_iff n w).mp hword, nearest_toInt, Option.getD_some, if_neg (by omega)]
  | none =>
    rw [Option.getD_none]
    split
    · rfl
    · rw [ofInt?_eq_none_iff] at hword
      unfold nearest
      rw [Int64.toInt_minValue] at *
      omega

lemma toInt_upper (n : Int) :
    ((ofInt? n).getD Int64.maxValue).toInt =
      if n < Int64.minValue.toInt then Int64.maxValue.toInt else nearest n := by
  cases hword : ofInt? n with
  | some w =>
    have hmin := w.minValue_le_toInt
    rw [← (ofInt?_eq_some_iff n w).mp hword, nearest_toInt, Option.getD_some, if_neg (by omega)]
  | none =>
    rw [Option.getD_none]
    split
    · rfl
    · rw [ofInt?_eq_none_iff] at hword
      unfold nearest
      rw [Int64.toInt_maxValue] at *
      omega

end Saturating

namespace SemType

variable {lo hi : Expr}

lemma intRange_eq (hids : Expr.Unambiguous (lo.nodes ++ hi.nodes)) :
    intRange lo hi = do
      let min ← lo.folded.toInt lo
      let max ← hi.folded.toInt hi
      return int ((Saturating.ofInt? min).getD Int64.minValue)
        ((Saturating.ofInt? max).getD Int64.maxValue) := by
  have hlo := Expr.gives_foldInt hids (List.subset_append_left lo.nodes hi.nodes)
  have hhi := Expr.gives_foldInt hids (List.subset_append_right lo.nodes hi.nodes)
  exact (hlo.bind_run (x := ExceptT.mk lo.foldInt) fun min =>
    hhi.bind_run (x := ExceptT.mk hi.foldInt) fun max =>
      gives_pure (.ok (int ((Saturating.ofInt? min).getD Int64.minValue)
        ((Saturating.ofInt? max).getD Int64.maxValue)))).answer

theorem intRange_clamped (hids : Expr.Unambiguous (lo.nodes ++ hi.nodes)) :
    (∀ a b, (lo.foldInt.run .empty).1 = .ok a → (hi.foldInt.run .empty).1 = .ok b →
      ∃ min max, intRange lo hi = .ok (int min max) ∧
        min.toInt = (if Int64.maxValue.toInt < a then Int64.minValue.toInt
          else Saturating.nearest a) ∧
        max.toInt = if b < Int64.minValue.toInt then Int64.maxValue.toInt
          else Saturating.nearest b) ∧
      (∀ err, (lo.foldInt.run .empty).1 = .error err → intRange lo hi = .error err) ∧
      ∀ a err, (lo.foldInt.run .empty).1 = .ok a → (hi.foldInt.run .empty).1 = .error err →
        intRange lo hi = .error err := by
  have hlo := Expr.gives_foldInt hids (List.subset_append_left lo.nodes hi.nodes)
  have hhi := Expr.gives_foldInt hids (List.subset_append_right lo.nodes hi.nodes)
  rw [hlo.answer, hhi.answer, intRange_eq hids]
  refine ⟨fun a b ha hb => ?_, fun err herr => ?_, fun a err ha herr => ?_⟩
  · rw [ha, hb]
    exact ⟨_, _, rfl, Saturating.toInt_lower a, Saturating.toInt_upper b⟩
  · rw [herr]
    rfl
  · rw [ha, herr]
    rfl

def quarter : Expr := .lit ⟨⟨0⟩, some "int"⟩ "4611686018427387904"

def farBelow : Expr := .unary ⟨⟨2⟩, none⟩ .neg (.binary ⟨⟨1⟩, none⟩ .mul quarter
  (.lit ⟨⟨3⟩, none⟩ "4"))

theorem intRange_farBelow :
    Expr.Unambiguous (farBelow.nodes ++ quarter.nodes) ∧
      (farBelow.foldInt.run .empty).1 = .ok (-18446744073709551616) ∧
      (quarter.foldInt.run .empty).1 = .ok 4611686018427387904 ∧
      ∃ min max, intRange farBelow quarter = .ok (int min max) ∧
        min.toInt = -9223372036854775808 ∧ max.toInt = 4611686018427387904 := by
  have hids : Expr.Unambiguous (farBelow.nodes ++ quarter.nodes) := by decide
  have hlo : (farBelow.foldInt.run .empty).1 = .ok (-18446744073709551616) := by decide
  have hhi : (quarter.foldInt.run .empty).1 = .ok 4611686018427387904 := by decide
  exact ⟨hids, hlo, hhi, (intRange_clamped hids).1 _ _ hlo hhi⟩

def above (id : UInt32) : Expr := .lit ⟨⟨id⟩, some "int"⟩ "9223372036854775808"

def below (id : UInt32) : Expr := .lit ⟨⟨id⟩, some "int"⟩ "-9223372036854775809"

theorem intRange_outside_unbounded :
    ((above 0).foldInt.run .empty).1 = .ok 9223372036854775808 ∧
      ((below 0).foldInt.run .empty).1 = .ok (-9223372036854775809) ∧
      intRange (above 0) (above 1) = .ok (int Int64.minValue Int64.maxValue) ∧
      intRange (below 0) (below 1) = .ok (int Int64.minValue Int64.maxValue) := by
  decide

end SemType

end Tracewise
