import Tracewise.Proofs.ConstantValues
import Tracewise.Proofs.Numerals

namespace Tracewise

namespace Constant

lemma eq_of_parse_eq_symbol {t s : String} (h : parse t = symbol s) : s = t := by
  unfold parse at h
  split_ifs at h
  cases hn : Text.Numeral.parse? t with
  | none => simpa [hn] using h.symm
  | some n => simp [hn] at h

lemma parse_text_parse (t : String) : parse (parse t).text = parse t := by
  cases h : parse t with
  | int n => exact parse_eq_int_iff.mpr (Text.Numeral.parse?_toString n)
  | bool b => cases b <;> rfl
  | symbol s =>
    obtain rfl := eq_of_parse_eq_symbol h
    exact h

end Constant

namespace Interpretation

lemma int_literal?_eq_some_iff {range : Range} {t : String} {v : Value} :
    (int range).literal? t = some v ↔
      ∃ n : Int, Constant.parse t = .int n ∧ range.min.toInt ≤ n ∧ n ≤ range.max.toInt ∧
        v = .ints (.constant (.ofInt n)) ∧ v.Only (.int n) := by
  have hliteral : (int range).literal? t = intLiteral? range t := rfl
  rw [hliteral, intLiteral?_eq_some_iff]
  constructor
  · rintro ⟨w, hparse, hmin, hmax, rfl⟩
    refine ⟨w.toInt, hparse, Int64.le_iff_toInt_le.mp hmin, Int64.le_iff_toInt_le.mp hmax, ?_,
      only_constant w⟩
    rw [Int64.ofInt_toInt]
  · rintro ⟨n, hparse, hmin, hmax, rfl, -⟩
    have hword : (Int64.ofInt n).toInt = n := by
      have hlow := range.min.le_toInt
      have hhigh := range.max.toInt_lt
      exact Int64.toInt_ofInt_of_le (by omega) (by omega)
    refine ⟨.ofInt n, by rw [hword, hparse], ?_, ?_, rfl⟩
    · rwa [Int64.le_iff_toInt_le, hword]
    · rwa [Int64.le_iff_toInt_le, hword]

end Interpretation

theorem Constant.literals_read_alike :
    (∀ (t : String) (n : Int), Text.Numeral.parse? t = some n ↔ Text.Numeral.Reads t.toList n) ∧
      (∀ t : String, parse (parse t).text = parse t) ∧
      ∀ min max : Int64, min ≤ max → ∃ meaning, Interpreter.standard (.int min max) = some meaning ∧
        ∀ (t : String) (v : Value), meaning.literal? t = some v ↔
          ∃ n : Int, parse t = .int n ∧ min.toInt ≤ n ∧ n ≤ max.toInt ∧
            v = .ints (.constant (.ofInt n)) ∧ v.Only (.int n) := by
  refine ⟨fun t n => Text.Numeral.parse?_eq_some_iff, parse_text_parse, fun min max h => ?_⟩
  refine ⟨.int ⟨min, max, h⟩, dif_pos h, fun t v => ?_⟩
  exact Interpretation.int_literal?_eq_some_iff

theorem Constant.separated_literal_read :
    (-2000 : Int64) ≤ 0 ∧ ∃ meaning, Interpreter.standard (.int (-2000) 0) = some meaning ∧
      meaning.literal? "-01_000_" = some (.ints (.constant (-1000))) := by
  have hle : (-2000 : Int64) ≤ 0 := by decide
  obtain ⟨meaning, hmeaning, hliteral⟩ := literals_read_alike.2.2 (-2000) 0 hle
  have hword : (-1000 : Int64).toInt = -1000 := by decide
  refine ⟨hle, meaning, hmeaning, (hliteral _ _).mpr ⟨(-1000 : Int64).toInt, ?_, ?_, ?_, ?_, ?_⟩⟩
  · rw [hword]
    rfl
  · decide
  · decide
  · rw [Int64.ofInt_toInt]
  · exact only_constant (-1000)

end Tracewise
