import Mathlib.Tactic
import Tracewise.Text

namespace Tracewise.Text.Numeral

def IsMagnitude : List Char → Prop
  | [] => False
  | d :: cs => d.isDigit = true ∧ ∀ c ∈ cs, c.isDigit = true ∨ c = '_'

def value (cs : List Char) : Nat := Nat.ofDigitChars 10 (cs.filter (· != '_')) 0

inductive Reads : List Char → Int → Prop
  | unsigned {cs : List Char} : IsMagnitude cs → Reads cs (value cs)
  | plus {cs : List Char} : IsMagnitude cs → Reads ('+' :: cs) (value cs)
  | minus {cs : List Char} : IsMagnitude cs → Reads ('-' :: cs) (-value cs)

lemma accumulate_eq (acc : Nat) (cs : List Char) :
    accumulate acc cs = Nat.ofDigitChars 10 (cs.filter (· != '_')) acc := by
  induction cs generalizing acc with
  | nil => rfl
  | cons c cs ih =>
    by_cases hc : c = '_'
    · simpa [accumulate, hc] using ih acc
    · simpa [accumulate, hc, Nat.ofDigitChars, digitValue] using ih (10 * acc + digitValue c)

lemma magnitude?_eq_some_iff {cs : List Char} {n : Nat} :
    magnitude? cs = some n ↔ IsMagnitude cs ∧ value cs = n := by
  cases cs with
  | nil => simp [magnitude?, IsMagnitude]
  | cons d cs =>
    have hall : cs.all isSeparatedDigit = true ↔ ∀ c ∈ cs, c.isDigit = true ∨ c = '_' := by
      simp [isSeparatedDigit]
    by_cases hd : d.isDigit = true
    · have hne : d ≠ '_' := by
        rintro rfl
        cases hd
      have hvalue : accumulate (digitValue d) cs = value (d :: cs) := by
        simp [accumulate_eq, value, hne, Nat.ofDigitChars, digitValue]
      simp [magnitude?, IsMagnitude, hd, ← hall, hvalue]
    · simp [magnitude?, IsMagnitude, hd]

lemma map_magnitude?_eq_some_iff {cs : List Char} {f : Nat → Int} {n : Int} :
    (magnitude? cs).map f = some n ↔ IsMagnitude cs ∧ f (value cs) = n := by
  simp only [Option.map_eq_some_iff, magnitude?_eq_some_iff, and_assoc, exists_and_left,
    exists_eq_left']

lemma parseChars?_minus (cs : List Char) :
    parseChars? ('-' :: cs) = (magnitude? cs).map fun n : Nat => -(n : Int) := by
  rw [parseChars?]
  cases magnitude? cs <;> rfl

lemma parseChars?_unsigned {cs : List Char} (hminus : ∀ ds, cs ≠ '-' :: ds)
    (hplus : ∀ ds, cs ≠ '+' :: ds) : parseChars? cs = (magnitude? cs).map Int.ofNat := by
  rw [parseChars?]
  · exact hminus
  · exact hplus

lemma parseChars?_eq_some_iff {cs : List Char} {n : Int} :
    parseChars? cs = some n ↔ Reads cs n := by
  constructor
  · intro h
    fun_cases parseChars? cs with
    | case1 cs =>
      rw [parseChars?_minus, map_magnitude?_eq_some_iff] at h
      obtain ⟨hcs, rfl⟩ := h
      exact .minus hcs
    | case2 cs =>
      obtain ⟨hcs, rfl⟩ := map_magnitude?_eq_some_iff.mp h
      exact .plus hcs
    | case3 cs hminus hplus =>
      rw [parseChars?_unsigned hminus hplus, map_magnitude?_eq_some_iff] at h
      obtain ⟨hcs, rfl⟩ := h
      exact .unsigned hcs
  · intro h
    cases h with
    | unsigned hcs =>
      have hsign {c : Char} (hc : c.isDigit = false) (ds : List Char) : cs ≠ c :: ds := by
        rintro rfl
        rw [hcs.1] at hc
        cases hc
      rw [parseChars?_unsigned (hsign rfl) (hsign rfl)]
      exact map_magnitude?_eq_some_iff.mpr ⟨hcs, rfl⟩
    | plus hcs => exact map_magnitude?_eq_some_iff.mpr ⟨hcs, rfl⟩
    | minus hcs =>
      rw [parseChars?_minus]
      exact map_magnitude?_eq_some_iff.mpr ⟨hcs, rfl⟩

lemma parse?_eq_some_iff {s : String} {n : Int} : parse? s = some n ↔ Reads s.toList n :=
  parseChars?_eq_some_iff

lemma isDigit_of_mem_toDigits {n : Nat} {c : Char} (hc : c ∈ Nat.toDigits 10 n) :
    c.isDigit = true :=
  Nat.isDigit_of_mem_toDigits (by decide) le_rfl hc

lemma isMagnitude_toDigits (n : Nat) : IsMagnitude (Nat.toDigits 10 n) := by
  have hdigits (c : Char) (hc : c ∈ Nat.toDigits 10 n) := isDigit_of_mem_toDigits hc
  cases h : Nat.toDigits 10 n with
  | nil => exact Nat.toDigits_ne_nil h
  | cons d cs =>
    simp only [h, List.mem_cons, forall_eq_or_imp] at hdigits
    exact ⟨hdigits.1, fun c hc => Or.inl (hdigits.2 c hc)⟩

lemma value_toDigits (n : Nat) : value (Nat.toDigits 10 n) = n := by
  have hfilter : (Nat.toDigits 10 n).filter (· != '_') = Nat.toDigits 10 n := by
    apply List.filter_eq_self.mpr
    intro c hc
    rw [bne_iff_ne]
    rintro rfl
    cases isDigit_of_mem_toDigits hc
  rw [value, hfilter, Nat.ofDigitChars_toDigits (by decide) le_rfl]

lemma reads_toString (n : Int) : Reads (toString n).toList n := by
  rw [Int.toString_eq_repr, Int.repr_eq_if]
  split
  · rename_i hn
    have hreads := Reads.unsigned (isMagnitude_toDigits n.toNat)
    rwa [value_toDigits, Int.toNat_of_nonneg hn, ← Nat.toList_repr] at hreads
  · rename_i hn
    have hreads := Reads.minus (isMagnitude_toDigits (-n).toNat)
    rw [value_toDigits, Int.toNat_of_nonneg (by omega), Int.neg_neg] at hreads
    simpa using hreads

lemma parse?_toString (n : Int) : parse? (toString n) = some n :=
  parse?_eq_some_iff.mpr (reads_toString n)

end Tracewise.Text.Numeral
