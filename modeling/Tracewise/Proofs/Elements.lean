import Mathlib.Tactic
import Tracewise.Lattice.Basic
import Tracewise.Lattice.Enumeration

namespace Tracewise

namespace BoolSet

lemma mem_iff (b : Bool) (s : BoolSet) : b ∈ s ↔ s.contains b = true := Iff.rfl

@[simp] lemma not_mem_empty (b : Bool) : b ∉ empty := by
  cases b <;> simp [mem_iff, contains, empty]

@[simp] lemma mem_both (b : Bool) : b ∈ both := by
  cases b <;> rfl

@[simp] lemma mem_singleton (a b : Bool) : b ∈ singleton a ↔ b = a := by
  cases a <;> cases b <;> simp [mem_iff, contains, singleton]

@[simp] lemma true_mem_ofFlags (t f : Bool) : true ∈ ofFlags t f ↔ t = true := Iff.rfl

@[simp] lemma false_mem_ofFlags (t f : Bool) : false ∈ ofFlags t f ↔ f = true := Iff.rfl

@[simp] lemma mem_union (s t : BoolSet) (b : Bool) : b ∈ s.union t ↔ b ∈ s ∨ b ∈ t := by
  cases b <;> simp [mem_iff, contains, union]

lemma union_self (s : BoolSet) : s.union s = s := by
  simp [union]

lemma union_absorb (s t : BoolSet) : (s.union t).union t = s.union t := by
  simp [union]

@[simp] lemma mem_inter (s t : BoolSet) (b : Bool) : b ∈ s.inter t ↔ b ∈ s ∧ b ∈ t := by
  cases b <;> simp [mem_iff, contains, inter]

@[simp] lemma mem_toList (s : BoolSet) (b : Bool) : b ∈ s.toList ↔ b ∈ s := by
  cases b <;> simp [toList, mem_iff]

lemma mem_foldl_union (bs : List Bool) (s : BoolSet) (b : Bool) :
    b ∈ bs.foldl (fun s b => s.union (singleton b)) s ↔ b ∈ s ∨ b ∈ bs := by
  induction bs generalizing s with
  | nil => simp
  | cons a bs ih => rw [List.foldl_cons, ih, mem_union, mem_singleton, List.mem_cons, or_assoc]

@[simp] lemma mem_ofList (bs : List Bool) (b : Bool) : b ∈ ofList bs ↔ b ∈ bs := by
  rw [ofList, mem_foldl_union]
  simp

@[simp] lemma mem_map (f : Bool → Bool) (s : BoolSet) (b : Bool) :
    b ∈ s.map f ↔ ∃ a, a ∈ s ∧ f a = b := by
  simp [map]

lemma isEmpty_eq_false {s : BoolSet} {b : Bool} (h : b ∈ s) : s.isEmpty = false := by
  cases b <;> simp_all [mem_iff, contains, isEmpty]

lemma exists_mem {s : BoolSet} (h : s.isEmpty = false) : ∃ b, b ∈ s := by
  simp only [isEmpty, Bool.and_eq_false_iff, Bool.not_eq_false'] at h
  rcases h with h | h
  · exact ⟨false, h⟩
  · exact ⟨true, h⟩

lemma size_pos {s : BoolSet} {b : Bool} (h : b ∈ s) : 0 < s.size := by
  cases b with
  | false => simp_all only [mem_iff, contains, size, Bool.toNat_true]; omega
  | true => simp_all only [mem_iff, contains, size, Bool.toNat_true]; omega

end BoolSet

namespace ElemSet

lemma mem_iff (i : Nat) (s : ElemSet) : i ∈ s ↔ s.mask.getLsbD i = true := by
  change (decide (i < maxLiterals) && s.mask &&& (1#64 <<< i) != 0#64) = true ↔ _
  by_cases hi : i < 64
  · have hbit : s.mask &&& (1#64 <<< i) = 0#64 ↔ s.mask.getLsbD i = false := by
      constructor
      · intro h
        have := congrArg (fun x => x.getLsbD i) h
        simpa [hi] using this
      · intro h
        apply BitVec.eq_of_getLsbD_eq
        intro j hj
        by_cases hji : j = i
        · subst hji
          simp [h]
        · have hk : j < i ∨ j - i ≠ 0 := by omega
          rcases hk with hk | hk <;> simp [hk]
    simp [maxLiterals, hi, hbit]
  · simp [maxLiterals, hi, BitVec.getLsbD_of_ge s.mask i (by omega)]

lemma lt_of_mem {i : Nat} {s : ElemSet} (h : i ∈ s) : i < maxLiterals := by
  rw [mem_iff] at h
  exact BitVec.lt_of_getLsbD h

lemma mem_singleton (i : Fin maxLiterals) (j : Nat) : j ∈ singleton i ↔ j = i := by
  have hi : i.val < 64 := i.isLt
  rw [mem_iff, singleton]
  by_cases hj : j < 64
  · by_cases hij : j < i.val
    · simp [hj, hij]
      omega
    · by_cases heq : j = i.val
      · simp [heq, hi]
      · have hsub : j - i.val ≠ 0 := by omega
        simp [hj, hij, hsub, heq]
  · simp [BitVec.getLsbD_of_ge _ j (by omega : 64 ≤ j)]
    omega

@[simp] lemma mem_union (s t : ElemSet) (i : Nat) : i ∈ s.union t ↔ i ∈ s ∨ i ∈ t := by
  simp [mem_iff, union]

lemma union_self (s : ElemSet) : s.union s = s := by
  simp [union]

lemma union_absorb (s t : ElemSet) : (s.union t).union t = s.union t := by
  simp [union, BitVec.or_assoc]

@[simp] lemma mem_inter (s t : ElemSet) (i : Nat) : i ∈ s.inter t ↔ i ∈ s ∧ i ∈ t := by
  simp [mem_iff, inter]

@[simp] lemma mem_diff (s t : ElemSet) (i : Nat) : i ∈ s.diff t ↔ i ∈ s ∧ i ∉ t := by
  by_cases hi : i < 64
  · simp [mem_iff, diff, hi]
  · simp [mem_iff, diff, BitVec.getLsbD_of_ge s.mask i (by omega)]

lemma mem_full {n i : Nat} (hn : n ≤ maxLiterals) : i ∈ full n ↔ i < n := by
  simp only [maxLiterals] at hn
  rw [mem_iff, full]
  split
  · rename_i h
    have hall : n = 64 := by simp only [maxLiterals] at h; omega
    rw [BitVec.getLsbD_allOnes, hall]
    simp
  · rename_i h
    simp only [maxLiterals, not_le] at h
    have hpow : 2 ^ n < 2 ^ 64 := Nat.pow_lt_pow_right (by omega) h
    have hpos : 0 < 2 ^ n := Nat.two_pow_pos n
    have hval : ((1#64 <<< n) - 1#64).toNat = 2 ^ n - 1 := by
      rw [BitVec.toNat_sub, BitVec.toNat_shiftLeft]
      simp only [BitVec.toNat_ofNat, Nat.one_mod_two_pow_eq_one.mpr (by omega : 0 < 64),
        Nat.shiftLeft_eq, one_mul, Nat.mod_eq_of_lt hpow]
      omega
    rw [BitVec.getLsbD, hval, Nat.testBit_two_pow_sub_one]
    simp

@[simp] lemma mem_toList (s : ElemSet) (i : Nat) : i ∈ s.toList ↔ i ∈ s := by
  simp only [toList, List.mem_filter, List.mem_range]
  exact ⟨fun h => h.2, fun h => ⟨lt_of_mem h, h⟩⟩

lemma cpopNatRec_eq_length (x : BitVec 64) (n : Nat) :
    x.cpopNatRec n 0 = ((List.range n).filter x.getLsbD).length := by
  induction n with
  | zero => rfl
  | succ n ih =>
    rw [BitVec.cpopNatRec_succ, BitVec.cpopNatRec_eq, ih, List.range_succ, List.filter_append,
      List.length_append]
    cases hb : x.getLsbD n <;> simp [hb]

lemma size_eq_length (s : ElemSet) : s.size = s.toList.length := by
  have hcontains : s.contains = s.mask.getLsbD := by
    funext i
    exact Bool.eq_iff_iff.mpr (mem_iff i s)
  have hlen : ((List.range 64).filter s.mask.getLsbD).length ≤ 64 := by
    simpa using List.length_filter_le s.mask.getLsbD (List.range 64)
  rw [size, BitVec.cpop, cpopNatRec_eq_length, toList, hcontains, BitVec.toNat_ofNat,
    Nat.mod_eq_of_lt (by omega), maxLiterals]

lemma size_pos {s : ElemSet} {i : Nat} (h : i ∈ s) : 0 < s.size := by
  rw [size_eq_length]
  exact List.length_pos_of_mem ((mem_toList s i).mpr h)

lemma eq_of_size_eq_one {s : ElemSet} (hs : s.size = 1) {i j : Nat} (hi : i ∈ s) (hj : j ∈ s) :
    i = j := by
  rw [size_eq_length, List.length_eq_one_iff] at hs
  obtain ⟨k, hk⟩ := hs
  rw [← mem_toList, hk, List.mem_singleton] at hi hj
  rw [hi, hj]

lemma isEmpty_eq_false {s : ElemSet} {i : Nat} (h : i ∈ s) : s.isEmpty = false := by
  rw [mem_iff] at h
  simp only [isEmpty, beq_eq_false_iff_ne]
  intro hz
  simp [hz] at h

end ElemSet

end Tracewise
