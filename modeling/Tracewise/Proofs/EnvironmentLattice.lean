import Tracewise.Proofs.LatticeLaws
import Tracewise.Proofs.Workshop

/-! Environments as a lattice, also those that bind different variables. For inclusion an unbound
variable is one without a value, whereas joining and widening keep what one side binds. -/

namespace Tracewise

open Fallible

lemma Value.isEmpty_iff {a : Value} : a.isEmpty = true ↔ ∀ d, d ∉ a := by
  constructor
  · intro h d hd
    rw [isEmpty_eq_false hd] at h
    cases h
  · intro h
    by_contra hne
    obtain ⟨d, hd⟩ := exists_mem (Bool.eq_false_of_not_eq_true hne)
    exact h d hd

namespace Env

variable {m : Model} {env other third j k r : Env} {v : VarId} {dom : Domain}

def possible (env : Env) (v : VarId) : Set Datum := {d | ∃ a, env.get? v = some a ∧ d ∈ a}

lemma possible_of_some {a : Value} (h : env.get? v = some a) : env.possible v = {d | d ∈ a} := by
  simp [possible, h]

lemma possible_of_none (h : env.get? v = none) : env.possible v = ∅ := by
  simp [possible, h]

lemma possible_congr (h : env.get? v = other.get? v) : env.possible v = other.possible v := by
  simp only [possible, h]

lemma exists_possible (henv : env.Typed m) (hdom : m.varDomain? v = some dom) :
    ∃ a, dom.accepts a = true ∧ env.possible v = {d | d ∈ a} := by
  cases ha : env.get? v with
  | none =>
    refine ⟨dom.bottom, dom.accepts_bottom, ?_⟩
    rw [possible_of_none ha, eq_comm, Set.eq_empty_iff_forall_notMem]
    exact dom.not_mem_bottom
  | some a =>
    obtain ⟨dom', hdom', hacc⟩ := henv v a ha
    obtain rfl := Option.some.inj (hdom.symm.trans hdom')
    exact ⟨a, hacc, possible_of_some ha⟩

lemma included_eq_true_iff (hother : other.Typed m) (hdom : m.varDomain? v = some dom) {a : Value}
    (ha : dom.accepts a = true) :
    included m v a (other.get? v) = .ok true ↔ {d | d ∈ a} ⊆ other.possible v := by
  cases hb : other.get? v with
  | none =>
    rw [possible_of_none hb, Set.subset_empty_iff, Set.eq_empty_iff_forall_notMem]
    simp only [included, Except.ok.injEq]
    exact Value.isEmpty_iff
  | some b =>
    obtain ⟨dom', hdom', hacc⟩ := hother v b hb
    obtain rfl := Option.some.inj (hdom.symm.trans hdom')
    rw [included_of_tracked hdom, Domain.le_eq_true_iff ha hacc, possible_of_some hb]
    rfl

lemma le_iff_possible (henv : env.Typed m) (hother : other.Typed m) :
    env.le other m = .ok true ↔ ∀ v, env.possible v ⊆ other.possible v := by
  rw [le_eq_true_iff_included]
  refine forall_congr' fun v => ?_
  cases ha : env.get? v with
  | none => simp [possible_of_none ha]
  | some a =>
    obtain ⟨dom, hdom, hacc⟩ := henv v a ha
    simp only [Option.some.injEq, forall_eq', possible_of_some ha,
      included_eq_true_iff hother hdom hacc]

lemma le_eq_true_refl (henv : env.Typed m) : env.le env m = .ok true :=
  (le_iff_possible henv henv).mpr fun _ => subset_rfl

lemma le_eq_true_trans (henv : env.Typed m) (hother : other.Typed m) (hthird : third.Typed m)
    (h : env.le other m = .ok true) (h' : other.le third m = .ok true) :
    env.le third m = .ok true := by
  rw [le_iff_possible henv hother] at h
  rw [le_iff_possible hother hthird] at h'
  rw [le_iff_possible henv hthird]
  exact fun v => (h v).trans (h' v)

section Combine

variable {f : Domain → Value → Value → Except Fault Value}

lemma combine_cases (henv : env.Typed m) (hother : other.Typed m)
    (h : combine f env other m = .ok r) (v : VarId) :
    env.get? v = none ∧ r.get? v = other.get? v ∨ other.get? v = none ∧ r.get? v = env.get? v ∨
      ∃ dom a b c, m.varDomain? v = some dom ∧ env.get? v = some a ∧ other.get? v = some b ∧
        dom.accepts a = true ∧ dom.accepts b = true ∧ f dom a b = .ok c ∧ r.get? v = some c := by
  obtain ⟨hunbound, hbound⟩ := get?_combine h v
  cases hb : other.get? v with
  | none => exact Or.inr (Or.inl ⟨rfl, hunbound hb⟩)
  | some b =>
    obtain ⟨c, hc, hcombined⟩ := hbound b hb
    obtain ⟨dom, hdom, haccb⟩ := hother v b hb
    cases ha : env.get? v with
    | none =>
      simp only [Combined, ha] at hcombined
      exact Or.inl ⟨rfl, hcombined ▸ hc⟩
    | some a =>
      obtain ⟨dom', hdom', hacca⟩ := henv v a ha
      obtain rfl := Option.some.inj (hdom.symm.trans hdom')
      simp only [Combined, ha, hdom] at hcombined
      exact Or.inr (Or.inr ⟨dom, a, b, c, hdom, rfl, rfl, hacca, haccb, hcombined, hc⟩)

lemma exists_typed_combine (henv : env.Typed m) (hother : other.Typed m)
    (hf : ∀ d a b, d.accepts a = true → d.accepts b = true →
      ∃ c, f d a b = .ok c ∧ d.accepts c = true) :
    ∃ r, combine f env other m = .ok r ∧ r.Typed m := by
  obtain ⟨r, hr⟩ : ∃ r, combine f env other m = .ok r := by
    apply exists_combine
    intro v b hb
    obtain ⟨dom, hdom, haccb⟩ := hother v b hb
    cases ha : env.get? v with
    | none => exact ⟨b, by simp only [Combined, ha]⟩
    | some a =>
      obtain ⟨dom', hdom', hacca⟩ := henv v a ha
      obtain rfl := Option.some.inj (hdom.symm.trans hdom')
      obtain ⟨c, hc, _⟩ := hf dom a b hacca haccb
      exact ⟨c, by simp only [Combined, ha, hdom, hc]⟩
  refine ⟨r, hr, fun v c hc => ?_⟩
  rcases combine_cases henv hother hr v with ⟨_, heq⟩ | ⟨_, heq⟩ |
    ⟨dom, a, b, c', hdom, _, _, hacca, haccb, hf', heq⟩
  · exact hother v c (heq.symm.trans hc)
  · exact henv v c (heq.symm.trans hc)
  · obtain rfl := Option.some.inj (hc.symm.trans heq)
    obtain ⟨c', hc', hacc⟩ := hf dom a b hacca haccb
    obtain rfl := Except.ok.inj (hf'.symm.trans hc')
    exact ⟨dom, hdom, hacc⟩

lemma isSome_combine (henv : env.Typed m) (hother : other.Typed m)
    (h : combine f env other m = .ok r) (v : VarId) :
    (r.get? v).isSome = ((env.get? v).isSome || (other.get? v).isSome) := by
  rcases combine_cases henv hother h v with ⟨ha, heq⟩ | ⟨hb, heq⟩ |
    ⟨_, a, b, c, _, ha, hb, _, _, _, heq⟩
  · simp [ha, heq]
  · simp [hb, heq]
  · simp [ha, hb, heq]

end Combine

lemma exists_join (henv : env.Typed m) (hother : other.Typed m) :
    ∃ j, env.join other m = .ok j ∧ j.Typed m :=
  exists_typed_combine henv hother fun _ _ _ ha hb =>
    (Domain.join_spec ha hb).imp fun _ hc => ⟨hc.1, hc.2.1⟩

lemma exists_widen (henv : env.Typed m) (hother : other.Typed m) :
    ∃ w, env.widen other m = .ok w ∧ w.Typed m :=
  exists_typed_combine henv hother fun _ _ _ ha hb =>
    (Domain.widen_spec ha hb).imp fun _ hc => ⟨hc.1, hc.2.1⟩

lemma join_le_eq_true_iff (henv : env.Typed m) (hother : other.Typed m) (hj : j.Typed m)
    (hk : k.Typed m) (h : env.join other m = .ok j) :
    j.le k m = .ok true ↔ env.le k m = .ok true ∧ other.le k m = .ok true := by
  rw [le_iff_possible hj hk, le_iff_possible henv hk, le_iff_possible hother hk, ← forall_and]
  refine forall_congr' fun v => ?_
  rcases combine_cases henv hother h v with ⟨ha, heq⟩ | ⟨hb, heq⟩ |
    ⟨dom, a, b, c, hdom, ha, hb, hacca, haccb, hc, heq⟩
  · simp [possible_congr heq, possible_of_none ha]
  · simp [possible_congr heq, possible_of_none hb]
  · obtain ⟨u, haccu, hu⟩ := exists_possible hk hdom
    rw [possible_of_some heq, possible_of_some ha, possible_of_some hb, hu]
    exact Domain.join_le_iff hacca haccb haccu hc

lemma le_widen_eq_true (henv : env.Typed m) (hother : other.Typed m) (hr : r.Typed m)
    (h : env.widen other m = .ok r) : env.le r m = .ok true ∧ other.le r m = .ok true := by
  rw [le_iff_possible henv hr, le_iff_possible hother hr, ← forall_and]
  intro v
  rcases combine_cases henv hother h v with ⟨ha, heq⟩ | ⟨hb, heq⟩ |
    ⟨dom, a, b, c, hdom, ha, hb, hacca, haccb, hc, heq⟩
  · simp [possible_congr heq, possible_of_none ha]
  · simp [possible_congr heq, possible_of_none hb]
  · obtain ⟨c', hc', _, hmem, _⟩ := Domain.widen_spec hacca haccb
    obtain rfl := Except.ok.inj (hc.symm.trans hc')
    rw [possible_of_some heq, possible_of_some ha, possible_of_some hb]
    exact ⟨fun d hd => hmem d (Or.inl hd), fun d hd => hmem d (Or.inr hd)⟩

lemma eq_of_forall_le_iff (henv : env.Typed m) (hother : other.Typed m) (hvars : env.SameVars other)
    (h : ∀ k : Env, k.Typed m → (env.le k m = .ok true ↔ other.le k m = .ok true)) :
    env = other := by
  apply eq_of_le_of_le henv hother
  · rw [← le_eq_true_iff henv hother hvars, h other hother]
    exact le_eq_true_refl hother
  · rw [← le_eq_true_iff hother henv hvars.symm, ← h env henv]
    exact le_eq_true_refl henv

lemma join_comm (henv : env.Typed m) (hother : other.Typed m) (h : env.join other m = .ok j)
    (hj : j.Typed m) : other.join env m = .ok j := by
  obtain ⟨r, hr, htyped⟩ := exists_join hother henv
  rw [hr, Except.ok.injEq]
  apply eq_of_forall_le_iff htyped hj
  · intro v
    rw [isSome_combine henv hother h, isSome_combine hother henv hr, Bool.or_comm]
  · intro k hk
    rw [join_le_eq_true_iff henv hother hj hk h, join_le_eq_true_iff hother henv htyped hk hr,
      and_comm]

lemma join_assoc (henv : env.Typed m) (hother : other.Typed m) (hthird : third.Typed m)
    (h : env.join other m = .ok j) (hj : j.Typed m) (h' : other.join third m = .ok k)
    (hk : k.Typed m) : ∃ r, env.join k m = .ok r ∧ j.join third m = .ok r := by
  obtain ⟨r, hr, htyped⟩ := exists_join henv hk
  obtain ⟨r', hr', htyped'⟩ := exists_join hj hthird
  refine ⟨r, hr, ?_⟩
  rw [hr', Except.ok.injEq]
  apply eq_of_forall_le_iff htyped' htyped
  · intro v
    rw [isSome_combine henv hk hr, isSome_combine hother hthird h', isSome_combine hj hthird hr',
      isSome_combine henv hother h, Bool.or_assoc]
  · intro u hu
    rw [join_le_eq_true_iff henv hk htyped hu hr, join_le_eq_true_iff hother hthird hk hu h',
      join_le_eq_true_iff hj hthird htyped' hu hr', join_le_eq_true_iff henv hother hj hu h,
      and_assoc]

theorem environments_form_lattice {a b c : Env} (ha : a.Typed m) (hb : b.Typed m)
    (hc : c.Typed m) :
    a.le a m = .ok true ∧
    (a.le b m = .ok true → b.le c m = .ok true → a.le c m = .ok true) ∧
    ∃ j w, a.join b m = .ok j ∧ a.widen b m = .ok w ∧ j.Typed m ∧
      (a.le j m = .ok true ∧ b.le j m = .ok true ∧ ∀ k, k.Typed m →
        a.le k m = .ok true → b.le k m = .ok true → j.le k m = .ok true) ∧
      j.le w m = .ok true ∧
      b.join a m = .ok j ∧
      (∃ bc r, b.join c m = .ok bc ∧ a.join bc m = .ok r ∧ j.join c m = .ok r) ∧
      (a.SameVars b → ∀ σ, a.Describes σ ∨ b.Describes σ → j.Describes σ) := by
  obtain ⟨j, hj, hjtyped⟩ := exists_join ha hb
  obtain ⟨w, hw, hwtyped⟩ := exists_widen ha hb
  obtain ⟨bc, hbc, hbctyped⟩ := exists_join hb hc
  obtain ⟨r, hr, hr'⟩ := join_assoc ha hb hc hj hjtyped hbc hbctyped
  have hleast := fun k hk => join_le_eq_true_iff (k := k) ha hb hjtyped hk hj
  obtain ⟨haj, hbj⟩ := (hleast j hjtyped).mp (le_eq_true_refl hjtyped)
  refine ⟨le_eq_true_refl ha, le_eq_true_trans ha hb hc, j, w, hj, hw, hjtyped, ⟨haj, hbj, ?_⟩,
    (hleast w hwtyped).mpr (le_widen_eq_true ha hb hwtyped hw), join_comm ha hb hj hjtyped,
    ⟨bc, r, hbc, hr, hr'⟩, ?_⟩
  · exact fun k hk hak hbk => (hleast k hk).mpr ⟨hak, hbk⟩
  · intro hvars
    obtain ⟨j', hj', _, _, hdescribes⟩ := join_spec ha hb hvars
    obtain rfl := Except.ok.inj (hj.symm.trans hj')
    exact hdescribes

end Env

namespace Climb

def unleveled : Env := .ofList [(x.var, .ints .empty), (y.var, .ints (.between 0 1))]

def halfBound : Env := .ofList [(y.var, .ints (.between 0 2))]

def leveled : Env := .ofList [(x.var, .ints (.constant 1)), (y.var, .ints (.between 0 3))]

theorem unleveled_joins_halfBound :
    unleveled.le leveled model = .ok true ∧ ∃ j w, unleveled.join halfBound model = .ok j ∧
      unleveled.widen halfBound model = .ok w ∧ j.le leveled model = .ok true ∧
      j.le w model = .ok true ∧ halfBound.join unleveled model = .ok j ∧
      ∃ r, halfBound.join leveled model = .ok r ∧
        unleveled.join r model = j.join leveled model := by
  obtain ⟨_, htrans, j, w, hj, hw, _, ⟨_, _, hleast⟩, hjw, hcomm, ⟨bc, r, hbc, hr, hr'⟩, _⟩ :=
    Env.environments_form_lattice (m := model) (a := unleveled) (b := halfBound) (c := leveled)
      (by decide +kernel) (by decide +kernel) (by decide +kernel)
  have hab : unleveled.le halfBound model = .ok true := toOption_eq_some (by decide +kernel)
  have hbc' : halfBound.le leveled model = .ok true := toOption_eq_some (by decide +kernel)
  have hac := htrans hab hbc'
  exact ⟨hac, j, w, hj, hw, hleast leveled (by decide +kernel) hac hbc', hjw, hcomm, bc, hbc,
    hr.trans hr'.symm⟩

end Climb

end Tracewise
