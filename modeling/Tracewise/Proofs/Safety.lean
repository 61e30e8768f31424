import Tracewise.Proofs.Soundness

namespace Tracewise

open Fallible

namespace Model

lemma checkInitialValue_ne_fault {m : Model} {p : Program} {v : VarId} {value : Value} {f : Fault} :
    m.checkInitialValue p v value ≠ .error (.fault f) := by
  intro h
  rw [checkInitialValue] at h
  split at h
  · cases h
  · rename_i dom _
    dsimp only at h
    split at h
    · rename_i hacc
      obtain ⟨b, hb⟩ := Domain.exists_le hacc (Domain.accepts_top dom)
      rw [hb] at h
      cases b with
      | true => cases h
      | false => cases h
    · cases h

lemma check_ne_fault {m : Model} {g : Graph} {initial : Env} {f : Fault} :
    m.check g initial ≠ .error (.fault f) := by
  intro h
  rw [check] at h
  split at h
  · cases h
  · obtain ⟨b, _, hb⟩ := exists_of_forM_eq_error h
    exact checkInitialValue_ne_fault hb

end Model

namespace Analysis

variable {c : Config} {m : Model} {p : Program} {fuel : Nat}

lemma ofProgram_ne_fault (hm : m.Serves p) {f : Fault} :
    ofProgram c m p fuel ≠ .error (.fault f) := by
  intro h
  rw [ofProgram, run] at h
  cases hcheck : m.check (.ofProgram p) c.initial with
  | error e =>
    rw [hcheck] at h
    cases h
    exact Model.check_ne_fault hcheck
  | ok _ =>
    have hE := ready_of_check hm hcheck
    obtain ⟨s, hs⟩ := hE.exists_iterate hE.invariant_initial fuel
    simp only [hcheck, ok_bind, hs, Failure.ofFault] at h
    split at h
    · cases h
    · cases h

theorem ofProgram_never_faults (hm : m.Serves p) (c : Config) (fuel : Nat) :
    (∀ f, ofProgram c m p fuel ≠ .error (.fault f)) ∧
      ∀ a, ofProgram c m p fuel = .ok a → ∀ kind, ∃ fs, a.findings kind = .ok fs := by
  refine ⟨fun f => ofProgram_ne_fault hm, fun a ha kind => ?_⟩
  obtain ⟨hgraph, hmodel, hE, hinv⟩ := invariant_of_serves hm ha
  obtain ⟨fs, hfs, _⟩ := findings_spec hE hinv hgraph hmodel kind
  exact ⟨fs, hfs⟩

end Analysis

namespace Climb

def visitor : Program := ⟨"visitor", #[], .atom (.read x) (.atom (.use y) .done)⟩

def sharedModel : Model :=
  ((⟨typer, .standard, true⟩ : ModelBuilder).run .empty [visitor, program]).1.toOption.getD .empty

lemma standard_sharedModel : sharedModel.Standard [visitor, program] :=
  Model.standard_of_isSome rfl (by decide +kernel)

lemma serves_sharedModel : sharedModel.Serves program := by
  let w : Workshop := { workshop with builders := workshop.builders ++ [.new "visitor"] }
  refine ⟨w, [visitor, program], reachable.tail (.builder "visitor"), ?_,
    List.mem_cons_of_mem _ List.mem_cons_self, by decide +kernel, standard_sharedModel⟩
  intro q hq
  rcases List.mem_cons.mp hq with rfl | hq
  · exact ⟨.new "visitor", List.mem_append_right _ List.mem_cons_self, visitor.body, rfl,
      by decide +kernel⟩
  · rw [List.mem_singleton.mp hq]
    exact ⟨⟨"climb", decls⟩, List.mem_append_left _ List.mem_cons_self, body, rfl,
      by decide +kernel⟩

theorem climb_beside_visitor_never_faults :
    (∀ f, Analysis.ofProgram ⟨.envIncluded, .empty⟩ sharedModel program 3 ≠ .error (.fault f)) ∧
      ∃ a fs, Analysis.ofProgram ⟨.envIncluded, .empty⟩ sharedModel program 40 = .ok a ∧
        a.findings .derefCheck = .ok fs := by
  refine ⟨(Analysis.ofProgram_never_faults serves_sharedModel _ 3).1, ?_⟩
  have hsome : (Analysis.ofProgram ⟨.envIncluded, .empty⟩ sharedModel program
      40).toOption.isSome = true := by decide +kernel
  obtain ⟨a, ha⟩ := exists_of_toOption_isSome hsome
  obtain ⟨fs, hfs⟩ := (Analysis.ofProgram_never_faults serves_sharedModel _ 40).2 a ha .derefCheck
  exact ⟨a, fs, ha, hfs⟩

end Climb

end Tracewise
