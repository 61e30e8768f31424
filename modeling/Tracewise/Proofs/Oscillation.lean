import Tracewise.Proofs.Fixpoint

/-! A run that goes on for ever: it comes back to the same states and the same worklist, where the
largest word is taken from the interval that holds nothing else. -/

namespace Tracewise

open Fallible

namespace Engine

variable {E : Engine} {s s' t : Progress}

def SamePoint (s t : Progress) : Prop := s.states = t.states ∧ s.worklist = t.worklist

instance : DecidableRel SamePoint := fun _ _ => inferInstanceAs (Decidable (_ ∧ _))

lemma recompute_of_states (h : s.states = t.states) (node : Node) :
    E.recompute s node = E.recompute t node := by
  have hstate : s.stateOf = t.stateOf := by
    funext n
    rw [Progress.stateOf, Progress.stateOf, h]
  rw [recompute, recompute, incoming, incoming, hstate]

lemma SamePoint.store (h : SamePoint s t) (n : NodeId) (state : List Partition) :
    SamePoint (E.store s n state) (E.store t n state) := by
  have hstate : s.stateOf n = t.stateOf n := by rw [Progress.stateOf, Progress.stateOf, h.1]
  rw [Engine.store, Engine.store, hstate]
  split
  · exact h
  · exact ⟨by rw [h.1], by rw [h.2]⟩

lemma SamePoint.step (h : SamePoint s t) (hs : E.step s = .ok (some s')) :
    ∃ t', E.step t = .ok (some t') ∧ SamePoint s' t' := by
  rw [Engine.step] at hs ⊢
  rw [← h.2]
  split at hs
  · cases hs
  · rename_i n rest hworklist
    obtain ⟨s₁, hvisit, hs⟩ := bind_eq_ok hs
    cases hs
    rw [visit] at hvisit
    simp only [visit]
    split at hvisit
    · rename_i hnode
      cases hvisit
      simp only [ok_bind, pure_eq_ok]
      exact ⟨_, rfl, h.1, rfl⟩
    · rename_i node hnode
      obtain ⟨state, hstate, hvisit⟩ := bind_eq_ok hvisit
      cases hvisit
      have hpoint : SamePoint
          { states := s.states, visits := s.visits.modify n (· + 1), worklist := rest }
          { states := t.states, visits := t.visits.modify n (· + 1), worklist := rest } :=
        ⟨h.1, rfl⟩
      simp only [← recompute_of_states hpoint.1, hstate, ok_bind, pure_eq_ok]
      exact ⟨_, rfl, hpoint.store n state⟩

def trail (E : Engine) : Nat → Progress → List Progress
  | 0, s => [s]
  | k + 1, s =>
    s :: match E.step s with
      | .ok (some s') => E.trail k s'
      | _ => []

def recurs (E : Engine) (points : List Progress) : Bool :=
  points.all fun s =>
    match E.step s with
    | .ok (some s') => points.any fun t => SamePoint s' t
    | _ => false

lemma exists_step_of_recurs {points : List Progress} (h : E.recurs points = true)
    (ht : ∃ s ∈ points, SamePoint s t) :
    ∃ t', E.step t = .ok (some t') ∧ ∃ s ∈ points, SamePoint s t' := by
  obtain ⟨s, hs, hst⟩ := ht
  have hstep := List.all_eq_true.mp h s hs
  split at hstep
  · rename_i s' hs'
    obtain ⟨r, hr, hsame⟩ := List.any_eq_true.mp hstep
    have hsame : SamePoint s' r := of_decide_eq_true hsame
    obtain ⟨t', ht', hpoint⟩ := hst.step hs'
    exact ⟨t', ht', r, hr, hsame.1.symm.trans hpoint.1, hsame.2.symm.trans hpoint.2⟩
  · cases hstep

theorem iterate_of_recurs {points : List Progress} (h : E.recurs points = true)
    (ht : ∃ s ∈ points, SamePoint s t) (fuel : Nat) :
    ∃ t', E.iterate fuel t = .ok t' ∧ t'.worklist ≠ [] := by
  induction fuel generalizing t with
  | zero =>
    refine ⟨t, rfl, fun hdone => ?_⟩
    obtain ⟨t', ht', _⟩ := exists_step_of_recurs h ht
    rw [step, hdone] at ht'
    cases ht'
  | succ fuel ih =>
    obtain ⟨t', ht', hpoint⟩ := exists_step_of_recurs h ht
    rw [iterate, ht', ok_bind]
    exact ih hpoint

end Engine

namespace Brink

def x : Ident := ⟨⟨0⟩, "x"⟩

def largest (id : UInt32) : Expr := .lit ⟨⟨id⟩, some "int"⟩ "9223372036854775807"

def readX (id : UInt32) : Expr := .ident ⟨⟨id⟩, some "int"⟩ x

def differs : Expr := .binary ⟨⟨3⟩, some "bool"⟩ .ne (readX 1) (largest 2)

def equals : Expr := .binary ⟨⟨6⟩, some "bool"⟩ .eq (readX 4) (largest 5)

def body : Block :=
  .atom (.assign x (largest 0))
    (.loop (.atom (.assume differs none) (.atom (.assume equals none) (.atom (.read x) .done))) .done)

def decls : Array Decl := #[⟨⟨0⟩, "x", some "int", none⟩]

def program : Program := ⟨"brink", decls, body⟩

def typer : Typer := fun hint =>
  if hint = "bool" then some .bool else some (.int 0 9223372036854775807)

def model : Model :=
  ((⟨typer, .standard, false⟩ : ModelBuilder).run .empty [program]).1.toOption.getD .empty

lemma standard_model : model.Standard [program] :=
  Model.standard_of_isSome rfl (by decide +kernel)

def builder : Builder := ⟨"brink", decls⟩

def exprs : List Expr :=
  [equals, largest 5, readX 4, differs, largest 2, readX 1, largest 0]

def workshop (made : Nat) : Workshop :=
  ⟨⟨made.toUInt32, 1⟩, [builder], exprs.drop (7 - made)⟩

lemma reachable : (workshop 7).Reachable := by
  have hb : builder ∈ [builder] := List.mem_cons_self
  have h₀ : Workshop.start.Step ⟨⟨0, 0⟩, [.new "brink"], []⟩ := .builder "brink"
  have hx : Workshop.Step ⟨⟨0, 0⟩, [.new "brink"], []⟩ (workshop 0) :=
    .var [] (.new "brink") [] rfl (by decide) rfl
  have h₁ : (workshop 0).Step (workshop 1) := .expr (.lit _ _) (by decide) rfl
  have h₂ : (workshop 1).Step (workshop 2) := .expr (.ident x hb) (by decide) rfl
  have h₃ : (workshop 2).Step (workshop 3) := .expr (.lit _ _) (by decide) rfl
  have h₄ : (workshop 3).Step (workshop 4) :=
    .expr (.binary .ne (some "bool") (List.mem_cons_of_mem _ List.mem_cons_self)
      List.mem_cons_self) (by decide) rfl
  have h₅ : (workshop 4).Step (workshop 5) := .expr (.ident x hb) (by decide) rfl
  have h₆ : (workshop 5).Step (workshop 6) := .expr (.lit _ _) (by decide) rfl
  have h₇ : (workshop 6).Step (workshop 7) :=
    .expr (.binary .eq (some "bool") (List.mem_cons_of_mem _ List.mem_cons_self)
      List.mem_cons_self) (by decide) rfl
  exact .tail (.tail (.tail (.tail (.tail (.tail (.tail (.tail (.single h₀) hx) h₁) h₂) h₃) h₄) h₅)
    h₆) h₇

lemma interprets : model.Interprets program := by
  refine ⟨workshop 7, [program], reachable, ?_, List.mem_singleton_self _, standard_model⟩
  intro q hq
  rw [List.mem_singleton.mp hq]
  exact ⟨builder, List.mem_singleton_self _, body, rfl, by decide +kernel, by decide +kernel⟩

def engine : Engine := Config.engine ⟨.always, .empty⟩ (.ofProgram program) model

lemma recurs_trail : engine.recurs (engine.trail 16 engine.initial) = true := by decide +kernel

theorem brink_never_ends :
    model.Interprets program ∧
      ∀ fuel, Analysis.ofProgram ⟨.always, .empty⟩ model program fuel = .error .unfinished := by
  refine ⟨interprets, fun fuel => ?_⟩
  have hcheck : model.check (.ofProgram program) .empty = .ok () := by
    have hsome : (model.check (.ofProgram program) .empty).toOption = some () := by decide +kernel
    exact toOption_eq_some hsome
  have hinitial : ∃ s ∈ engine.trail 16 engine.initial, Engine.SamePoint s engine.initial :=
    ⟨engine.initial, List.mem_cons_self, rfl, rfl⟩
  obtain ⟨s, hs, hworklist⟩ := Engine.iterate_of_recurs recurs_trail hinitial fuel
  have hs : (Config.engine ⟨.always, .empty⟩ (.ofProgram program) model).iterate fuel
      (Config.engine ⟨.always, .empty⟩ (.ofProgram program) model).initial = .ok s := hs
  simp only [Analysis.ofProgram, Analysis.run, hcheck, ok_bind, hs, Failure.ofFault]
  rw [if_neg fun h => hworklist (List.isEmpty_iff.mp h)]
  rfl

end Brink

end Tracewise
