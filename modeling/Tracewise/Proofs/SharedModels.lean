import Tracewise.Proofs.ModelEntries
import Tracewise.Proofs.Indifference

/-! One model of several programs. For each of them it is as good as a model of this program alone:
identities tell the programs apart, and all nodes have the standard semantics. -/

namespace Tracewise

open Fallible

namespace ModelBuilder

variable {b : ModelBuilder} {programs : List Program} {known known' : Interpreted} {p : Program}
  {m : Model} {e : Expr}

lemma findSome?_semantics {α : Type} (hb : b.interpreter = Interpreter.standard)
    (hknown : b.known programs = .ok known) (he : e ∈ programs.flatMap Program.exprs)
    (hmeaning : (b.meaning? e.hint).isSome) (f : Semantics → Option α) :
    known.semantics.findSome? f = f .standard := by
  obtain ⟨meaning, hmeaning⟩ := Option.isSome_iff_exists.mp hmeaning
  obtain ⟨p, hp, he⟩ := List.mem_flatMap.mp he
  have hmem : meaning.interpretation.semantics ∈ known.semantics := by
    rw [(known_eq_ok_iff.mp hknown).2]
    refine List.mem_filterMap.mpr ⟨.expr e, List.mem_flatMap.mpr ⟨p, hp, ?_⟩, ?_⟩
    · exact Program.mem_mentions.mpr (.inr ⟨e, he, rfl⟩)
    · rw [Mention.hint, hmeaning]
      rfl
  rw [List.eq_replicate_of_mem ((knows_known hknown).standard hb),
    List.findSome?_replicate_of_pos (List.length_pos_of_mem hmem)]

variable {w : Workshop}

end ModelBuilder

open ModelBuilder

namespace Beside

open Climb (program x)

def lamp : Ident := ⟨⟨2⟩, "lamp"⟩

def readLamp : Expr := .ident ⟨⟨3⟩, some "flag"⟩ lamp

def decls : Array Decl := #[⟨⟨2⟩, "lamp", some "flag", none⟩]

def blink : Program := ⟨"blink", decls, .atom (.read lamp) (.atom (.assume readLamp none) .done)⟩

def workshop : Workshop :=
  ⟨⟨4, 3⟩, [⟨"climb", Climb.decls⟩, ⟨"blink", decls⟩], readLamp :: Climb.workshop.exprs⟩

lemma reachable : workshop.Reachable := by
  let w₀ : Workshop := ⟨⟨3, 2⟩, [⟨"climb", Climb.decls⟩, .new "blink"], Climb.workshop.exprs⟩
  let w₁ : Workshop :=
    ⟨⟨3, 3⟩, [⟨"climb", Climb.decls⟩, ⟨"blink", decls⟩], Climb.workshop.exprs⟩
  have h₀ : Climb.workshop.Step w₀ := .builder "blink"
  have h₁ : w₀.Step w₁ := .var [⟨"climb", Climb.decls⟩] (.new "blink") [] rfl (by decide) rfl
  have h₂ : w₁.Step workshop :=
    .expr (.ident lamp (List.mem_cons_of_mem _ List.mem_cons_self)) (by decide) rfl
  exact .tail (.tail (.tail Climb.reachable h₀) h₁) h₂

def programs : List Program := [blink, program]

lemma builds : ∀ q ∈ programs, workshop.Builds q := by
  intro q hq
  rcases List.mem_cons.mp hq with rfl | hq
  · exact ⟨⟨"blink", decls⟩, List.mem_cons_of_mem _ List.mem_cons_self, blink.body, rfl,
      by decide +kernel, by decide +kernel⟩
  · rw [List.mem_singleton.mp hq]
    exact ⟨⟨"climb", Climb.decls⟩, List.mem_cons_self, Climb.body, rfl, by decide +kernel,
      by decide +kernel⟩

def builder : ModelBuilder := ⟨Climb.typer, .standard, false⟩

def model : Model := (builder.run .empty programs).1.toOption.getD .empty

def config : Config := ⟨.envIncluded, .set .empty x.var (.ints (.between 0 1))⟩

end Beside

end Tracewise
