import Tracewise.Analysis.Admission
import Tracewise.Proofs.Evaluation
import Tracewise.Proofs.Layout

namespace Tracewise

namespace Block

lemma filterMap_cells (b : Block) : b.cells.filterMap Prod.snd = b.atoms := by
  induction b with
  | done => rfl
  | atom a next ih => simp [cells, atoms, ih]
  | split fst snd next ihf ihs ihn => simp [cells, atoms, ihf, ihs, ihn]
  | loop body next ihb ihn => simp [cells, atoms, ihb, ihn]

lemma exprs_eq_flatMap (b : Block) :
    b.exprs = b.atoms.flatMap fun a => a.exprs.flatMap Expr.preorder := by
  induction b with
  | done => rfl
  | atom a next ih =>
    have hnodes : Expr.nodes = Expr.preorder := funext Expr.nodes_eq_preorder
    simp [exprs, atoms, ih, hnodes]
  | split fst snd next ihf ihs ihn => simp [exprs, atoms, ihf, ihs, ihn]
  | loop body next ihb ihn => simp [exprs, atoms, ihb, ihn]

end Block

def Node.exprs (n : Node) : List Expr := n.atom.toList.flatMap Atom.exprs

lemma Model.checkGraph_eq_forM (m : Model) (g : Graph) :
    m.checkGraph g = (g.nodes.toList.filterMap Node.atom).forM m.checkAtom := by
  simp only [checkGraph, List.forM_eq_forM]
  induction g.nodes.toList with
  | nil => rfl
  | cons n nodes ih =>
    cases hatom : n.atom with
    | none => simp [hatom, ih]
    | some a => simp [hatom, ih]

namespace Graph

variable (p : Program)

lemma ids_ofProgram : (ofProgram p).nodes.toList.map Node.id = List.range (ofProgram p).size := by
  apply List.ext_getElem
  · simp [size]
  · intro n hn _
    have hsize : n < (ofProgram p).nodes.size := by simpa using hn
    simpa using (sound_ofProgram p).ids n _ (Array.getElem?_eq_getElem hsize)

lemma atoms_ofProgram : (ofProgram p).nodes.toList.filterMap Node.atom = p.body.atoms := by
  have hcells := congrArg (List.filterMap Prod.snd) (cells_ofProgram p)
  rw [List.filterMap_map, List.filterMap_cons_none rfl, Block.filterMap_cells] at hcells
  exact hcells

lemma exprs_ofProgram :
    (ofProgram p).nodes.toList.flatMap (fun n => n.exprs.flatMap Expr.preorder) = p.exprs := by
  rw [Program.exprs, Block.exprs_eq_flatMap, ← atoms_ofProgram, List.filterMap_eq_flatMap_toList,
    List.flatMap_assoc]
  simp only [Node.exprs, List.flatMap_assoc]

theorem nodes_enumerate_program :
    (ofProgram p).nodes.toList.map Node.id = List.range (ofProgram p).size ∧
      (ofProgram p).nodes.toList.filterMap Node.atom = p.body.atoms ∧
      (ofProgram p).nodes.toList.flatMap (fun n => n.exprs.flatMap Expr.preorder) = p.exprs ∧
      (∀ m : Model, m.checkGraph (ofProgram p) = p.body.atoms.forM m.checkAtom) ∧
      ∀ e : Expr, e.nodes = e.preorder := by
  refine ⟨ids_ofProgram p, atoms_ofProgram p, exprs_ofProgram p, fun m => ?_,
    Expr.nodes_eq_preorder⟩
  rw [Model.checkGraph_eq_forM, atoms_ofProgram]

end Graph

end Tracewise
