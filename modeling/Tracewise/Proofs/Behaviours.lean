import Tracewise.Proofs.Layout

/-! Behaviours of programs. Whatever relations the atoms stand for, a block means the same as the
paths through its graph. -/

namespace Tracewise

open Relation

section Cuts

variable {α : Type*} {r₁ r₂ j : α → α → Prop} {a c : α} (side : α → Prop)

lemma reflTransGen_of_avoids (hj : ∀ x y, j x y → side x) (h₂ : ∀ x y, r₂ x y → ¬ side y)
    (ha : ¬ side a) : ReflTransGen (fun x y => j x y ∨ r₂ x y) a c ↔ ReflTransGen r₂ a c := by
  constructor
  · intro h
    induction h using ReflTransGen.head_induction_on with
    | refl => exact .refl
    | @head x y hstep _ ih =>
      rcases hstep with hstep | hstep
      · exact absurd (hj x y hstep) ha
      · exact .head hstep (ih (h₂ x y hstep))
  · exact ReflTransGen.mono (fun _ _ => Or.inr) _ _

lemma reflTransGen_cross (h₁ : ∀ x y, r₁ x y → side x ∧ side y)
    (hj : ∀ x y, j x y → side x ∧ ¬ side y) (h₂ : ∀ x y, r₂ x y → ¬ side x ∧ ¬ side y)
    (ha : side a) (hc : ¬ side c) :
    ReflTransGen (fun x y => r₁ x y ∨ j x y ∨ r₂ x y) a c ↔
      ∃ x y, ReflTransGen r₁ a x ∧ j x y ∧ ReflTransGen r₂ y c := by
  constructor
  · intro h
    induction h using ReflTransGen.head_induction_on with
    | refl => exact absurd ha hc
    | @head x y hstep hrest ih =>
      rcases hstep with hstep | hstep | hstep
      · obtain ⟨x', y', hx', hj', hy'⟩ := ih (h₁ x y hstep).2
        exact ⟨x', y', .head hstep hx', hj', hy'⟩
      · refine ⟨x, y, .refl, hstep, ?_⟩
        have hy := (hj x y hstep).2
        have hafter : ∀ x y, (r₁ x y ∨ j x y) → side x := by
          rintro x y (h | h)
          · exact (h₁ x y h).1
          · exact (hj x y h).1
        rw [← reflTransGen_of_avoids side hafter (fun x y h => (h₂ x y h).2) hy]
        exact ReflTransGen.mono (fun _ _ => or_assoc.mpr) _ _ hrest
      · exact absurd ha (h₂ x y hstep).1
  · rintro ⟨x, y, hx, hxy, hy⟩
    refine .trans (.tail (b := x) ?_ (Or.inr (Or.inl hxy))) ?_
    · exact ReflTransGen.mono (fun _ _ => Or.inl) _ _ hx
    · exact ReflTransGen.mono (fun _ _ h => Or.inr (Or.inr h)) _ _ hy

lemma reflTransGen_enter (hj : ∀ x y, j x y → side x ∧ ¬ side y)
    (h₂ : ∀ x y, r₂ x y → ¬ side x ∧ ¬ side y) (ha : side a) (hc : ¬ side c) :
    ReflTransGen (fun x y => j x y ∨ r₂ x y) a c ↔ ∃ y, j a y ∧ ReflTransGen r₂ y c := by
  have hcross : ReflTransGen (fun x y => False ∨ j x y ∨ r₂ x y) a c ↔ _ :=
    reflTransGen_cross side nofun hj h₂ ha hc
  simp only [false_or] at hcross
  rw [hcross]
  constructor
  · rintro ⟨x, y, hx, hxy, hy⟩
    obtain rfl := (reflTransGen_iff_eq fun _ => id).mp hx
    exact ⟨y, hxy, hy⟩
  · rintro ⟨y, hxy, hy⟩
    exact ⟨a, y, .refl, hxy, hy⟩

lemma reflTransGen_choice (h₁ : ∀ x y z, r₁ x y → ¬ r₂ y z) (h₂ : ∀ x y z, r₂ x y → ¬ r₁ y z) :
    ReflTransGen (fun x y => r₁ x y ∨ r₂ x y) a c ↔ ReflTransGen r₁ a c ∨ ReflTransGen r₂ a c := by
  constructor
  · intro h
    induction h with
    | refl => exact Or.inl .refl
    | @tail x y _ hstep ih =>
      rcases hstep with hstep | hstep
      · rcases ih with ih | ih
        · exact Or.inl (ih.tail hstep)
        · rcases ih.cases_tail with rfl | ⟨w, _, hw⟩
          · exact Or.inl (.single hstep)
          · exact absurd hstep (h₂ w x y hw)
      · rcases ih with ih | ih
        · rcases ih.cases_tail with rfl | ⟨w, _, hw⟩
          · exact Or.inr (.single hstep)
          · exact absurd hstep (h₁ w x y hw)
        · exact Or.inr (ih.tail hstep)
  · rintro (h | h)
    · exact ReflTransGen.mono (fun _ _ => Or.inl) _ _ h
    · exact ReflTransGen.mono (fun _ _ => Or.inr) _ _ h

end Cuts

variable {S : Type*} {act : Atom → S → S → Prop} {table : Nat → Option Atom}

def Atom.effect (act : Atom → S → S → Prop) : Option Atom → S → S → Prop
  | some a => act a
  | none => Eq

namespace Block

/-- The meaning of a block, from the meanings of its atoms. -/
def Means (act : Atom → S → S → Prop) : Block → S → S → Prop
  | done => Eq
  | atom a next => Comp (act a) (next.Means act)
  | split fst snd next => Comp (fun s t => fst.Means act s t ∨ snd.Means act s t) (next.Means act)
  | loop body next => Comp (ReflTransGen (body.Means act)) (next.Means act)

def Flow (act : Atom → S → S → Prop) (table : Nat → Option Atom) (edge : Nat → Nat → Prop)
    (x y : Nat × S) : Prop :=
  edge x.1 y.1 ∧ Atom.effect act (table y.1) x.2 y.2

def Occupies (table : Nat → Option Atom) : Nat → List (Bool × Option Atom) → Prop
  | _, [] => True
  | n, cell :: cells => table n = cell.2 ∧ Occupies table (n + 1) cells

lemma occupies_append {l l' : List (Bool × Option Atom)} {n : Nat} :
    Occupies table n (l ++ l') ↔ Occupies table n l ∧ Occupies table (n + l.length) l' := by
  induction l generalizing n with
  | nil => simp [Occupies]
  | cons c l ih => simp [Occupies, ih, and_assoc, Nat.add_assoc, Nat.add_comm 1]

lemma flow_or (e e' : Nat → Nat → Prop) :
    Flow act table (fun x y => e x y ∨ e' x y) =
      fun x y => Flow act table e x y ∨ Flow act table e' x y := by
  funext x y
  exact propext or_and_right

lemma flow_reaches {b : Block} {cur n : Nat} {s : S} {x : Nat × S}
    (h : ReflTransGen (Flow act table (b.Edge cur n)) (cur, s) x) :
    x = (cur, s) ∨ n ≤ x.1 ∧ x.1 < n + b.count := by
  rcases h.cases_tail with rfl | ⟨w, _, hw⟩
  · exact Or.inl rfl
  · exact Or.inr hw.1.bounds.2

lemma flow_enter {edge : Nat → Nat → Prop} {cur n m : Nat} {s t : S}
    (hedge : ∀ x y, edge x y → n ≤ x ∧ n ≤ y) (hcur : cur < n) (hm : n ≤ m) :
    ReflTransGen (Flow act table fun x y => (x = cur ∧ y = n) ∨ edge x y) (cur, s) (m, t) ↔
      ∃ u, Atom.effect act (table n) s u ∧ ReflTransGen (Flow act table edge) (n, u) (m, t) := by
  rw [flow_or, reflTransGen_enter fun x : Nat × S => x.1 < n]
  · constructor
    · rintro ⟨⟨_, u⟩, ⟨⟨_, rfl⟩, hu⟩, hrest⟩
      exact ⟨u, hu, hrest⟩
    · rintro ⟨u, hu, hrest⟩
      exact ⟨(n, u), ⟨⟨rfl, rfl⟩, hu⟩, hrest⟩
  · rintro x y ⟨⟨hx, hy⟩, _⟩
    omega
  · rintro x y ⟨hxy, _⟩
    have := hedge _ _ hxy
    omega
  · exact hcur
  · exact hm.not_gt

lemma flow_cross {edge edge' : Nat → Nat → Prop} {exits : Nat → Prop} {cur join m : Nat} {s t : S}
    (hjoin : table join = none) (hedge : ∀ x y, edge x y → x < join ∧ y < join)
    (hexits : ∀ x, exits x → x < join) (hedge' : ∀ x y, edge' x y → join ≤ x ∧ join ≤ y)
    (hcur : cur < join) (hm : join ≤ m) :
    ReflTransGen (Flow act table fun x y => edge x y ∨ (exits x ∧ y = join) ∨ edge' x y)
        (cur, s) (m, t) ↔
      ∃ u, (∃ x, exits x ∧ ReflTransGen (Flow act table edge) (cur, s) (x, u)) ∧
        ReflTransGen (Flow act table edge') (join, u) (m, t) := by
  rw [flow_or, flow_or, reflTransGen_cross fun x : Nat × S => x.1 < join]
  · constructor
    · rintro ⟨⟨x, u⟩, ⟨_, v⟩, hx, ⟨⟨hexit, rfl⟩, huv⟩, hrest⟩
      rw [hjoin] at huv
      obtain rfl : u = v := huv
      exact ⟨u, ⟨x, hexit, hx⟩, hrest⟩
    · rintro ⟨u, ⟨x, hexit, hx⟩, hrest⟩
      refine ⟨(x, u), (join, u), hx, ⟨⟨hexit, rfl⟩, ?_⟩, hrest⟩
      rw [hjoin]
      rfl
  · rintro x y ⟨hxy, _⟩
    exact hedge _ _ hxy
  · rintro x y ⟨⟨hx, hy⟩, _⟩
    exact ⟨hexits _ hx, hy.not_lt⟩
  · rintro x y ⟨hxy, _⟩
    have := hedge' _ _ hxy
    omega
  · exact hcur
  · exact hm.not_gt

lemma flow_branches {fst snd : Block} {cur n : Nat} (hcur : cur < n) {s u : S} {x : Nat}
    (hx : x = fst.exit cur n ∨ x = snd.exit cur (n + fst.count)) :
    ReflTransGen (Flow act table fun x y => fst.Edge cur n x y ∨ snd.Edge cur (n + fst.count) x y)
        (cur, s) (x, u) ↔
      x = fst.exit cur n ∧ ReflTransGen (Flow act table (fst.Edge cur n)) (cur, s) (x, u) ∨
        x = snd.exit cur (n + fst.count) ∧
          ReflTransGen (Flow act table (snd.Edge cur (n + fst.count))) (cur, s) (x, u) := by
  have hf := fst.exit_bounds cur n
  have hs := snd.exit_bounds cur (n + fst.count)
  rw [flow_or, reflTransGen_choice]
  · constructor
    · -- a branch that control leaves where the other one ends has not been entered
      rintro (h | h)
      · rcases hx with hx | hx
        · exact Or.inl ⟨hx, h⟩
        · rcases flow_reaches h with heq | hbounds
          · exact Or.inr ⟨hx, heq ▸ .refl⟩
          · simp only at hbounds
            omega
      · rcases hx with hx | hx
        · rcases flow_reaches h with heq | hbounds
          · exact Or.inl ⟨hx, heq ▸ .refl⟩
          · simp only at hbounds
            omega
        · exact Or.inr ⟨hx, h⟩
    · rintro (⟨_, h⟩ | ⟨_, h⟩)
      · exact Or.inl h
      · exact Or.inr h
  · rintro x y z ⟨hxy, _⟩ ⟨hyz, _⟩
    have hy := hxy.bounds
    have hz := hyz.bounds
    omega
  · rintro x y z ⟨hxy, _⟩ ⟨hyz, _⟩
    have hy := hxy.bounds
    have hz := hyz.bounds
    omega

lemma flow_rounds {body : Block} {n : Nat} (hhead : table n = none)
    (hbody : ∀ s t : S, ReflTransGen (Flow act table (body.Edge n (n + 1))) (n, s)
      (body.exit n (n + 1), t) ↔ body.Means act s t) {s t : S} :
    ReflTransGen (Flow act table fun x y =>
        body.Edge n (n + 1) x y ∨ (x = body.exit n (n + 1) ∧ y = n)) (n, s) (n, t) ↔
      ReflTransGen (body.Means act) s t := by
  rw [flow_or]
  constructor
  · intro h
    have hrounds : ∀ x : Nat × S, ReflTransGen (fun x y => Flow act table (body.Edge n (n + 1)) x y ∨
        Flow act table (fun x y => x = body.exit n (n + 1) ∧ y = n) x y) (n, s) x →
        ∃ u, ReflTransGen (body.Means act) s u ∧
          ReflTransGen (Flow act table (body.Edge n (n + 1))) (n, u) x := by
      intro x hx
      induction hx with
      | refl => exact ⟨s, .refl, .refl⟩
      | @tail x y _ hstep ih =>
        obtain ⟨u, hu, hx⟩ := ih
        rcases hstep with hstep | ⟨⟨hexit, hy⟩, heffect⟩
        · exact ⟨u, hu, hx.tail hstep⟩
        · rw [hy, hhead] at heffect
          have hround : body.Means act u y.2 := by
            rw [← hbody, ← hexit, ← heffect]
            exact hx
          refine ⟨y.2, hu.tail hround, ?_⟩
          rw [← hy]
    obtain ⟨u, hu, hlast⟩ := hrounds _ h
    rcases flow_reaches hlast with heq | hbounds
    · cases heq
      exact hu
    · simp only at hbounds
      omega
  · intro h
    induction h with
    | refl => exact .refl
    | @tail u v _ hround ih =>
      have hbody := (hbody u v).mpr hround
      refine (ih.trans (ReflTransGen.mono (fun _ _ => Or.inl) _ _ hbody)).tail (Or.inr ⟨⟨rfl, rfl⟩, ?_⟩)
      rw [hhead]
      rfl

theorem flow_iff_means (b : Block) {cur n : Nat} (hcur : cur < n) (h : Occupies table n b.cells)
    {s t : S} :
    ReflTransGen (Flow act table (b.Edge cur n)) (cur, s) (b.exit cur n, t) ↔ b.Means act s t := by
  induction b generalizing cur n s t with
  | done =>
    have hstuck : ∀ x, ¬ Flow act table (done.Edge cur n) (cur, s) x := fun x hx => hx.1
    rw [reflTransGen_iff_eq hstuck, Prod.mk.injEq]
    exact ⟨fun h => h.2.symm, fun h => ⟨rfl, h.symm⟩⟩
  | atom a next ih =>
    obtain ⟨ha, hnext⟩ := h
    have hexit := next.exit_bounds n (n + 1)
    have hedge : ∀ x y, next.Edge n (n + 1) x y → n ≤ x ∧ n ≤ y := by
      intro x y hxy
      have := hxy.bounds
      omega
    refine (flow_enter hedge hcur (by rw [exit]; omega)).trans ?_
    simp only [exit, ih n.lt_succ_self hnext, ha]
    rfl
  | split fst snd next ihf ihs ihn =>
    rw [cells, occupies_append, occupies_append, length_cells, length_cells] at h
    obtain ⟨hfst, hsnd, hjoin, hnext⟩ := h
    have hf := fst.exit_bounds cur n
    have hs := snd.exit_bounds cur (n + fst.count)
    have hn := next.exit_bounds (n + fst.count + snd.count) (n + fst.count + snd.count + 1)
    refine (flow_cross hjoin ?_ ?_ ?_ (by omega) (by rw [exit]; omega)).trans ?_
    · rintro x y (hxy | hxy)
      all_goals
        have := hxy.bounds
        omega
    · rintro x (rfl | rfl) <;> omega
    · intro x y hxy
      have := hxy.bounds
      omega
    · refine exists_congr fun u => and_congr ?_ ?_
      · change _ ↔ fst.Means act s u ∨ snd.Means act s u
        rw [← ihf hcur hfst, ← ihs (show cur < n + fst.count by omega) hsnd]
        constructor
        · rintro ⟨x, hx, hflow⟩
          rcases (flow_branches hcur hx).mp hflow with ⟨rfl, h⟩ | ⟨rfl, h⟩
          · exact Or.inl h
          · exact Or.inr h
        · rintro (h | h)
          · exact ⟨_, Or.inl rfl, (flow_branches hcur (Or.inl rfl)).mpr (Or.inl ⟨rfl, h⟩)⟩
          · exact ⟨_, Or.inr rfl, (flow_branches hcur (Or.inr rfl)).mpr (Or.inr ⟨rfl, h⟩)⟩
      · exact ihn (Nat.lt_succ_self _) hnext
  | loop body next ihb ihn =>
    obtain ⟨hhead, h⟩ := h
    rw [occupies_append, length_cells, Nat.add_right_comm] at h
    obtain ⟨hbody, hjoin, hnext⟩ := h
    have hb := body.exit_bounds n (n + 1)
    have hn := next.exit_bounds (n + body.count + 1) (n + body.count + 2)
    have hedge : ∀ x y, ((body.Edge n (n + 1) x y ∨ (x = body.exit n (n + 1) ∧ y = n)) ∨
        (x = n ∧ y = n + body.count + 1) ∨
          next.Edge (n + body.count + 1) (n + body.count + 2) x y) → n ≤ x ∧ n ≤ y := by
      rintro x y ((hxy | hxy) | hxy | hxy)
      · have := hxy.bounds
        omega
      · omega
      · omega
      · have := hxy.bounds
        omega
    refine (flow_enter hedge hcur (by rw [exit]; omega)).trans ?_
    simp only [hhead, Atom.effect, exists_eq_left']
    refine (flow_cross hjoin ?_ ?_ ?_ (by omega) (by rw [exit]; omega)).trans ?_
    · rintro x y (hxy | hxy)
      · have := hxy.bounds
        omega
      · omega
    · rintro x rfl
      omega
    · intro x y hxy
      have := hxy.bounds
      omega
    · refine exists_congr fun u => and_congr ?_ (ihn (Nat.lt_succ_self _) hnext)
      rw [exists_eq_left]
      exact flow_rounds hhead fun s t => ihb n.lt_succ_self hbody

end Block

namespace Graph

def atomOf (g : Graph) (n : NodeId) : Option Atom := g.nodes[n]?.bind Node.atom

structure IsPath (g : Graph) (path : List NodeId) (n : NodeId) : Prop where
  head : path.head? = some entry
  last : path.getLast? = some n
  edges : path.IsChain fun x y => (x, y) ∈ g.edges

def Along (g : Graph) (act : Atom → S → S → Prop) : List NodeId → S → S → Prop
  | [] => Eq
  | n :: path => Comp (Atom.effect act (g.atomOf n)) (g.Along act path)

lemma flow_iff_along (g : Graph) {x z : NodeId × S} :
    ReflTransGen (Block.Flow act g.atomOf fun x y => (x, y) ∈ g.edges) x z ↔
      ∃ path, (x.1 :: path).IsChain (fun x y => (x, y) ∈ g.edges) ∧
        (x.1 :: path).getLast? = some z.1 ∧ g.Along act path x.2 z.2 := by
  constructor
  · intro h
    induction h using ReflTransGen.head_induction_on with
    | refl => exact ⟨[], List.isChain_singleton _, rfl, rfl⟩
    | @head x y hstep _ ih =>
      obtain ⟨path, hchain, hlast, halong⟩ := ih
      refine ⟨y.1 :: path, List.isChain_cons_cons.mpr ⟨hstep.1, hchain⟩, ?_, y.2, hstep.2, halong⟩
      rw [List.getLast?_cons_cons]
      exact hlast
  · rintro ⟨path, hchain, hlast, halong⟩
    induction path generalizing x with
    | nil =>
      rw [Prod.ext (Option.some.inj hlast) halong]
    | cons y path ih =>
      obtain ⟨hedge, hchain⟩ := List.isChain_cons_cons.mp hchain
      obtain ⟨u, hu, halong⟩ := halong
      rw [List.getLast?_cons_cons] at hlast
      exact .head ⟨hedge, hu⟩ (ih (x := (y, u)) hchain hlast halong)

lemma occupies_of_cells {table : Nat → Option Atom} {n : Nat} {cells : List (Bool × Option Atom)}
    (h : ∀ i cell, cells[i]? = some cell → table (n + i) = cell.2) :
    Block.Occupies table n cells := by
  induction cells generalizing n with
  | nil => trivial
  | cons cell cells ih =>
    refine ⟨h 0 cell rfl, ih fun i cell hi => ?_⟩
    rw [Nat.add_right_comm]
    exact h (i + 1) cell hi

lemma occupies_ofProgram (p : Program) :
    Block.Occupies (ofProgram p).atomOf 0 ((false, none) :: p.body.cells) := by
  refine occupies_of_cells fun i cell hi => ?_
  rw [← cells_ofProgram, List.getElem?_map, Array.getElem?_toList] at hi
  obtain ⟨node, hnode, rfl⟩ := Option.map_eq_some_iff.mp hi
  rw [Nat.zero_add, atomOf, hnode]
  rfl

/-- Lowering keeps the behaviours of a program: its meaning is what the paths through its graph do
that come from the entry to the last node. -/
theorem means_iff_exists_path {S : Type*} (act : Atom → S → S → Prop) (p : Program) (s s' : S) :
    p.body.Means act s s' ↔
      ∃ path, (ofProgram p).IsPath path ((ofProgram p).size - 1) ∧
        (ofProgram p).Along act path s s' := by
  obtain ⟨hstart, hbody⟩ := occupies_ofProgram p
  have hedges : p.body.Edge 0 1 = fun x y => (x, y) ∈ (ofProgram p).edges := by
    funext x y
    rw [mem_edges_ofProgram]
  rw [← p.body.flow_iff_means Nat.zero_lt_one hbody, exit_ofProgram, hedges, flow_iff_along]
  constructor
  · rintro ⟨path, hchain, hpath, halong⟩
    refine ⟨entry :: path, ⟨rfl, hpath, hchain⟩, s, ?_, halong⟩
    rw [entry, hstart]
    rfl
  · rintro ⟨path, hpath, halong⟩
    obtain ⟨rest, rfl⟩ : ∃ rest, path = entry :: rest := List.head?_eq_some_iff.mp hpath.head
    obtain ⟨u, hu, halong⟩ := halong
    rw [entry, hstart] at hu
    obtain rfl : s = u := hu
    exact ⟨rest, hpath.edges, hpath.last, halong⟩

end Graph

end Tracewise
