import Tracewise.Proofs.Nesting

namespace Tracewise

open Relation

namespace Block

variable {cur n x : Nat} {a : Atom} {b fst snd body next : Block}

lemma edge_after_atom : next.Edge n (n + 1) ≤ (atom a next).Edge cur n :=
  fun _ _ => Or.inr

lemma edge_fst : fst.Edge cur n ≤ (split fst snd next).Edge cur n :=
  fun _ _ h => Or.inl (Or.inl h)

lemma edge_snd : snd.Edge cur (n + fst.count) ≤ (split fst snd next).Edge cur n :=
  fun _ _ h => Or.inl (Or.inr h)

lemma edge_after_split : next.Edge (n + fst.count + snd.count) (n + fst.count + snd.count + 1) ≤
    (split fst snd next).Edge cur n :=
  fun _ _ h => Or.inr (Or.inr h)

lemma edge_body : body.Edge n (n + 1) ≤ (loop body next).Edge cur n :=
  fun _ _ h => Or.inr (Or.inl (Or.inl h))

lemma edge_after_loop : next.Edge (n + body.count + 1) (n + body.count + 2) ≤
    (loop body next).Edge cur n :=
  fun _ _ h => Or.inr (Or.inr (Or.inr h))

lemma reaches_exit_of_reaches
    (h : ∀ x, n ≤ x → x < n + b.count → ReflTransGen (b.Edge cur n) cur x) :
    ReflTransGen (b.Edge cur n) cur (b.exit cur n) := by
  rcases b.exit_bounds cur n with ⟨hexit, _⟩ | hexit
  · rw [hexit]
  · apply h <;> omega

lemma reaches (b : Block) (hx : n ≤ x) (hx' : x < n + b.count) :
    ReflTransGen (b.Edge cur n) cur x := by
  induction b generalizing cur n x with
  | done => exact absurd hx' (not_lt.mpr hx)
  | atom a next ih =>
    rw [count] at hx'
    have hfirst : ReflTransGen ((atom a next).Edge cur n) cur n := .single (Or.inl ⟨rfl, rfl⟩)
    rcases hx.eq_or_lt with rfl | hx
    · exact hfirst
    · exact hfirst.trans (ReflTransGen.mono edge_after_atom _ _ (ih hx (by omega)))
  | split fst snd next ihf ihs ihn =>
    rw [count] at hx'
    have hfst : ReflTransGen ((split fst snd next).Edge cur n) cur (fst.exit cur n) :=
      ReflTransGen.mono edge_fst _ _ (reaches_exit_of_reaches fun x hx hx' => ihf hx hx')
    have hjoin : ReflTransGen ((split fst snd next).Edge cur n) cur (n + fst.count + snd.count) :=
      hfst.tail (Or.inr (Or.inl ⟨Or.inl rfl, rfl⟩))
    by_cases h₁ : x < n + fst.count
    · exact ReflTransGen.mono edge_fst _ _ (ihf hx h₁)
    by_cases h₂ : x < n + fst.count + snd.count
    · exact ReflTransGen.mono edge_snd _ _ (ihs (not_lt.mp h₁) h₂)
    rcases (not_lt.mp h₂).eq_or_lt with rfl | h₃
    · exact hjoin
    · exact hjoin.trans (ReflTransGen.mono edge_after_split _ _ (ihn h₃ (by omega)))
  | loop body next ihb ihn =>
    rw [count] at hx'
    have hhead : ReflTransGen ((loop body next).Edge cur n) cur n := .single (Or.inl ⟨rfl, rfl⟩)
    have hjoin : ReflTransGen ((loop body next).Edge cur n) cur (n + body.count + 1) :=
      hhead.tail (Or.inr (Or.inr (Or.inl ⟨rfl, rfl⟩)))
    rcases hx.eq_or_lt with rfl | hx
    · exact hhead
    by_cases h₁ : x < n + 1 + body.count
    · exact hhead.trans (ReflTransGen.mono edge_body _ _ (ihb hx h₁))
    by_cases h₂ : x = n + body.count + 1
    · exact h₂ ▸ hjoin
    · exact hjoin.trans (ReflTransGen.mono edge_after_loop _ _ (ihn (by omega) (by omega)))

lemma reaches_exit (b : Block) (cur n : Nat) : ReflTransGen (b.Edge cur n) cur (b.exit cur n) :=
  reaches_exit_of_reaches fun _ => b.reaches

lemma leaves (b : Block) (hx : n ≤ x) (hx' : x < n + b.count) :
    ReflTransGen (b.Edge cur n) x (b.exit cur n) := by
  induction b generalizing cur n with
  | done => exact absurd hx' (not_lt.mpr hx)
  | atom a next ih =>
    rw [count] at hx'
    rcases hx.eq_or_lt with rfl | hx
    · exact ReflTransGen.mono edge_after_atom _ _ (next.reaches_exit n (n + 1))
    · exact ReflTransGen.mono edge_after_atom _ _ (ih hx (by omega))
  | split fst snd next ihf ihs ihn =>
    rw [count] at hx'
    have hjoin : ReflTransGen ((split fst snd next).Edge cur n) (n + fst.count + snd.count)
        ((split fst snd next).exit cur n) :=
      ReflTransGen.mono edge_after_split _ _ (next.reaches_exit _ _)
    by_cases h₁ : x < n + fst.count
    · have hexit : (split fst snd next).Edge cur n (fst.exit cur n) (n + fst.count + snd.count) :=
        Or.inr (Or.inl ⟨Or.inl rfl, rfl⟩)
      exact (ReflTransGen.mono edge_fst _ _ (ihf hx h₁)).trans (.head hexit hjoin)
    by_cases h₂ : x < n + fst.count + snd.count
    · have hexit : (split fst snd next).Edge cur n (snd.exit cur (n + fst.count))
          (n + fst.count + snd.count) := Or.inr (Or.inl ⟨Or.inr rfl, rfl⟩)
      exact (ReflTransGen.mono edge_snd _ _ (ihs (not_lt.mp h₁) h₂)).trans (.head hexit hjoin)
    rcases (not_lt.mp h₂).eq_or_lt with rfl | h₃
    · exact hjoin
    · exact ReflTransGen.mono edge_after_split _ _ (ihn h₃ (by omega))
  | loop body next ihb ihn =>
    rw [count] at hx'
    have hjoin : ReflTransGen ((loop body next).Edge cur n) (n + body.count + 1)
        ((loop body next).exit cur n) :=
      ReflTransGen.mono edge_after_loop _ _ (next.reaches_exit _ _)
    have hhead : ReflTransGen ((loop body next).Edge cur n) n ((loop body next).exit cur n) :=
      .head (Or.inr (Or.inr (Or.inl ⟨rfl, rfl⟩))) hjoin
    rcases hx.eq_or_lt with rfl | hx
    · exact hhead
    by_cases h₁ : x < n + 1 + body.count
    · have hback : (loop body next).Edge cur n (body.exit n (n + 1)) n :=
        Or.inr (Or.inl (Or.inr ⟨rfl, rfl⟩))
      exact (ReflTransGen.mono edge_body _ _ (ihb hx h₁)).trans (.head hback hhead)
    by_cases h₂ : x = n + body.count + 1
    · exact h₂ ▸ hjoin
    · exact ReflTransGen.mono edge_after_loop _ _ (ihn (by omega) (by omega))

end Block

namespace Graph

lemma toList_adjacency {n : Nat} {edges : List Edge} (hedges : ∀ e ∈ edges, e.1 < n) :
    (adjacency n edges).toList =
      (List.range n).map fun a => (edges.filter (·.1 = a)).map Prod.snd := by
  have hlength : (adjacency n edges).toList.length = n := by
    rw [Array.length_toList, size_adjacency]
  apply List.ext_getElem
  · rw [hlength, List.length_map, List.length_range]
  · intro a ha _
    have hsize : a < (adjacency n edges).size := ha
    have hget := getD_adjacency hedges a
    rw [Array.getD_eq_getD_getElem?, Array.getElem?_eq_getElem hsize, Option.getD_some] at hget
    rw [Array.getElem_toList, hget, List.getElem_map, List.getElem_range]

lemma filter_swap (edges : List Edge) (a : NodeId) :
    ((edges.map Prod.swap).filter (·.1 = a)).map Prod.snd =
      (edges.filter (·.2 = a)).map Prod.fst := by
  simp [List.filter_map, Function.comp_def]

section Programs

variable (p : Program)

lemma succs_ofProgram :
    (ofProgram p).succs.toList = (List.range (ofProgram p).size).map
      fun n => ((ofProgram p).edges.toList.filter (·.1 = n)).map Prod.snd := by
  apply toList_adjacency
  intro e he
  exact ((sound_ofProgram p).edges e (Array.mem_toList_iff.mp he)).1

lemma preds_ofProgram :
    (ofProgram p).preds.toList = (List.range (ofProgram p).size).map
      fun n => ((ofProgram p).edges.toList.filter (·.2 = n)).map Prod.fst := by
  simp only [← filter_swap]
  apply toList_adjacency
  intro e he
  obtain ⟨e', he', rfl⟩ := List.mem_map.mp he
  exact ((sound_ofProgram p).edges e' (Array.mem_toList_iff.mp he')).2

lemma succsOf_last : (ofProgram p).succsOf ((ofProgram p).size - 1) = [] := by
  rw [List.eq_nil_iff_forall_not_mem]
  intro y hy
  have hedge := mem_edges_ofProgram.mp (((sound_ofProgram p).succs _ y).mp hy)
  exact lt_irrefl _ (exit_ofProgram p ▸ hedge.lt_exit Nat.zero_lt_one)

lemma predsOf_entry : (ofProgram p).predsOf entry = [] := by
  rw [List.eq_nil_iff_forall_not_mem]
  intro x hx
  have hedge := mem_edges_ofProgram.mp (((sound_ofProgram p).preds x _).mp hx)
  exact absurd hedge.bounds.2.1 (Nat.not_succ_le_zero 0)

lemma reaches_and_leaves {n : NodeId} (hn : n < (ofProgram p).size) :
    ReflTransGen (fun x y => (x, y) ∈ (ofProgram p).edges) entry n ∧
      ReflTransGen (fun x y => (x, y) ∈ (ofProgram p).edges) n ((ofProgram p).size - 1) := by
  have hedge : (fun x y => (x, y) ∈ (ofProgram p).edges) = p.body.Edge 0 1 := by
    funext x y
    exact propext mem_edges_ofProgram
  rw [hedge, ← exit_ofProgram]
  rw [size_ofProgram, Nat.add_comm] at hn
  by_cases hentry : n = entry
  · rw [hentry]
    exact ⟨.refl, p.body.reaches_exit 0 1⟩
  · have hpos : 1 ≤ n := Nat.pos_of_ne_zero hentry
    exact ⟨p.body.reaches hpos hn, p.body.leaves hpos hn⟩

theorem shape_ofProgram :
    entry < (ofProgram p).size ∧
    (∀ n < (ofProgram p).size,
      ReflTransGen (fun x y => (x, y) ∈ (ofProgram p).edges) entry n ∧
      ReflTransGen (fun x y => (x, y) ∈ (ofProgram p).edges) n ((ofProgram p).size - 1)) ∧
    (ofProgram p).succsOf ((ofProgram p).size - 1) = [] ∧ (ofProgram p).predsOf entry = [] ∧
    (ofProgram p).edges.toList.Nodup ∧
    (∀ e ∈ (ofProgram p).edges, e.1 < (ofProgram p).size ∧ e.2 < (ofProgram p).size) ∧
    (∀ (i : NodeId) (node : Node), (ofProgram p).nodes[i]? = some node → node.id = i) ∧
    (ofProgram p).succs.toList = (List.range (ofProgram p).size).map
      (fun n => ((ofProgram p).edges.toList.filter (·.1 = n)).map Prod.snd) ∧
    (ofProgram p).preds.toList = (List.range (ofProgram p).size).map
      (fun n => ((ofProgram p).edges.toList.filter (·.2 = n)).map Prod.fst) := by
  have hentry : entry < (ofProgram p).size := by
    rw [size_ofProgram]
    exact Nat.succ_pos _
  have hsound := sound_ofProgram p
  exact ⟨hentry, fun n hn => reaches_and_leaves p hn, succsOf_last p, predsOf_entry p,
    nodup_edges_ofProgram p, hsound.edges, hsound.ids, succs_ofProgram p, preds_ofProgram p⟩

end Programs

end Graph

end Tracewise
