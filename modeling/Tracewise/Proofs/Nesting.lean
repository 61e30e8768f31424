import Tracewise.Proofs.Fixpoint
import Tracewise.Proofs.Layout

/-! Loops of a graph. Control comes to a loop body through the head and leaves it to the head only,
so a loop head is visited only when its body has settled. -/

namespace Tracewise

open Fallible

namespace Loop

/-- The nodes from `head` to `last` make a loop: what is after the head is entered from within and
left from the last node to the head, and all other edges to the head come from before it. -/
structure IsRegion (edge : Nat → Nat → Prop) (head last : Nat) : Prop where
  le : head ≤ last
  entered : ∀ x y, edge x y → head < y → y ≤ last → head ≤ x ∧ x ≤ last
  left : ∀ x y, edge x y → head < x → x ≤ last → head < y ∧ y ≤ last ∨ x = last ∧ y = head
  back : ∀ x, edge x head → x ≤ last
  fork : ∀ x y z, edge x y → edge x z → y ≤ head → ¬ (head < z ∧ z ≤ last)

lemma IsRegion.extend {edge edge' : Nat → Nat → Prop} {head last : Nat}
    (h : IsRegion edge head last)
    (hnew : ∀ x y, edge' x y →
      edge x y ∨ (x < head ∨ last < x) ∧ (y < head ∨ last < y)) : IsRegion edge' head last := by
  have hle := h.le
  refine ⟨hle, ?_, ?_, ?_, ?_⟩
  · intro x y hxy hy hy'
    rcases hnew x y hxy with hxy | hxy
    · exact h.entered x y hxy hy hy'
    · omega
  · intro x y hxy hx hx'
    rcases hnew x y hxy with hxy | hxy
    · exact h.left x y hxy hx hx'
    · omega
  · intro x hx
    rcases hnew x head hx with hx | hx
    · exact h.back x hx
    · omega
  · intro x y z hxy hxz hy hz
    rcases hnew x z hxz with hxz | hxz
    · have hx := h.entered x z hxz hz.1 hz.2
      rcases hnew x y hxy with hxy | hxy
      · exact h.fork x y z hxy hxz hy hz
      · omega
    · omega

end Loop

namespace Block

/-- The loops of a block that is numbered on from `n`, in program order, each with its head and its
body. -/
def loops : Block → Nat → List (Nat × Block)
  | done, _ => []
  | atom _ next, n => next.loops (n + 1)
  | split fst snd next, n =>
    fst.loops n ++
      (snd.loops (n + fst.count) ++ next.loops (n + fst.count + snd.count + 1))
  | loop body next, n => (n, body) :: (body.loops (n + 1) ++ next.loops (n + body.count + 2))

variable {b body : Block} {cur n head x y : Nat}

lemma mem_loops_split {fst snd next : Block} :
    (head, body) ∈ (split fst snd next).loops n ↔
      (head, body) ∈ fst.loops n ∨ (head, body) ∈ snd.loops (n + fst.count) ∨
        (head, body) ∈ next.loops (n + fst.count + snd.count + 1) := by
  rw [loops, List.mem_append, List.mem_append]

lemma mem_loops_loop {inner next : Block} :
    (head, body) ∈ (loop inner next).loops n ↔
      (head = n ∧ body = inner) ∨ (head, body) ∈ inner.loops (n + 1) ∨
        (head, body) ∈ next.loops (n + inner.count + 2) := by
  rw [loops, List.mem_cons, List.mem_append, Prod.mk.injEq]

lemma bounds_of_mem_loops (h : (head, body) ∈ b.loops n) :
    n ≤ head ∧ head + body.count + 1 < n + b.count := by
  induction b generalizing n with
  | done => cases h
  | atom a next ih =>
    have := ih h
    rw [count]
    omega
  | split fst snd next ihf ihs ihn =>
    rw [count]
    rcases mem_loops_split.mp h with h | h | h
    · have := ihf h
      omega
    · have := ihs h
      omega
    · have := ihn h
      omega
  | loop inner next ihb ihn =>
    rw [count]
    rcases mem_loops_loop.mp h with ⟨rfl, rfl⟩ | h | h
    · omega
    · have := ihb h
      omega
    · have := ihn h
      omega

lemma Edge.lt_exit (hcur : cur < n) (h : b.Edge cur n x y) : x < b.exit cur n := by
  induction b generalizing cur n with
  | done => exact h.elim
  | atom a next ih =>
    have := next.exit_bounds n (n + 1)
    rw [exit]
    rcases h with h | h
    · omega
    · exact ih (Nat.lt_succ_self n) h
  | split fst snd next ihf ihs ihn =>
    have hf := fst.exit_bounds cur n
    have hs := snd.exit_bounds cur (n + fst.count)
    have hn := next.exit_bounds (n + fst.count + snd.count) (n + fst.count + snd.count + 1)
    rw [exit]
    rcases h with (h | h) | h | h
    · have := h.bounds
      omega
    · have := h.bounds
      omega
    · omega
    · exact ihn (Nat.lt_succ_self _) h
  | loop body next ihb ihn =>
    have hb := body.exit_bounds n (n + 1)
    have hn := next.exit_bounds (n + body.count + 1) (n + body.count + 2)
    rw [exit]
    rcases h with h | (h | h) | h | h
    · omega
    · have := h.bounds
      omega
    · omega
    · omega
    · exact ihn (Nat.lt_succ_self _) h

lemma isRegion_loop (body next : Block) (hcur : cur < n) :
    Loop.IsRegion ((loop body next).Edge cur n) n (n + body.count) := by
  have hexit := body.exit_bounds n (n + 1)
  have hcases : ∀ x y, (loop body next).Edge cur n x y →
      x = cur ∧ y = n ∨ body.Edge n (n + 1) x y ∧ x < body.exit n (n + 1) ∨
        x = body.exit n (n + 1) ∧ y = n ∨ n + body.count < y ∧ (x = n ∨ n + body.count < x) := by
    rintro x y (h | (h | h) | h | h)
    · exact Or.inl h
    · exact Or.inr (Or.inl ⟨h, h.lt_exit (Nat.lt_succ_self n)⟩)
    · exact Or.inr (Or.inr (Or.inl h))
    · omega
    · have := h.bounds
      omega
  refine ⟨Nat.le_add_right _ _, ?_, ?_, ?_, ?_⟩
  · intro x y hxy hy hy'
    rcases hcases x y hxy with h | h | h | h
    · omega
    · have := h.1.bounds
      omega
    · omega
    · omega
  · intro x y hxy hx hx'
    rcases hcases x y hxy with h | h | h | h
    · omega
    · have := h.1.bounds
      omega
    · omega
    · omega
  · intro x hx
    rcases hcases x n hx with h | h | h | h
    · omega
    · have := h.1.bounds
      omega
    · omega
    · omega
  · intro x y z hxy hxz hy hz
    rcases hcases x z hxz with h | h | h | h
    · omega
    · have hbounds := h.1.bounds
      rcases hcases x y hxy with h' | h' | h' | h'
      · omega
      · have := h'.1.bounds
        omega
      · omega
      · omega
    · omega
    · omega

lemma isRegion_of_mem_loops (hcur : cur < n) (h : (head, body) ∈ b.loops n) :
    Loop.IsRegion (b.Edge cur n) head (head + body.count) := by
  induction b generalizing cur n with
  | done => cases h
  | atom a next ih =>
    have hbounds := bounds_of_mem_loops (b := next) h
    refine (ih (Nat.lt_succ_self n) h).extend ?_
    rintro x y (hxy | hxy)
    · omega
    · exact Or.inl hxy
  | split fst snd next ihf ihs ihn =>
    have hf := fst.exit_bounds cur n
    have hs := snd.exit_bounds cur (n + fst.count)
    rcases mem_loops_split.mp h with h | h | h
    · have hbounds := bounds_of_mem_loops h
      refine (ihf hcur h).extend ?_
      rintro x y ((hxy | hxy) | hxy | hxy)
      · exact Or.inl hxy
      · have := hxy.bounds
        omega
      · omega
      · have := hxy.bounds
        omega
    · have hbounds := bounds_of_mem_loops h
      refine (ihs (Nat.lt_add_right _ hcur) h).extend ?_
      rintro x y ((hxy | hxy) | hxy | hxy)
      · have := hxy.bounds
        omega
      · exact Or.inl hxy
      · omega
      · have := hxy.bounds
        omega
    · have hbounds := bounds_of_mem_loops h
      refine (ihn (Nat.lt_succ_self _) h).extend ?_
      rintro x y ((hxy | hxy) | hxy | hxy)
      · have := hxy.bounds
        omega
      · have := hxy.bounds
        omega
      · omega
      · exact Or.inl hxy
  | loop inner next ihb ihn =>
    have hb := inner.exit_bounds n (n + 1)
    rcases mem_loops_loop.mp h with ⟨rfl, rfl⟩ | h | h
    · exact isRegion_loop body next hcur
    · have hbounds := bounds_of_mem_loops h
      refine (ihb (Nat.lt_succ_self n) h).extend ?_
      rintro x y (hxy | (hxy | hxy) | hxy | hxy)
      · omega
      · exact Or.inl hxy
      · omega
      · omega
      · have := hxy.bounds
        omega
    · have hbounds := bounds_of_mem_loops h
      refine (ihn (Nat.lt_succ_self _) h).extend ?_
      rintro x y (hxy | (hxy | hxy) | hxy | hxy)
      · omega
      · have := hxy.bounds
        omega
      · omega
      · omega
      · exact Or.inl hxy

lemma Edge.lt_or_mem_loops (hcur : cur < n) (h : b.Edge cur n x y) :
    x < y ∨ ∃ body, (y, body) ∈ b.loops n ∧ x = y + body.count := by
  induction b generalizing cur n with
  | done => exact h.elim
  | atom a next ih =>
    rcases h with h | h
    · omega
    · exact ih (Nat.lt_succ_self n) h
  | split fst snd next ihf ihs ihn =>
    have hf := fst.exit_bounds cur n
    have hs := snd.exit_bounds cur (n + fst.count)
    simp only [mem_loops_split]
    rcases h with (h | h) | h | h
    · obtain h | ⟨body, hbody, hx⟩ := ihf hcur h
      · exact Or.inl h
      · exact Or.inr ⟨body, Or.inl hbody, hx⟩
    · obtain h | ⟨body, hbody, hx⟩ := ihs (Nat.lt_add_right _ hcur) h
      · exact Or.inl h
      · exact Or.inr ⟨body, Or.inr (Or.inl hbody), hx⟩
    · omega
    · obtain h | ⟨body, hbody, hx⟩ := ihn (Nat.lt_succ_self _) h
      · exact Or.inl h
      · exact Or.inr ⟨body, Or.inr (Or.inr hbody), hx⟩
  | loop inner next ihb ihn =>
    have hb := inner.exit_bounds n (n + 1)
    simp only [mem_loops_loop]
    rcases h with h | (h | h) | h | h
    · omega
    · obtain h | ⟨body, hbody, hx⟩ := ihb (Nat.lt_succ_self n) h
      · exact Or.inl h
      · exact Or.inr ⟨body, Or.inr (Or.inl hbody), hx⟩
    · exact Or.inr ⟨inner, Or.inl ⟨h.2, rfl⟩, by omega⟩
    · omega
    · obtain h | ⟨body, hbody, hx⟩ := ihn (Nat.lt_succ_self _) h
      · exact Or.inl h
      · exact Or.inr ⟨body, Or.inr (Or.inr hbody), hx⟩

end Block

namespace Graph

def IsLoop (g : Graph) (head last : Nat) : Prop :=
  Loop.IsRegion (fun x y => (x, y) ∈ g.edges) head last

lemma exists_isLoop (p : Program) (n : Nat) : ∃ last, (ofProgram p).IsLoop n last := by
  simp only [IsLoop, mem_edges_ofProgram]
  by_cases hloop : ∃ body, (n, body) ∈ p.body.loops 1
  · obtain ⟨body, hbody⟩ := hloop
    exact ⟨n + body.count, Block.isRegion_of_mem_loops Nat.zero_lt_one hbody⟩
  · refine ⟨n, le_rfl, ?_, ?_, ?_, ?_⟩
    · intro x y _ hy hy'
      omega
    · intro x y _ hx hx'
      omega
    · intro x hx
      obtain hlt | ⟨body, hbody, _⟩ := hx.lt_or_mem_loops Nat.zero_lt_one
      · exact hlt.le
      · exact absurd ⟨body, hbody⟩ hloop
    · intro x y z _ _ _ hz
      omega

end Graph

namespace Progress

lemma pairwise_schedule {worklist : List NodeId} (h : worklist.Pairwise (· < ·)) (n : NodeId) :
    (schedule worklist n).Pairwise (· < ·) := by
  induction worklist with
  | nil => exact List.pairwise_singleton _ _
  | cons k worklist ih =>
    obtain ⟨hk, hrest⟩ := List.pairwise_cons.mp h
    rw [schedule]
    split
    · rename_i hn
      refine List.pairwise_cons.mpr ⟨fun j hj => ?_, h⟩
      rcases List.mem_cons.mp hj with rfl | hj
      · exact hn
      · exact hn.trans (hk j hj)
    · split
      · exact h
      · rename_i hn hne
        refine List.pairwise_cons.mpr ⟨fun j hj => ?_, ih hrest⟩
        rcases mem_schedule.mp hj with rfl | hj
        · exact lt_of_le_of_ne (not_lt.mp hn) (Ne.symm hne)
        · exact hk j hj

/-- No node of a loop body is scheduled along with the head or a node before it. -/
def Guarded (s : Progress) (head last : Nat) : Prop :=
  ∀ y z : Nat, y ∈ s.worklist → z ∈ s.worklist → y ≤ head → ¬ (head < z ∧ z ≤ last)

end Progress

namespace Engine

variable {E : Engine} {s s' : Progress} {n : Nat} {node : Node} {state : List Partition}

lemma pairwise_step (hs : s.worklist.Pairwise (· < ·)) (h : E.step s = .ok (some s')) :
    s'.worklist.Pairwise (· < ·) := by
  rw [step] at h
  split at h
  · cases h
  · rename_i n rest hworklist
    rw [hworklist] at hs
    have hrest := (List.pairwise_cons.mp hs).2
    obtain ⟨s₁, hvisit, h⟩ := bind_eq_ok h
    cases h
    rw [visit] at hvisit
    split at hvisit
    · cases hvisit
      exact hrest
    · obtain ⟨state, _, hvisit⟩ := bind_eq_ok hvisit
      cases hvisit
      rw [store]
      split
      · exact hrest
      · exact List.foldlRecOn _ _ hrest fun worklist hsorted k _ =>
          Progress.pairwise_schedule hsorted k

lemma Visits.guarded (hgraph : E.graph.Sound) (h : E.Visits s s' n node state)
    (hsorted : s.worklist.Pairwise (· < ·)) {head last : Nat}
    (hloop : E.graph.IsLoop head last)
    (hguarded : s.Guarded head last) : s'.Guarded head last := by
  obtain ⟨rest, hworklist, hmem⟩ := h.worklist
  rw [Progress.Guarded, hworklist] at hguarded
  rw [hworklist] at hsorted
  have hleast : ∀ k : Nat, k ∈ rest → n < k := (List.pairwise_cons.mp hsorted).1
  have hcases : ∀ k : Nat, k ∈ s'.worklist → k ∈ rest ∨ (n, k) ∈ E.graph.edges := by
    intro k hk
    exact ((hmem k).mp hk).imp_right fun hk => (hgraph.succs n k).mp hk.2
  intro y z hy hz hyh hzh
  rcases hcases y hy with hy | hy
  · rcases hcases z hz with hz | hz
    · exact hguarded y z (List.mem_cons_of_mem _ hy) (List.mem_cons_of_mem _ hz) hyh hzh
    · have := hloop.entered n z hz hzh.1 hzh.2
      have := hleast y hy
      omega
  · rcases hcases z hz with hz | hz
    · have hnz := hleast z hz
      by_cases hn : n ≤ head
      · exact hguarded n z List.mem_cons_self (List.mem_cons_of_mem _ hz) hn hzh
      · have := hloop.left n y hy (not_le.mp hn) (hnz.le.trans hzh.2)
        omega
    · exact hloop.fork n y z hy hz hyh hzh

lemma guarded_initial (E : Engine) (head last : Nat) : E.initial.Guarded head last := by
  intro y z _ hz _ hzh
  have hz : z = 0 := List.mem_singleton.mp hz
  omega

end Engine

end Tracewise
