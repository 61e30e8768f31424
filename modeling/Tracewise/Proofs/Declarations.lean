import Tracewise.Proofs.Workshop

/-! The declarations of a builder. Each gets a larger identity than all that were made before it, by
any builder, so halving finds every one of them. -/

namespace Tracewise

namespace Decl

def Ascending (decls : Array Decl) : Prop := decls.toList.Pairwise fun d d' => d.id.val < d'.id.val

section

variable {decls : Array Decl} {id : VarId} {d : Decl}

lemma Ascending.lt (h : Ascending decls) {i j : Nat} {d d' : Decl} (hi : decls[i]? = some d)
    (hj : decls[j]? = some d') (hij : i < j) : d.id.val < d'.id.val := by
  rw [← Array.getElem?_toList] at hi hj
  obtain ⟨hisize, rfl⟩ := List.getElem?_eq_some_iff.mp hi
  obtain ⟨hjsize, rfl⟩ := List.getElem?_eq_some_iff.mp hj
  exact List.pairwise_iff_getElem.mp h i j hisize hjsize hij

lemma bisect_of_ascending (h : Ascending decls) {fuel lo hi k : Nat} (hk : decls[k]? = some d)
    (hlo : lo ≤ k) (hhi : k < hi) (hsize : hi ≤ decls.size) (hfuel : hi ≤ lo + fuel) :
    bisect decls d.id fuel lo hi = some d := by
  induction fuel generalizing lo hi with
  | zero => omega
  | succ fuel ih =>
    have hmid : (lo + hi) / 2 < decls.size := by omega
    obtain ⟨d', hd'⟩ : ∃ d', decls[(lo + hi) / 2]? = some d' :=
      ⟨_, Array.getElem?_eq_getElem hmid⟩
    rw [bisect, if_pos (lt_of_le_of_lt hlo hhi)]
    simp only [hd']
    rcases lt_trichotomy ((lo + hi) / 2) k with hlt | heq | hgt
    · have hless := h.lt hd' hk hlt
      rw [if_neg fun hid => UInt32.lt_irrefl _ (hid ▸ hless), if_pos hless]
      exact ih hlt hhi hsize (by omega)
    · rw [heq, hk] at hd'
      rw [← Option.some.inj hd', if_pos rfl]
    · have hless := h.lt hk hd' hgt
      rw [if_neg fun hid => UInt32.lt_irrefl _ (hid ▸ hless),
        if_neg fun hmore => UInt32.lt_irrefl _ (UInt32.lt_trans hless hmore)]
      exact ih hlo hgt (by omega) (by omega)

lemma find?_eq_some_iff (h : Ascending decls) : find? decls id = some d ↔ d ∈ decls ∧ d.id = id := by
  constructor
  · exact mem_of_bisect
  · rintro ⟨hd, rfl⟩
    obtain ⟨k, hk⟩ := Array.mem_iff_getElem?.mp hd
    obtain ⟨hlt, _⟩ := Array.getElem?_eq_some_iff.mp hk
    exact bisect_of_ascending h hk (Nat.zero_le k) hlt le_rfl (Nat.zero_add _).ge

end

end Decl

namespace Workshop

lemma ascending_step {w w' : Workshop} (hw : w.Orderly) (h : ∀ b ∈ w.builders, Decl.Ascending b.decls)
    (hstep : w.Step w') : ∀ b ∈ w'.builders, Decl.Ascending b.decls := by
  cases hstep with
  | builder name =>
    intro b hb
    rcases List.mem_append.mp hb with hb | hb
    · exact h b hb
    · rw [List.mem_singleton.mp hb]
      exact List.Pairwise.nil
  | @var before b after b' name hint purpose v supply hbuilders hroom hrun =>
    cases hrun
    have hmem : ∀ c, c ∈ before ∨ c = b ∨ c ∈ after → c ∈ w.builders := by
      intro c hc
      rw [hbuilders, List.mem_append, List.mem_cons]
      exact hc
    intro c hc
    rw [List.mem_append, List.mem_cons] at hc
    rcases hc with hc | rfl | hc
    · exact h c (hmem c (.inl hc))
    · have hb := hmem b (.inr (.inl rfl))
      rw [Decl.Ascending, Array.toList_push, List.pairwise_append]
      refine ⟨h b hb, List.pairwise_singleton _ _, fun d hd d' hd' => ?_⟩
      rw [List.mem_singleton.mp hd']
      exact hw.decls.lt d (mem_decls.mpr ⟨b, hb, Array.mem_toList_iff.mp hd⟩)
    · exact h c (hmem c (.inr (.inr hc)))
  | expr _ _ _ => exact h

lemma Reachable.ascending {w : Workshop} (h : w.Reachable) :
    ∀ b ∈ w.builders, Decl.Ascending b.decls := by
  induction h with
  | refl => exact nofun
  | tail hreached hstep ih => exact ascending_step (Reachable.orderly hreached) ih hstep

end Workshop

end Tracewise
