import Mathlib.Tactic
import Tracewise.Analysis.Drawing

namespace Tracewise.Text.Markup

def marks : List Char := ['<', '>', '"']

def entities : List String := ["&amp;", "&lt;", "&gt;", "&quot;"]

def decode : List Char → List Char
  | '&' :: 'a' :: 'm' :: 'p' :: ';' :: rest => '&' :: decode rest
  | '&' :: 'l' :: 't' :: ';' :: rest => '<' :: decode rest
  | '&' :: 'g' :: 't' :: ';' :: rest => '>' :: decode rest
  | '&' :: 'q' :: 'u' :: 'o' :: 't' :: ';' :: rest => '"' :: decode rest
  | c :: rest => c :: decode rest
  | [] => []

def unescape (t : String) : String := String.ofList (decode t.toList)

/-- A text without markup, in which every ampersand starts an entity. -/
structure Escaped (t : List Char) : Prop where
  unmarked : ∀ m ∈ marks, m ∉ t
  ampersands : ∀ r, '&' :: r <:+ t → ∃ e ∈ entities, e.toList <+: '&' :: r

variable {c : Char} {l t r : List Char}

lemma entity_of_plain (hamp : c ≠ '&') (h : c ∉ marks) : entity c = [c] := by
  simp only [marks, List.mem_cons, List.not_mem_nil, or_false, not_or] at h
  simp [entity, h]

lemma entity_of_special : ∀ c ∈ '&' :: marks, (entity c).head? = some '&' ∧ '&' ∉ (entity c).tail ∧
    (∀ m ∈ marks, m ∉ entity c) ∧ String.ofList (entity c) ∈ entities := by
  intro c hc
  simp only [marks, List.mem_cons, List.not_mem_nil, or_false] at hc
  rcases hc with rfl | rfl | rfl | rfl <;>
    exact ⟨rfl, by simp [entity], by simp [marks, entity], by decide⟩

lemma entity_cases (c : Char) : (c ≠ '&' ∧ c ∉ marks ∧ entity c = [c]) ∨
    ∃ e ∈ entities, ∃ tail, e.toList = '&' :: tail ∧ entity c = '&' :: tail ∧ '&' ∉ tail ∧
      ∀ m ∈ marks, m ∉ entity c := by
  by_cases h : c ∈ '&' :: marks
  · obtain ⟨hhead, htail, hmarks, hentity⟩ := entity_of_special c h
    obtain ⟨tail, heq⟩ := List.head?_eq_some_iff.mp hhead
    rw [heq] at htail
    exact Or.inr ⟨_, hentity, tail, by rw [String.toList_ofList, heq], heq, htail, hmarks⟩
  · rw [List.mem_cons, not_or] at h
    exact Or.inl ⟨h.1, h.2, entity_of_plain h.1 h.2⟩

lemma suffix_of_suffix_append (hc : c ∉ l) (h : c :: r <:+ l ++ t) : c :: r <:+ t := by
  induction l with
  | nil => exact h
  | cons x l ih =>
    rw [List.mem_cons, not_or] at hc
    rcases List.suffix_cons_iff.mp h with heq | h
    · exact absurd (List.cons.inj heq).1 hc.1
    · exact ih hc.2 h

lemma escaped_nil : Escaped [] := ⟨fun _ _ => List.not_mem_nil, by simp⟩

lemma Escaped.entity_append (h : Escaped t) (c : Char) : Escaped (entity c ++ t) := by
  rcases entity_cases c with ⟨hamp, hmark, heq⟩ | ⟨e, he, tail, hchars, heq, htail, hmarks⟩
  · rw [heq]
    refine ⟨fun m hm hmem => ?_, fun r hr => ?_⟩
    · rcases List.mem_cons.mp hmem with rfl | hmem
      · exact hmark hm
      · exact h.unmarked m hm hmem
    · rcases List.suffix_cons_iff.mp hr with heq | hr
      · exact absurd (List.cons.inj heq).1.symm hamp
      · exact h.ampersands r hr
  · refine ⟨fun m hm hmem => ?_, fun r hr => ?_⟩
    · rcases List.mem_append.mp hmem with hmem | hmem
      · exact hmarks m hm hmem
      · exact h.unmarked m hm hmem
    · rw [heq, List.cons_append, List.suffix_cons_iff] at hr
      rcases hr with hr | hr
      · exact ⟨e, he, t, by rw [hchars, hr, List.cons_append]⟩
      · exact h.ampersands r (suffix_of_suffix_append htail hr)

lemma escaped_flatMap_entity (s : List Char) : Escaped (s.flatMap entity) := by
  induction s with
  | nil => exact escaped_nil
  | cons c s ih => exact ih.entity_append c

lemma decode_entity_append (c : Char) (t : List Char) : decode (entity c ++ t) = c :: decode t := by
  by_cases hamp : c = '&'
  · subst hamp
    simp [entity, decode]
  by_cases hmark : c ∈ marks
  · simp only [marks, List.mem_cons, List.not_mem_nil, or_false] at hmark
    rcases hmark with rfl | rfl | rfl <;> simp [entity, decode]
  · simp [entity_of_plain hamp hmark, decode, hamp]

lemma decode_flatMap_entity (s : List Char) : decode (s.flatMap entity) = s := by
  induction s with
  | nil => rfl
  | cons c s ih => rw [List.flatMap_cons, decode_entity_append, ih]

lemma Escaped.of_suffix (h : Escaped t) (hr : r <:+ t) : Escaped r where
  unmarked m hm hmem := h.unmarked m hm (hr.subset hmem)
  ampersands r' hr' := h.ampersands r' (hr'.trans hr)

lemma Escaped.flatMap_entity_decode (h : Escaped t) : (decode t).flatMap entity = t := by
  fun_induction decode t with
  | case1 rest ih => rw [List.flatMap_cons, ih (h.of_suffix ⟨entity '&', rfl⟩)]; rfl
  | case2 rest ih => rw [List.flatMap_cons, ih (h.of_suffix ⟨entity '<', rfl⟩)]; rfl
  | case3 rest ih => rw [List.flatMap_cons, ih (h.of_suffix ⟨entity '>', rfl⟩)]; rfl
  | case4 rest ih => rw [List.flatMap_cons, ih (h.of_suffix ⟨entity '"', rfl⟩)]; rfl
  | case5 c rest hamp hlt hgt hquote ih =>
    have hplain : c ≠ '&' := by
      rintro rfl
      obtain ⟨e, he, rest', hrest⟩ := h.ampersands rest (List.suffix_refl _)
      simp only [entities, List.mem_cons, List.not_mem_nil, or_false] at he
      rcases he with rfl | rfl | rfl | rfl
      · exact hamp rest' rfl (List.cons.inj hrest).2.symm
      · exact hlt rest' rfl (List.cons.inj hrest).2.symm
      · exact hgt rest' rfl (List.cons.inj hrest).2.symm
      · exact hquote rest' rfl (List.cons.inj hrest).2.symm
    have hmark : c ∉ marks := fun hc => h.unmarked c hc List.mem_cons_self
    rw [List.flatMap_cons, entity_of_plain hplain hmark, ih (h.of_suffix (List.suffix_cons c rest))]
    rfl
  | case6 => rfl

lemma escape_eq_iff {s t : String} : escape s = t ↔ Escaped t.toList ∧ unescape t = s := by
  constructor
  · rintro rfl
    rw [unescape, escape, String.toList_ofList, decode_flatMap_entity, String.ofList_toList]
    exact ⟨escaped_flatMap_entity s.toList, rfl⟩
  · rintro ⟨ht, rfl⟩
    rw [escape, unescape, String.toList_ofList, ht.flatMap_entity_decode, String.ofList_toList]

theorem escaped_texts_decode :
    (∀ s : String, Escaped (escape s).toList ∧ unescape (escape s) = s) ∧
      Function.Injective escape ∧
      ∀ t : String, Escaped t.toList → escape (unescape t) = t := by
  have hdecode (s : String) : Escaped (escape s).toList ∧ unescape (escape s) = s :=
    escape_eq_iff.mp rfl
  refine ⟨hdecode, fun s s' h => ?_, fun t ht => escape_eq_iff.mpr ⟨ht, rfl⟩⟩
  rw [← (hdecode s).2, h, (hdecode s').2]

theorem escaped_entity_decodes :
    Escaped "&amp;lt; &lt;".toList ∧ unescape "&amp;lt; &lt;" = "&lt; <" ∧
      escape (unescape "&amp;lt; &lt;") = "&amp;lt; &lt;" := by
  have heq : escape "&lt; <" = "&amp;lt; &lt;" := by decide
  obtain ⟨hdecode, -, hescape⟩ := escaped_texts_decode
  obtain ⟨hescaped, htext⟩ := hdecode "&lt; <"
  rw [heq] at hescaped htext
  exact ⟨hescaped, htext, hescape _ hescaped⟩

end Tracewise.Text.Markup
