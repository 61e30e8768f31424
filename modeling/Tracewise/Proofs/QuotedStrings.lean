import Mathlib.Data.List.DropRight
import Mathlib.Tactic
import Tracewise.Analysis.Drawing

/-! The quoted strings of a drawing. A quote is written after a backslash, but a backslash stands
for itself, so a string may end where it is not meant to. -/

namespace Tracewise

namespace Text.Quoted

/-- Reads on inside a quoted string: what comes after the first quote that is not escaped. -/
def afterClosing? : List Char → Option (List Char)
  | '\\' :: '"' :: rest => afterClosing? rest
  | '\\' :: '\\' :: rest => afterClosing? rest
  | '"' :: rest => some rest
  | _ :: rest => afterClosing? rest
  | [] => none

@[simp] lemma afterClosing?_quote (rest : List Char) : afterClosing? ('"' :: rest) = some rest := by
  simp [afterClosing?]

@[simp] lemma afterClosing?_slash_quote (rest : List Char) :
    afterClosing? ('\\' :: '"' :: rest) = afterClosing? rest := by
  simp [afterClosing?]

@[simp] lemma afterClosing?_slash_slash (rest : List Char) :
    afterClosing? ('\\' :: '\\' :: rest) = afterClosing? rest := by
  simp [afterClosing?]

lemma afterClosing?_plain {c : Char} (hquote : c ≠ '"') (hslash : c ≠ '\\') (rest : List Char) :
    afterClosing? (c :: rest) = afterClosing? rest := by
  simp [afterClosing?, hslash]

lemma afterClosing?_slash_plain {c : Char} (hquote : c ≠ '"') (hslash : c ≠ '\\')
    (rest : List Char) : afterClosing? ('\\' :: c :: rest) = afterClosing? rest := by
  simp [afterClosing?, hquote, hslash]

lemma length_lt_of_afterClosing? {text rest : List Char} (h : afterClosing? text = some rest) :
    rest.length < text.length := by
  fun_induction afterClosing? text with
  | case1 text ih => grind
  | case2 text ih => grind
  | case3 text => grind
  | case4 c text _ _ _ ih => grind
  | case5 => cases h

def slashes (s : List Char) : Nat := (s.rtakeWhile (· = '\\')).length

@[simp] lemma slashes_nil : slashes [] = 0 := rfl

lemma slashes_snoc (s : List Char) (c : Char) :
    slashes (s ++ [c]) = if c = '\\' then slashes s + 1 else 0 := by
  simp only [slashes, List.rtakeWhile_concat, decide_eq_true_eq]
  split <;> simp

def carried (s : List Char) : List Char := if Even (slashes s) then [] else ['\\']

lemma carried_of_even {s : List Char} (h : Even (slashes s)) : carried s = [] := if_pos h

lemma carried_of_not_even {s : List Char} (h : ¬ Even (slashes s)) : carried s = ['\\'] := if_neg h

lemma carried_snoc_plain {c : Char} (h : c ≠ '\\') (s : List Char) : carried (s ++ [c]) = [] := by
  apply carried_of_even
  rw [slashes_snoc, if_neg h]
  exact Even.zero

lemma afterClosing?_escapeChar (s : List Char) (c : Char) (rest : List Char) :
    afterClosing? (carried s ++ (escapeChar c ++ rest)) =
      if c = '"' ∧ ¬ Even (slashes s) then some rest
      else afterClosing? (carried (s ++ [c]) ++ rest) := by
  by_cases hquote : c = '"'
  · subst hquote
    rw [carried_snoc_plain (by decide)]
    by_cases heven : Even (slashes s)
    · simp [escapeChar, carried_of_even heven, heven]
    · simp [escapeChar, carried_of_not_even heven, heven]
  · rw [if_neg fun h => hquote h.1, escapeChar, if_neg hquote, List.singleton_append]
    by_cases hslash : c = '\\'
    · subst hslash
      have hsnoc : slashes (s ++ ['\\']) = slashes s + 1 := by rw [slashes_snoc, if_pos rfl]
      by_cases heven : Even (slashes s)
      · have hodd : ¬ Even (slashes (s ++ ['\\'])) := by
          rw [hsnoc, Nat.even_add_one]
          exact not_not.mpr heven
        rw [carried_of_even heven, carried_of_not_even hodd]
        rfl
      · have heven' : Even (slashes (s ++ ['\\'])) := by
          rw [hsnoc, Nat.even_add_one]
          exact heven
        rw [carried_of_not_even heven, carried_of_even heven']
        exact afterClosing?_slash_slash rest
    · rw [carried_snoc_plain hslash, List.nil_append]
      by_cases heven : Even (slashes s)
      · rw [carried_of_even heven]
        exact afterClosing?_plain hquote hslash rest
      · rw [carried_of_not_even heven]
        exact afterClosing?_slash_plain hquote hslash rest

def GuardedAfter (before s : List Char) : Prop :=
  ∀ l r, s = l ++ '"' :: r → Even (slashes (before ++ l))

def Guarded (s : List Char) : Prop := ∀ l r, s = l ++ '"' :: r → Even (slashes l)

lemma guardedAfter_cons {before s : List Char} {c : Char} :
    GuardedAfter before (c :: s) ↔
      (c = '"' → Even (slashes before)) ∧ GuardedAfter (before ++ [c]) s := by
  constructor
  · intro h
    refine ⟨fun hc => ?_, fun l r hs => ?_⟩
    · simpa using h [] s (by rw [hc]; rfl)
    · simpa using h (c :: l) r (by rw [hs]; rfl)
  · rintro ⟨hc, hs⟩ l r h
    cases l with
    | nil =>
      rw [List.append_nil]
      exact hc (List.cons.inj h).1
    | cons x l =>
      obtain ⟨rfl, htail⟩ := List.cons.inj h
      simpa using hs l r htail

instance decidableGuardedAfter : (before s : List Char) → Decidable (GuardedAfter before s)
  | _, [] => isTrue fun l r h => absurd h (by simp)
  | before, c :: s =>
    have := decidableGuardedAfter (before ++ [c]) s
    decidable_of_iff _ guardedAfter_cons.symm

instance (s : List Char) : Decidable (Guarded s) := decidableGuardedAfter [] s

lemma afterClosing?_escape_of_guarded {before s : List Char} (h : GuardedAfter before s)
    (rest : List Char) :
    afterClosing? (carried before ++ (s.flatMap escapeChar ++ rest)) =
      afterClosing? (carried (before ++ s) ++ rest) := by
  induction s generalizing before with
  | nil => simp
  | cons c s ih =>
    obtain ⟨hc, hs⟩ := guardedAfter_cons.mp h
    rw [List.flatMap_cons, List.append_assoc, afterClosing?_escapeChar,
      if_neg fun hodd => hodd.2 (hc hodd.1), ih hs, List.append_assoc, List.singleton_append]

lemma afterClosing?_escape_of_not_guarded {before s : List Char} (h : ¬ GuardedAfter before s)
    (rest : List Char) :
    ∃ left, afterClosing? (carried before ++ (s.flatMap escapeChar ++ rest)) = some left ∧
      rest.length ≤ left.length := by
  induction s generalizing before with
  | nil => exact absurd (fun l r hs => absurd hs (by simp)) h
  | cons c s ih =>
    rw [List.flatMap_cons, List.append_assoc, afterClosing?_escapeChar]
    by_cases hodd : c = '"' ∧ ¬ Even (slashes before)
    · rw [if_pos hodd]
      exact ⟨_, rfl, by simp⟩
    · rw [if_neg hodd]
      apply ih
      intro hs
      apply h
      rw [guardedAfter_cons]
      exact ⟨fun hc => not_not.mp fun heven => hodd ⟨hc, heven⟩, hs⟩

lemma afterClosing?_separator (s rest : List Char) :
    afterClosing? (carried s ++ '\\' :: 'n' :: rest) = afterClosing? rest := by
  have hn : 'n' ≠ '"' := by decide
  have hn' : 'n' ≠ '\\' := by decide
  by_cases heven : Even (slashes s)
  · rw [carried_of_even heven]
    exact afterClosing?_slash_plain hn hn' rest
  · rw [carried_of_not_even heven]
    exact (afterClosing?_slash_slash _).trans (afterClosing?_plain hn hn' rest)

lemma afterClosing?_end (s rest : List Char) :
    afterClosing? (carried s ++ '"' :: rest) = some rest ↔ Even (slashes s) := by
  by_cases heven : Even (slashes s)
  · simp [carried_of_even heven, heven]
  · simp only [carried_of_not_even heven, heven, List.singleton_append, afterClosing?_slash_quote,
      iff_false]
    exact fun h => lt_irrefl _ (length_lt_of_afterClosing? h)

lemma afterClosing?_line {rest after : List Char} (h : after.length < rest.length) (line : String) :
    afterClosing? ((escape line).toList ++ rest) = some after ↔
      Guarded line.toList ∧ afterClosing? (carried line.toList ++ rest) = some after := by
  rw [escape, String.toList_ofList]
  change _ ↔ GuardedAfter [] line.toList ∧ _
  by_cases hguarded : GuardedAfter [] line.toList
  · rw [and_iff_right hguarded]
    exact Eq.congr_left (afterClosing?_escape_of_guarded hguarded rest)
  · obtain ⟨left, hread, hleft⟩ := afterClosing?_escape_of_not_guarded hguarded rest
    simp only [hguarded, false_and, iff_false]
    intro hafter
    cases hread.symm.trans hafter
    omega

/-- Lines that a quoted string can hold. Only the last of them is followed by a quote. -/
def Sealed (lines : List String) : Prop :=
  (∀ line ∈ lines, Guarded line.toList) ∧ ∀ line ∈ lines.getLast?, Even (slashes line.toList)

instance (lines : List String) : Decidable (Sealed lines) := inferInstanceAs (Decidable (_ ∧ _))

theorem afterClosing?_lines (lines : List String) (after : List Char) :
    afterClosing? ((String.intercalate "\\n" (lines.map escape)).toList ++ '"' :: after) =
      some after ↔ Sealed lines := by
  induction lines with
  | nil => simp [Sealed]
  | cons line lines ih =>
    cases lines with
    | nil =>
      rw [List.map_singleton, String.intercalate_singleton, afterClosing?_line (by simp),
        afterClosing?_end]
      simp [Sealed]
    | cons next lines =>
      have hsealed : Sealed (line :: next :: lines) ↔
          Guarded line.toList ∧ Sealed (next :: lines) := by
        simp [Sealed, and_assoc]
      rw [List.map_cons, List.map_cons, String.intercalate_cons_cons, ← List.map_cons,
        String.toList_append, String.toList_append, List.append_assoc, List.append_assoc,
        afterClosing?_line (by simp; omega), hsealed, ← ih]
      exact and_congr_right fun _ => Eq.congr_left (afterClosing?_separator line.toList _)

end Text.Quoted

open Text.Quoted

structure Quotation where
  before : String
  lines : List String
  after : String

namespace Quotation

def body (q : Quotation) : String := String.intercalate "\\n" (q.lines.map escape)

def text (q : Quotation) : String := q.before ++ quote q.body ++ q.after

def Closed (q : Quotation) : Prop :=
  afterClosing? (q.body ++ "\"" ++ q.after).toList = some q.after.toList

lemma closed_iff (q : Quotation) : q.Closed ↔ Sealed q.lines := by
  rw [Closed, String.toList_append, String.toList_append, List.append_assoc]
  exact afterClosing?_lines q.lines q.after.toList

end Quotation

namespace DrawingStyle

variable (style : DrawingStyle) (findings : List Finding)

def notes (n : Node) : List String :=
  (findings.filter (·.trace.contains n.id)).map Finding.message

def labelLines (n : Node) : List String :=
  n.name :: ((n.atom.map Atom.text).toList ++ notes findings n)

def attributes (n : Node) : String :=
  (if style.shape n = style.nodeShape then "" else ", shape=" ++ style.shape n) ++
    (if (notes findings n).isEmpty then "" else ", color=" ++ style.findingColor) ++ "];\n"

lemma nodeLine_eq (n : Node) :
    style.nodeLine findings n = NodeId.text n.id ++ " [label=" ++
      style.label n (notes findings n) ++ style.attributes findings n := by
  rw [nodeLine, attributes]
  simp only [String.append_assoc]
  rfl

end DrawingStyle

namespace Graph

variable {g : Graph} {style : DrawingStyle} {findings : List Finding}

def drawNodes (style : DrawingStyle) (findings : List Finding) (nodes : List Node) : String :=
  "node [shape=" ++ style.nodeShape ++ "];\n" ++ String.join (nodes.map (style.nodeLine findings))

def drawEdges (g : Graph) : String := String.join (g.edges.toList.map edgeLine) ++ "\x7d\n"

inductive Quotes (g : Graph) (style : DrawingStyle) (findings : List Finding) : Quotation → Prop
  | name : Quotes g style findings ⟨"digraph ", [g.program.name],
      " \x7b\n" ++ drawNodes style findings g.nodes.toList ++ g.drawEdges⟩
  | label {l r : List Node} {n : Node} : style.markup = false → g.nodes.toList = l ++ n :: r →
      Quotes g style findings
        ⟨"digraph " ++ quote (escape g.program.name) ++ " \x7b\n" ++ drawNodes style findings l ++
            NodeId.text n.id ++ " [label=",
          DrawingStyle.labelLines findings n,
          style.attributes findings n ++ String.join (r.map (style.nodeLine findings)) ++
            g.drawEdges⟩

-- unfolded by `delta`: the equations of these definitions are slow to derive
lemma draw_eq (g : Graph) (style : DrawingStyle) (findings : List Finding) :
    g.draw style findings = "digraph " ++ quote (escape g.program.name) ++ " \x7b\n" ++
      drawNodes style findings g.nodes.toList ++ g.drawEdges := by
  delta draw drawNodes drawEdges
  simp only [String.append_assoc]

lemma drawNodes_append (l r : List Node) (n : Node) :
    drawNodes style findings (l ++ n :: r) = drawNodes style findings l ++
      style.nodeLine findings n ++ String.join (r.map (style.nodeLine findings)) := by
  delta drawNodes
  simp only [List.map_append, List.map_cons, String.join_append, String.join_cons,
    String.append_assoc]

lemma Quotes.text_eq {q : Quotation} (h : g.Quotes style findings q) :
    q.text = g.draw style findings := by
  cases h with
  | name => simp only [draw_eq, Quotation.text, Quotation.body, List.map_singleton,
      String.intercalate_singleton, String.append_assoc]
  | @label l r n hmarkup hnodes =>
    have hlabel : style.label n (DrawingStyle.notes findings n) =
        quote (String.intercalate "\\n" ((DrawingStyle.labelLines findings n).map escape)) := by
      rw [DrawingStyle.label, hmarkup]
      rfl
    simp only [draw_eq, hnodes, drawNodes_append, DrawingStyle.nodeLine_eq, hlabel, Quotation.text,
      Quotation.body, String.append_assoc]

theorem quoted_strings_closed_iff {q : Quotation} (h : g.Quotes style findings q) :
    q.text = g.draw style findings ∧ (q.Closed ↔ Sealed q.lines) :=
  ⟨h.text_eq, q.closed_iff⟩

end Graph

namespace Slogan

def x : Ident := ⟨⟨0⟩, "x"⟩

def setX (text : String) : Atom := .assign x (.lit ⟨⟨0⟩, some "slogan"⟩ text)

def program (name text : String) : Program :=
  ⟨name, #[⟨⟨0⟩, "x", some "slogan", none⟩], .atom (setX text) .done⟩

def plain : DrawingStyle := { DrawingStyle.default with markup := false }

def node (text : String) : Node := ⟨1, "assign0", false, some (setX text)⟩

lemma exists_label (name text : String) :
    ∃ q, (Graph.ofProgram (program name text)).Quotes plain [] q ∧
      q.lines = ["assign0", "x = " ++ text] := by
  have hnodes : (Graph.ofProgram (program name text)).nodes.toList =
      [⟨0, "start0", false, none⟩] ++ node text :: [] := by
    have hzero : Nat.repr 0 = "0" := by decide
    simp [Graph.ofProgram, Draft.ofBlock, program, Draft.lower, Draft.addNode, Draft.link,
      Draft.empty, NameSupply.empty, NameSupply.fresh, NameSupply.draw, NameSupply.count,
      List.lookup_cons, Atom.nodeKind, setX, node, hzero]
  exact ⟨_, .label rfl hnodes, rfl⟩

theorem slogan_closed :
    ∃ q, (Graph.ofProgram (program "p" "\\\\\"red\"\\\\")).Quotes plain [] q ∧
      q.lines = ["assign0", "x = \\\\\"red\"\\\\"] ∧
      q.text = (Graph.ofProgram (program "p" "\\\\\"red\"\\\\")).draw plain [] ∧ q.Closed := by
  obtain ⟨q, hq, hlines⟩ := exists_label "p" "\\\\\"red\"\\\\"
  obtain ⟨htext, hclosed⟩ := Graph.quoted_strings_closed_iff hq
  refine ⟨q, hq, hlines, htext, hclosed.mpr ?_⟩
  rw [hlines]
  decide +kernel

theorem slogans_left_open :
    (∃ q, (Graph.ofProgram (program "a\\" "red")).Quotes .default [] q ∧ ¬ q.Closed) ∧
      ∃ q, (Graph.ofProgram (program "p" "\\\"")).Quotes plain [] q ∧ ¬ q.Closed := by
  constructor
  · refine ⟨_, .name, ?_⟩
    rw [Quotation.closed_iff]
    decide +kernel
  · obtain ⟨q, hq, hlines⟩ := exists_label "p" "\\\""
    refine ⟨q, hq, ?_⟩
    rw [q.closed_iff, hlines]
    decide +kernel

end Slogan

end Tracewise
