import Mathlib.Tactic
import Tracewise.Program.Expr

/-! Texts of expressions. Parentheses around operands with a binary operator of their own are
enough: two expressions over words are printed alike only if they are the same tree. -/

namespace Tracewise

namespace Text

def isWordChar (c : Char) : Bool := c.isAlphanum || c == '_' || 128 ≤ c.toNat

structure IsWord (s : String) : Prop where
  nonempty : s ≠ ""
  chars : s.toList.all isWordChar = true

instance (s : String) : Decidable (IsWord s) :=
  decidable_of_iff (s ≠ "" ∧ s.toList.all isWordChar = true)
    ⟨fun h => ⟨h.1, h.2⟩, fun h => ⟨h.1, h.2⟩⟩

lemma IsWord.exists_cons {s : String} (h : IsWord s) :
    ∃ c cs, s.toList = c :: cs ∧ isWordChar c = true := by
  cases hs : s.toList with
  | nil => exact absurd (String.toList_eq_nil_iff.mp hs) h.nonempty
  | cons c cs =>
    have hchars := h.chars
    rw [hs, List.all_cons, Bool.and_eq_true] at hchars
    exact ⟨c, cs, rfl, hchars.1⟩

def Stops (p : Char → Bool) (r : List Char) : Prop := ∀ c ∈ r.head?, p c = false

@[simp] lemma stops_nil (p : Char → Bool) : Stops p [] := by simp [Stops]

@[simp] lemma stops_cons {p : Char → Bool} {c : Char} {r : List Char} :
    Stops p (c :: r) ↔ p c = false := by
  simp [Stops]

lemma stops_blank (r : List Char) : Stops isWordChar (' ' :: r) := stops_cons.mpr (by decide)

lemma stops_parenthesis (r : List Char) : Stops isWordChar (')' :: r) := stops_cons.mpr (by decide)

lemma takeWhile_of_stops {p : Char → Bool} {w r : List Char} (hw : w.all p = true)
    (hr : Stops p r) : (w ++ r).takeWhile p = w := by
  rw [List.takeWhile_append_of_pos (List.all_eq_true.mp hw)]
  cases r with
  | nil => simp
  | cons c r => simp [stops_cons.mp hr]

lemma append_inj_of_stops {p : Char → Bool} {w w' r r' : List Char} (hw : w.all p = true)
    (hw' : w'.all p = true) (hr : Stops p r) (hr' : Stops p r') (h : w ++ r = w' ++ r') :
    w = w' ∧ r = r' := by
  have hwords := congrArg (List.takeWhile p) h
  rw [takeWhile_of_stops hw hr, takeWhile_of_stops hw' hr'] at hwords
  subst hwords
  exact ⟨rfl, List.append_cancel_left h⟩

end Text

open Text

lemma BinOp.symbol_injective : Function.Injective symbol := by
  have hall : ∀ op ∈ all, ∀ op' ∈ all, op.symbol = op'.symbol → op = op' := by decide
  have hmem (op : BinOp) : op ∈ all := by cases op <;> decide
  exact fun op op' => hall op (hmem op) op' (hmem op')

lemma BinOp.all_symbol (op : BinOp) : op.symbol.toList.all (· != ' ') = true := by
  cases op <;> rfl

/-- An expression without the identities and hints of its nodes, and without the variables that its
names refer to. -/
inductive Outline
  | leaf (word : String)
  | unary (op : UnOp) (x : Outline)
  | binary (op : BinOp) (l r : Outline)
deriving DecidableEq

def Expr.outline : Expr → Outline
  | ident _ v => .leaf v.name
  | lit _ t => .leaf t
  | unary _ op x => .unary op x.outline
  | binary _ op l r => .binary op l.outline r.outline

namespace Outline

def Worded : Outline → Prop
  | leaf w => IsWord w
  | unary _ x => x.Worded
  | binary _ l r => l.Worded ∧ r.Worded

def decideWorded : (o : Outline) → Decidable o.Worded
  | leaf w => inferInstanceAs (Decidable (IsWord w))
  | unary _ x => x.decideWorded
  | binary _ l r => @instDecidableAnd _ _ l.decideWorded r.decideWorded

instance : DecidablePred Worded := decideWorded

def operand : Outline → List Char
  | leaf w => w.toList
  | unary op x => op.symbol.toList ++ x.operand
  | binary op l r =>
    '(' :: (l.operand ++ ' ' :: (op.symbol.toList ++ ' ' :: (r.operand ++ [')'])))

def text : Outline → List Char
  | leaf w => w.toList
  | unary op x => op.symbol.toList ++ x.operand
  | binary op l r => l.operand ++ ' ' :: (op.symbol.toList ++ ' ' :: r.operand)

lemma operand_binary (op : BinOp) (l r : Outline) :
    (binary op l r).operand = '(' :: ((binary op l r).text ++ [')']) := by
  simp [operand, text]

end Outline

namespace Expr

lemma toList_enclosed (e : Expr) :
    (enclosed e.isCompound e.text).toList = e.outline.operand := by
  induction e with
  | ident _ v => simp [enclosed, isCompound, text, outline, Outline.operand]
  | lit _ t => simp [enclosed, isCompound, text, outline, Outline.operand]
  | unary _ op x ih => simp [enclosed, isCompound, text, outline, Outline.operand, ← ih]
  | binary _ op l r ihl ihr =>
    simp [enclosed, isCompound, text, outline, Outline.operand, ← ihl, ← ihr]

lemma toList_text (e : Expr) : e.text.toList = e.outline.text := by
  cases e with
  | ident _ v => simp [text, outline, Outline.text]
  | lit _ t => simp [text, outline, Outline.text]
  | unary _ op x => simp [text, outline, Outline.text, ← toList_enclosed]
  | binary _ op l r => simp [text, outline, Outline.text, ← toList_enclosed]

end Expr

namespace Outline

variable {o o' : Outline} {r r' : List Char}

def lead : Outline → Option Char
  | leaf _ => none
  | unary op _ => op.symbol.toList.head?
  | binary .. => some '('

lemma head?_operand (ho : o.Worded) (r : List Char) :
    ∃ c ∈ (o.operand ++ r).head?, o.lead = if isWordChar c then none else some c := by
  cases o with
  | leaf w =>
    obtain ⟨c, cs, hcs, hc⟩ := IsWord.exists_cons ho
    exact ⟨c, by simp [operand, hcs], by simp [lead, hc]⟩
  | unary op x =>
    cases op with
    | not => exact ⟨'!', rfl, rfl⟩
    | neg => exact ⟨'-', rfl, rfl⟩
  | binary op l r => exact ⟨'(', rfl, rfl⟩

lemma lead_eq_lead (ho : o.Worded) (ho' : o'.Worded) (h : o.operand ++ r = o'.operand ++ r') :
    o.lead = o'.lead := by
  obtain ⟨c, hc, hlead⟩ := head?_operand ho r
  obtain ⟨c', hc', hlead'⟩ := head?_operand ho' r'
  rw [h] at hc
  rw [hlead, hlead', Option.mem_unique hc hc']

lemma operand_append_inj (ho : o.Worded) (ho' : o'.Worded) (hr : Stops isWordChar r)
    (hr' : Stops isWordChar r') (h : o.operand ++ r = o'.operand ++ r') : o = o' ∧ r = r' := by
  induction o generalizing o' r r' with
  | leaf w =>
    have hlead := lead_eq_lead ho ho' h
    cases o' with
    | leaf w' =>
      obtain ⟨hword, hrest⟩ := append_inj_of_stops (IsWord.chars ho) (IsWord.chars ho') hr hr' h
      exact ⟨congrArg leaf (String.toList_inj.mp hword), hrest⟩
    | unary op' x' => cases op' <;> simp [lead, UnOp.symbol] at hlead
    | binary op' l' right' => simp [lead] at hlead
  | unary op x ih =>
    have hlead := lead_eq_lead ho ho' h
    cases o' with
    | leaf w' => cases op <;> simp [lead, UnOp.symbol] at hlead
    | unary op' x' =>
      obtain rfl : op = op' := by cases op <;> cases op' <;> simp [lead, UnOp.symbol] at hlead ⊢
      simp only [operand, List.append_assoc, List.append_cancel_left_eq] at h
      obtain ⟨hx, hrest⟩ := ih ho (show x'.Worded from ho') hr hr' h
      exact ⟨congrArg (unary op) hx, hrest⟩
    | binary op' l' right' => cases op <;> simp [lead, UnOp.symbol] at hlead
  | binary op l right ihl ihr =>
    have hlead := lead_eq_lead ho ho' h
    cases o' with
    | leaf w' => simp [lead] at hlead
    | unary op' x' => cases op' <;> simp [lead, UnOp.symbol] at hlead
    | binary op' l' right' =>
      simp only [operand, List.cons_append, List.append_assoc, List.cons.injEq, true_and] at h
      obtain ⟨hl, hop⟩ := ihl ho.1 ho'.1 (stops_blank _) (stops_blank _) h
      obtain ⟨hsymbol, hright⟩ := append_inj_of_stops op.all_symbol op'.all_symbol (by simp)
        (by simp) (List.cons.inj hop).2
      obtain ⟨hright, hrest⟩ := ihr ho.2 ho'.2 (stops_parenthesis r) (stops_parenthesis r')
        (List.cons.inj hright).2
      have hop := BinOp.symbol_injective (String.toList_inj.mp hsymbol)
      exact ⟨by rw [hl, hop, hright], (List.cons.inj hrest).2⟩

lemma text_ne_binary {op : BinOp} {l right : Outline} (ho : o.Worded) (hl : l.Worded)
    (h : o.text = o.operand) : o.text ≠ (binary op l right).text := by
  intro htext
  have hends : o.operand ++ [] =
      l.operand ++ ' ' :: (op.symbol.toList ++ ' ' :: right.operand) := by
    rw [List.append_nil, ← h, htext, text]
  obtain ⟨-, hrest⟩ := operand_append_inj ho hl (stops_nil _) (stops_blank _) hends
  exact List.cons_ne_nil _ _ hrest.symm

lemma text_eq_operand_or (o : Outline) : o.text = o.operand ∨ ∃ op l r, o = binary op l r := by
  cases o with
  | leaf w => exact Or.inl rfl
  | unary op x => exact Or.inl rfl
  | binary op l r => exact Or.inr ⟨op, l, r, rfl⟩

lemma text_inj (ho : o.Worded) (ho' : o'.Worded) (h : o.text = o'.text) : o = o' := by
  suffices hoperand : o.operand = o'.operand by
    apply (operand_append_inj ho ho' (stops_nil _) (stops_nil _) _).1
    rw [hoperand]
  rcases o.text_eq_operand_or with hplain | ⟨op, l, r, rfl⟩
  · rcases o'.text_eq_operand_or with hplain' | ⟨op', l', r', rfl⟩
    · rw [← hplain, ← hplain', h]
    · exact absurd h (text_ne_binary ho ho'.1 hplain)
  · rcases o'.text_eq_operand_or with hplain' | ⟨op', l', r', rfl⟩
    · exact absurd h.symm (text_ne_binary ho' ho.1 hplain')
    · rw [operand_binary, operand_binary, h]

end Outline

namespace Expr

theorem text_eq_text_iff {e e' : Expr} (he : e.outline.Worded) (he' : e'.outline.Worded) :
    e.text = e'.text ↔ e.outline = e'.outline := by
  rw [← String.toList_inj, toList_text, toList_text]
  exact ⟨Outline.text_inj he he', congrArg Outline.text⟩

def negatedMinus : Expr :=
  .binary ⟨⟨3⟩, some "int"⟩ .sub (.unary ⟨⟨1⟩, none⟩ .neg (.ident ⟨⟨0⟩, some "int"⟩ ⟨⟨0⟩, "x_1"⟩))
    (.lit ⟨⟨2⟩, some "int"⟩ "2")

def minusNegated : Expr :=
  .unary ⟨⟨3⟩, some "int"⟩ .neg (.binary ⟨⟨2⟩, none⟩ .sub (.lit ⟨⟨0⟩, none⟩ "x_1")
    (.lit ⟨⟨1⟩, none⟩ "2"))

theorem negations_printed_apart :
    negatedMinus.outline.Worded ∧ minusNegated.outline.Worded ∧
      negatedMinus.text ≠ minusNegated.text := by
  have he : negatedMinus.outline.Worded := by decide
  have he' : minusNegated.outline.Worded := by decide
  exact ⟨he, he', fun h => absurd ((text_eq_text_iff he he').mp h) (by decide)⟩

end Expr

end Tracewise
