import Tracewise.Model.Builder
import Tracewise.Proofs.Evaluation

namespace Tracewise

open Fallible

structure ModelCache.Agrees (c : ModelCache) (b : ModelBuilder) : Prop where
  hints : ∀ hint answer, c.hints.lookup hint = some answer → answer = b.typer hint
  types : ∀ type answer, c.types.lookup type = some answer → answer = b.interpreter type

namespace ModelBuilder

variable {α β : Type} {b : ModelBuilder}

def Answers (b : ModelBuilder) (x : Asking α) (r : Except ModelError α) : Prop :=
  ∀ c : ModelCache, c.Agrees b → (x.run.run c).1 = r ∧ (x.run.run c).2.Agrees b

lemma answers_pure (a : α) : b.Answers (pure a) (pure a) := fun _ hc => ⟨rfl, hc⟩

lemma answers_throw (e : ModelError) : b.Answers (throw e : Asking α) (.error e) :=
  fun _ hc => ⟨rfl, hc⟩

lemma Answers.bind {x : Asking α} {r : Except ModelError α} {f : α → Asking β}
    {g : α → Except ModelError β} (hx : b.Answers x r)
    (hf : ∀ a, r = .ok a → b.Answers (f a) (g a)) : b.Answers (x >>= f) (r >>= g) := by
  intro c hc
  obtain ⟨rfl, hc'⟩ := hx c hc
  rcases hrun : x.run.run c with ⟨result, c'⟩
  rw [hrun] at hc'
  rw [ExceptT.run_bind, StateT.run_bind, hrun]
  cases result with
  | error e => exact ⟨rfl, hc'⟩
  | ok a => exact hf a (by rw [hrun]) c' hc'

lemma Answers.bind_ok {x : Asking α} {a : α} {f : α → Asking β} {r : Except ModelError β}
    (hx : b.Answers x (.ok a)) (hf : b.Answers (f a) r) : b.Answers (x >>= f) r :=
  hx.bind (g := fun _ => r) fun _ ha => Except.ok.inj ha ▸ hf

lemma answers_foldlM {f : β → α → Asking β} {g : β → α → Except ModelError β}
    (h : ∀ acc a, b.Answers (f acc a) (g acc a)) (l : List α) (init : β) :
    b.Answers (l.foldlM f init) (l.foldlM g init) := by
  induction l generalizing init with
  | nil => exact answers_pure init
  | cons a l ih =>
    rw [List.foldlM_cons, List.foldlM_cons]
    exact (h init a).bind fun acc _ => ih acc

lemma lookup_snoc {κ ν : Type} [BEq κ] [LawfulBEq κ] {table : List (κ × ν)} {f : κ → ν} (key : κ)
    (h : ∀ k v, table.lookup k = some v → v = f k) :
    ∀ k v, (table ++ [(key, f key)]).lookup k = some v → v = f k := by
  intro k v hv
  rw [List.lookup_append, Option.or_eq_some_iff] at hv
  rcases hv with hv | ⟨_, hv⟩
  · exact h k v hv
  · by_cases hk : k = key
    · subst hk
      rw [List.lookup_cons_self] at hv
      exact (Option.some.inj hv).symm
    · rw [List.lookup_cons, beq_eq_false_iff_ne.mpr hk] at hv
      cases hv

lemma run_get_bind (f : ModelCache → Asking α) (c : ModelCache) :
    (get >>= f).run.run c = (f c).run.run c := rfl

lemma answers_typeOf (b : ModelBuilder) (hint : TypeHint) :
    b.Answers (b.typeOf hint) (.ok (b.typer hint)) := by
  intro c hc
  rw [typeOf, run_get_bind]
  cases hlookup : c.hints.lookup hint with
  | some answer => exact ⟨congrArg Except.ok (hc.hints hint answer hlookup), hc⟩
  | none => exact ⟨rfl, lookup_snoc hint hc.hints, hc.types⟩

lemma answers_interpretationOf (b : ModelBuilder) (type : SemType) :
    b.Answers (b.interpretationOf type) (.ok (b.interpreter type)) := by
  intro c hc
  rw [interpretationOf, run_get_bind]
  cases hlookup : c.types.lookup type with
  | some answer => exact ⟨congrArg Except.ok (hc.types type answer hlookup), hc⟩
  | none => exact ⟨rfl, hc.hints, lookup_snoc type hc.types⟩

def interpret (b : ModelBuilder) : Option TypeHint → Except ModelError (Option Meaning)
  | none => .ok none
  | some hint =>
    match b.typer hint with
    | none => .ok none
    | some type =>
      match b.interpreter type with
      | some interpretation => .ok (some ⟨type, interpretation⟩)
      | none => .error (.missingInterpretation hint type)

lemma answers_hintMeaning (b : ModelBuilder) (hint : Option TypeHint) :
    b.Answers (b.hintMeaning hint) (b.interpret hint) := by
  cases hint with
  | none => exact answers_pure none
  | some hint =>
    refine (answers_typeOf b hint).bind_ok ?_
    rw [interpret]
    cases b.typer hint with
    | none => exact answers_pure none
    | some type =>
      refine (answers_interpretationOf b type).bind_ok ?_
      dsimp only
      cases b.interpreter type with
      | none => exact answers_throw _
      | some interpretation => exact answers_pure _

def meaning? (b : ModelBuilder) (hint : Option TypeHint) : Option Meaning := do
  let type ← b.typer (← hint)
  return ⟨type, ← b.interpreter type⟩

lemma eq_meaning_of_interpret {hint : Option TypeHint} {answer : Option Meaning}
    (h : b.interpret hint = .ok answer) : answer = b.meaning? hint := by
  cases hint with
  | none => exact (Except.ok.inj h).symm
  | some hint =>
    rw [interpret] at h
    split at h
    · rename_i htype
      rw [← Except.ok.inj h]
      simp [meaning?, htype]
    · rename_i type htype
      split at h
      · rename_i interpretation hint'
        rw [← Except.ok.inj h]
        simp [meaning?, htype, hint']
      · cases h

end ModelBuilder

inductive Mention
  | var (d : Decl)
  | expr (e : Expr)

def Mention.hint : Mention → Option TypeHint
  | var d => d.hint
  | expr e => e.hint

def Program.mentions (p : Program) : List Mention := p.decls.toList.map .var ++ p.exprs.map .expr

lemma Program.mem_mentions {p : Program} {x : Mention} :
    x ∈ p.mentions ↔ (∃ d ∈ p.decls, x = .var d) ∨ ∃ e ∈ p.exprs, x = .expr e := by
  simp only [mentions, List.mem_append, List.mem_map, Array.mem_toList_iff, eq_comm]

def Interpreted.learn (known : Interpreted) : Mention → Option Meaning → Interpreted
  | _, none => known
  | .var d, some m =>
    { known with
      vars := known.vars.insert d.id.val m.typed
      semantics := known.semantics ++ [m.interpretation.semantics] }
  | .expr e, some m =>
    { known with
      meanings := known.meanings.insert e.id.val m
      exprs := known.exprs ++ [e]
      semantics := known.semantics ++ [m.interpretation.semantics] }

namespace ModelBuilder

variable {α β : Type} {b : ModelBuilder}

def learn (b : ModelBuilder) (known : Interpreted) (x : Mention) :
    Except ModelError Interpreted := do
  return known.learn x (← b.interpret x.hint)

lemma answers_interpretVar (b : ModelBuilder) (known : Interpreted) (d : Decl) :
    b.Answers (b.interpretVar known d) (b.learn known (.var d)) := by
  refine (answers_hintMeaning b d.hint).bind fun answer _ => ?_
  cases answer with
  | none => exact answers_pure known
  | some m => exact answers_pure _

lemma answers_interpretExpr (b : ModelBuilder) (known : Interpreted) (e : Expr) :
    b.Answers (b.interpretExpr known e) (b.learn known (.expr e)) := by
  refine (answers_hintMeaning b e.hint).bind fun answer _ => ?_
  cases answer with
  | none => exact answers_pure known
  | some m => exact answers_pure _

lemma answers_interpretProgram (b : ModelBuilder) (known : Interpreted) (p : Program) :
    b.Answers (b.interpretProgram known p) (p.mentions.foldlM b.learn known) := by
  rw [Program.mentions, List.foldlM_append, List.foldlM_map]
  simp only [List.foldlM_map]
  exact (answers_foldlM b.answers_interpretVar _ _).bind fun acc _ =>
    answers_foldlM b.answers_interpretExpr _ acc

def known (b : ModelBuilder) (programs : List Program) : Except ModelError Interpreted :=
  (programs.flatMap Program.mentions).foldlM b.learn .empty

lemma answers_known (b : ModelBuilder) (programs : List Program) (known : Interpreted) :
    b.Answers (programs.foldlM b.interpretProgram known)
      ((programs.flatMap Program.mentions).foldlM b.learn known) := by
  induction programs generalizing known with
  | nil => exact answers_pure known
  | cons p programs ih =>
    rw [List.foldlM_cons, List.flatMap_cons, List.foldlM_append]
    exact (answers_interpretProgram b known p).bind fun acc _ => ih acc

def built (b : ModelBuilder) (programs : List Program) : Except ModelError Model := do
  let known ← b.known programs
  return ⟨← b.entries known, known.vars⟩

lemma answers_model (b : ModelBuilder) (programs : List Program) :
    b.Answers (b.model programs) (b.built programs) := by
  refine (answers_known b programs .empty).bind fun known _ => ?_
  cases b.entries known with
  | error e => exact answers_throw e
  | ok entries => exact answers_pure _

structure Knows (b : ModelBuilder) (programs : List Program) (known : Interpreted) : Prop where
  vars : ∀ k t, known.vars.get? k = some t → ∃ p ∈ programs, ∃ d ∈ p.decls, d.id.val = k ∧
    ∃ m, b.meaning? d.hint = some m ∧ t = m.typed
  meanings : ∀ k m, known.meanings.get? k = some m → ∃ p ∈ programs, ∃ e ∈ p.exprs,
    e.id.val = k ∧ b.meaning? e.hint = some m
  exprs : ∀ e ∈ known.exprs, ∃ p ∈ programs, e ∈ p.exprs
  semantics : ∀ s ∈ known.semantics, ∃ m hint, b.meaning? hint = some m ∧
    s = m.interpretation.semantics

lemma knows_empty (b : ModelBuilder) (programs : List Program) : b.Knows programs .empty where
  vars k t h := by cases h
  meanings k m h := by cases h
  exprs e h := by cases h
  semantics s h := by cases h

section

variable {programs : List Program} {known : Interpreted} {p : Program}

lemma Knows.learn (h : b.Knows programs known) {x : Mention} (hp : p ∈ programs)
    (hx : x ∈ p.mentions) : b.Knows programs (known.learn x (b.meaning? x.hint)) := by
  cases hm : b.meaning? x.hint with
  | none => exact h
  | some m =>
    have hsemantics : ∀ s ∈ known.semantics ++ [m.interpretation.semantics], ∃ m hint,
        b.meaning? hint = some m ∧ s = m.interpretation.semantics := by
      intro s hs
      rcases List.mem_append.mp hs with hs | hs
      · exact h.semantics s hs
      · exact ⟨m, x.hint, hm, List.mem_singleton.mp hs⟩
    rcases Program.mem_mentions.mp hx with ⟨d, hd, rfl⟩ | ⟨e, he, rfl⟩
    · refine ⟨fun k t ht => ?_, h.meanings, h.exprs, hsemantics⟩
      rw [Interpreted.learn, IdMap.get?_insert] at ht
      split at ht
      · rename_i hk
        exact ⟨p, hp, d, hd, hk.symm, m, hm, (Option.some.inj ht).symm⟩
      · exact h.vars k t ht
    · refine ⟨h.vars, fun k m' hm' => ?_, fun e' he' => ?_, hsemantics⟩
      · rw [Interpreted.learn, IdMap.get?_insert] at hm'
        split at hm'
        · rename_i hk
          obtain rfl := Option.some.inj hm'
          exact ⟨p, hp, e, he, hk.symm, hm⟩
        · exact h.meanings k m' hm'
      · rcases List.mem_append.mp he' with he' | he'
        · exact h.exprs e' he'
        · rw [List.mem_singleton.mp he']
          exact ⟨p, hp, he⟩

end

lemma knows_known {programs : List Program} {known : Interpreted}
    (h : b.known programs = .ok known) : b.Knows programs known := by
  refine foldlM_induction h (b.knows_empty programs) fun acc x acc' hx hacc hstep => ?_
  obtain ⟨p, hp, hx⟩ := List.mem_flatMap.mp hx
  obtain ⟨answer, hanswer, hstep⟩ := bind_eq_ok hstep
  cases hstep
  rw [eq_meaning_of_interpret hanswer]
  exact hacc.learn hp hx

lemma built_eq_ok {programs : List Program} {m : Model} (h : b.built programs = .ok m) :
    ∃ known, b.known programs = .ok known ∧ b.entries known = .ok m.entries ∧
      m.vars = known.vars := by
  obtain ⟨known, hknown, h⟩ := bind_eq_ok h
  obtain ⟨entries, hentries, h⟩ := bind_eq_ok h
  cases h
  exact ⟨known, hknown, hentries, rfl⟩

/-- The caches that builders with one typer and one interpreter come to have. -/
inductive Reached (typer : Typer) (interpreter : Interpreter) : ModelCache → Prop
  | empty : Reached typer interpreter .empty
  | run {cache : ModelCache} (lenient : Bool) (programs : List Program) :
      Reached typer interpreter cache →
      Reached typer interpreter ((⟨typer, interpreter, lenient⟩ : ModelBuilder).run cache programs).2

lemma agrees_of_reached {cache : ModelCache} (h : Reached b.typer b.interpreter cache) :
    cache.Agrees b := by
  induction h with
  | empty => exact ⟨nofun, nofun⟩
  | run lenient programs _ ih =>
    obtain ⟨_, hagrees⟩ := answers_model ⟨b.typer, b.interpreter, lenient⟩ programs _
      ⟨ih.hints, ih.types⟩
    exact ⟨hagrees.hints, hagrees.types⟩

lemma run_eq_built {cache : ModelCache} (h : Reached b.typer b.interpreter cache)
    (programs : List Program) : (b.run cache programs).1 = b.built programs :=
  (answers_model b programs cache (agrees_of_reached h)).1

structure Call where
  lenient : Bool
  programs : List Program

section Calls

variable (typer : Typer) (interpreter : Interpreter)

def Call.builder (call : Call) : ModelBuilder := ⟨typer, interpreter, call.lenient⟩

def Call.answer (call : Call) : StateM ModelCache (Except ModelError Model) :=
  fun cache => (call.builder typer interpreter).run cache call.programs

variable {typer interpreter}

lemma answers_of_reached {cache : ModelCache} (h : Reached typer interpreter cache)
    (calls : List Call) :
    ((calls.mapM (Call.answer typer interpreter)).run cache).1 =
      calls.map fun call => (call.builder typer interpreter).built call.programs := by
  induction calls generalizing cache with
  | nil => rfl
  | cons call calls ih =>
    have hfirst : (call.answer typer interpreter cache).1 =
        (call.builder typer interpreter).built call.programs := run_eq_built h call.programs
    have hrest := ih (Reached.run call.lenient call.programs h)
    rw [List.mapM_cons, List.map_cons, ← hfirst, ← hrest]
    rfl

theorem reused_builder_answers_as_new (typer : Typer) (interpreter : Interpreter)
    (calls : List Call) :
    ((calls.mapM (Call.answer typer interpreter)).run .empty).1 =
      calls.map fun call => ((call.answer typer interpreter).run .empty).1 := by
  rw [answers_of_reached .empty]
  apply List.map_congr_left
  intro call _
  exact (run_eq_built .empty call.programs).symm

end Calls

lemma entry_of_get? {known : Interpreted} {entries : IdMap Entry}
    (h : b.entries known = .ok entries) {k : UInt32} {entry : Entry}
    (hentry : entries.get? k = some entry) :
    ∃ e ∈ known.exprs, ∃ m, e.id.val = k ∧ known.meanings.get? k = some m ∧
      b.entry known e m = .ok (some entry) := by
  refine foldlM_induction h (P := fun entries => ∀ k entry, entries.get? k = some entry →
    ∃ e ∈ known.exprs, ∃ m, e.id.val = k ∧ known.meanings.get? k = some m ∧
      b.entry known e m = .ok (some entry)) ?_ ?_ k entry hentry
  · intro k entry hentry
    cases hentry
  · intro entries e entries' he ih hadd k entry hentry
    rw [addEntry] at hadd
    cases hm : known.meanings.get? e.id.val with
    | none =>
      rw [hm] at hadd
      cases hadd
      exact ih k entry hentry
    | some m =>
      rw [hm] at hadd
      obtain ⟨new, hnew, hadd⟩ := bind_eq_ok hadd
      cases new with
      | none =>
        cases hadd
        exact ih k entry hentry
      | some new =>
        cases hadd
        rw [IdMap.get?_insert] at hentry
        by_cases hk : k = e.id.val
        · rw [if_pos hk] at hentry
          obtain rfl := Option.some.inj hentry
          exact ⟨e, he, m, hk.symm, by rw [hk, hm], hnew⟩
        · rw [if_neg hk] at hentry
          exact ih k entry hentry

lemma literalEntry_eq_ok {e : Expr} {text : String} {m : Meaning} {entry : Entry}
    (h : b.literalEntry e text m = .ok entry) :
    ∃ value, entry = .lit m.typed value ∧ m.typed.domain.accepts value = true := by
  rw [literalEntry] at h
  split at h
  · rename_i value hvalue
    cases h
    exact ⟨value, rfl, (Option.filter_eq_some_iff.mp hvalue).2⟩
  · split at h
    · cases h
      exact ⟨_, rfl, Domain.accepts_top _⟩
    · cases h

lemma entry_lit_eq_ok {known : Interpreted} {info : ExprInfo} {text : String} {m : Meaning}
    {entry : Entry} (h : b.entry known (.lit info text) m = .ok (some entry)) :
    ∃ value, entry = .lit m.typed value ∧ m.typed.domain.accepts value = true := by
  apply literalEntry_eq_ok
  cases hlit : b.literalEntry (.lit info text) text m with
  | error e => rw [ModelBuilder.entry, hlit] at h; cases h
  | ok entry' => rw [ModelBuilder.entry, hlit] at h; cases h; rfl

lemma mapM_eq_some {f : α → Option β} {l : List α} {r : List β} (h : l.mapM f = some r) :
    List.Forall₂ (fun a b => f a = some b) l r := by
  induction l generalizing r with
  | nil => cases h; exact .nil
  | cons a l ih =>
    rw [List.mapM_cons] at h
    obtain ⟨x, hx, h⟩ := Option.bind_eq_some_iff.mp h
    obtain ⟨xs, hxs, h⟩ := Option.bind_eq_some_iff.mp h
    cases h
    exact .cons hx (ih hxs)

lemma operationEntry_eq_ok {known : Interpreted} {e : Expr} {op : Op} {m : Meaning} {entry : Entry}
    (h : operationEntry known e op m = .ok (some entry)) :
    ∃ operands definition inverse, entry = .op m.typed op definition inverse ∧
      List.Forall₂ (fun x mx => known.meanings.get? x.id.val = some mx) e.operands operands ∧
      (∃ s ∈ known.semantics,
        s.definition? op ⟨operands.map (·.typed.domain), m.typed.domain⟩ = some definition) ∧
      ∃ s ∈ known.semantics,
        s.inverse? op ⟨operands.map (·.typed.domain), m.typed.domain⟩ = some inverse := by
  rw [operationEntry] at h
  split at h
  · cases h
  · rename_i operands hoperands
    dsimp only at h
    split at h
    · cases h
    · rename_i definition hdef
      split at h
      · cases h
      · rename_i inverse hinv
        cases h
        exact ⟨operands, definition, inverse, rfl, mapM_eq_some hoperands,
          List.exists_of_findSome?_eq_some hdef, List.exists_of_findSome?_eq_some hinv⟩

lemma typed_of_entry {known : Interpreted} {e : Expr} {m : Meaning} {entry : Entry}
    (h : b.entry known e m = .ok (some entry)) : entry.typed = m.typed := by
  cases e with
  | ident info v => cases h; rfl
  | lit info text =>
    obtain ⟨_, rfl, _⟩ := entry_lit_eq_ok h
    rfl
  | unary info op x =>
    obtain ⟨_, _, _, rfl, _⟩ := operationEntry_eq_ok h
    rfl
  | binary info op l r =>
    obtain ⟨_, _, _, rfl, _⟩ := operationEntry_eq_ok h
    rfl

lemma interpretation_standard (hb : b.interpreter = Interpreter.standard) {hint : Option TypeHint}
    {m : Meaning} (h : b.meaning? hint = some m) :
    m.interpretation = .bool ∨ (∃ range, m.interpretation = .int range) ∨
      ∃ e, m.interpretation = .finite e := by
  obtain ⟨hint, _, h⟩ := Option.bind_eq_some_iff.mp h
  obtain ⟨type, _, h⟩ := Option.bind_eq_some_iff.mp h
  obtain ⟨interpretation, hinterpretation, h⟩ := Option.bind_eq_some_iff.mp h
  cases h
  rw [hb] at hinterpretation
  cases type with
  | bool => exact .inl (Option.some.inj hinterpretation).symm
  | int min max =>
    rw [Interpreter.standard] at hinterpretation
    split at hinterpretation
    · exact .inr (.inl ⟨_, (Option.some.inj hinterpretation).symm⟩)
    · cases hinterpretation
  | enum name literals =>
    rw [Interpreter.standard] at hinterpretation
    split at hinterpretation
    · exact .inr (.inr ⟨_, (Option.some.inj hinterpretation).symm⟩)
    · cases hinterpretation
  | access name => exact .inr (.inr ⟨_, (Option.some.inj hinterpretation).symm⟩)

lemma semantics_standard (hb : b.interpreter = Interpreter.standard) {hint : Option TypeHint}
    {m : Meaning} (h : b.meaning? hint = some m) : m.interpretation.semantics = .standard := by
  rcases interpretation_standard hb h with h | ⟨range, h⟩ | ⟨e, h⟩ <;> rw [h] <;> rfl

lemma Knows.standard {programs : List Program} {known : Interpreted} (h : b.Knows programs known)
    (hb : b.interpreter = Interpreter.standard) : ∀ s ∈ known.semantics, s = .standard := by
  intro s hs
  obtain ⟨m, hint, hm, rfl⟩ := h.semantics s hs
  exact semantics_standard hb hm

lemma known_of_run {cache : ModelCache} {programs : List Program} {m : Model}
    (hcache : Reached b.typer b.interpreter cache) (hrun : (b.run cache programs).1 = .ok m) :
    ∃ known, b.Knows programs known ∧ b.entries known = .ok m.entries ∧ m.vars = known.vars := by
  rw [run_eq_built hcache] at hrun
  obtain ⟨known, hknown, hentries, hvars⟩ := built_eq_ok hrun
  exact ⟨known, knows_known hknown, hentries, hvars⟩

end ModelBuilder

def Expr.Unambiguous (nodes : List Expr) : Prop := ∀ x ∈ nodes, ∀ y ∈ nodes, x.id = y.id → x = y

instance (nodes : List Expr) : Decidable (Expr.Unambiguous nodes) :=
  inferInstanceAs (Decidable (∀ x ∈ nodes, ∀ y ∈ nodes, x.id = y.id → x = y))

lemma Expr.Unambiguous.eq_of_val {nodes : List Expr} (h : Unambiguous nodes) {x y : Expr}
    (hx : x ∈ nodes) (hy : y ∈ nodes) (hid : x.id.val = y.id.val) : x = y :=
  h x hx y hy (congrArg ExprId.mk hid)

namespace Model

open ModelBuilder

def Standard (m : Model) (programs : List Program) : Prop :=
  ∃ (b : ModelBuilder) (cache : ModelCache), b.interpreter = Interpreter.standard ∧
    Reached b.typer b.interpreter cache ∧ (b.run cache programs).1 = .ok m

lemma run_of_isSome {b : ModelBuilder} {programs : List Program}
    (h : (b.run .empty programs).1.toOption.isSome = true) :
    (b.run .empty programs).1 = .ok ((b.run .empty programs).1.toOption.getD .empty) := by
  obtain ⟨m, hm⟩ := exists_of_toOption_isSome h
  rw [hm]
  rfl

lemma standard_of_isSome {b : ModelBuilder} {programs : List Program}
    (hb : b.interpreter = Interpreter.standard)
    (h : (b.run .empty programs).1.toOption.isSome = true) :
    ((b.run .empty programs).1.toOption.getD .empty).Standard programs :=
  ⟨b, .empty, hb, .empty, run_of_isSome h⟩

lemma Standard.known {m : Model} {programs : List Program} (h : m.Standard programs) :
    ∃ (b : ModelBuilder) (known : Interpreted), b.interpreter = Interpreter.standard ∧
      b.Knows programs known ∧ b.entries known = .ok m.entries ∧ m.vars = known.vars := by
  obtain ⟨b, cache, hb, hcache, hrun⟩ := h
  obtain ⟨known, hknown, hentries, hvars⟩ := known_of_run hcache hrun
  exact ⟨b, known, hb, hknown, hentries, hvars⟩

section

variable {m : Model} {programs : List Program} {b : ModelBuilder} {known : Interpreted}

lemma exists_meaning {x : Expr} (hknown : b.Knows programs known)
    (hentries : b.entries known = .ok m.entries) {nodes : List Expr} (hx : x ∈ nodes)
    (hids : Expr.Unambiguous (nodes ++ programs.flatMap Program.exprs))
    {entry : Entry} (hentry : m.entry? x = some entry) :
    ∃ meaning, known.meanings.get? x.id.val = some meaning ∧
      b.entry known x meaning = .ok (some entry) ∧ b.meaning? x.hint = some meaning := by
  have hmem : ∀ p ∈ programs, ∀ y ∈ p.exprs, y.id.val = x.id.val → y = x := by
    intro p hp y hy hid
    refine hids.eq_of_val ?_ (List.mem_append_left _ hx) hid
    exact List.mem_append_right _ (List.mem_flatMap.mpr ⟨p, hp, hy⟩)
  obtain ⟨e, he, meaning, hid, hmeaning, hmade⟩ := entry_of_get? hentries hentry
  obtain ⟨p, hp, hep⟩ := hknown.exprs e he
  obtain rfl := hmem p hp e hep hid
  obtain ⟨q, hq, e', he', hid', hhint⟩ := hknown.meanings _ _ hmeaning
  obtain rfl := hmem q hq e' he' hid'
  exact ⟨meaning, hmeaning, hmade, hhint⟩

lemma exprDomain_of_meaning {x : Expr} (hknown : b.Knows programs known)
    (hentries : b.entries known = .ok m.entries) {nodes : List Expr} (hx : x ∈ nodes)
    (hids : Expr.Unambiguous (nodes ++ programs.flatMap Program.exprs))
    (hentry : (m.entry? x).isSome) {meaning : Meaning}
    (hmeaning : known.meanings.get? x.id.val = some meaning) :
    m.exprDomain? x = some meaning.typed.domain := by
  obtain ⟨entry, hentry⟩ := Option.isSome_iff_exists.mp hentry
  obtain ⟨meaning', hmeaning', hmade, _⟩ := exists_meaning hknown hentries hx hids hentry
  obtain rfl := Option.some.inj (hmeaning.symm.trans hmeaning')
  rw [exprDomain_of_entry hentry, Entry.domain, typed_of_entry hmade]

lemma modelsOperation {e : Expr} {op : Op} (hb : b.interpreter = Interpreter.standard)
    (hknown : b.Knows programs known) (hentries : b.entries known = .ok m.entries)
    {nodes : List Expr} (hids : Expr.Unambiguous (nodes ++ programs.flatMap Program.exprs))
    (hoperands : ∀ x ∈ e.operands, x ∈ nodes ∧ (m.entry? x).isSome) {meaning : Meaning}
    {entry : Entry} (hentry : m.entry? e = some entry)
    (hmade : operationEntry known e op meaning = .ok (some entry)) : m.ModelsOperation e op := by
  obtain ⟨operands, definition, inverse, rfl, hmeanings, ⟨s, hs, hdef⟩, s', hs', hinv⟩ :=
    operationEntry_eq_ok hmade
  obtain rfl := hknown.standard hb s hs
  obtain rfl := hknown.standard hb s' hs'
  have hdomains : List.Forall₂ (fun x dom => m.exprDomain? x = some dom) e.operands
      (operands.map fun meaning => meaning.typed.domain) := by
    rw [List.forall₂_map_right_iff]
    refine ((List.forall₂_and_left _ _).mpr ⟨hoperands, hmeanings⟩).imp ?_
    rintro x meaning ⟨⟨hnode, hsome⟩, hmeaning⟩
    exact exprDomain_of_meaning hknown hentries hnode hids hsome hmeaning
  exact ⟨_, definition, inverse, _, hentry, hdomains, hdef, hinv⟩

end

lemma Standard.evaluates {m : Model} {programs : List Program} (hm : m.Standard programs) {e : Expr}
    (hids : Expr.Unambiguous (e.nodes ++ programs.flatMap Program.exprs))
    (hentries : ∀ x ∈ e.nodes, (m.entry? x).isSome) : m.Evaluates e := by
  obtain ⟨b, known, hb, hknown, hmade, _⟩ := hm.known
  intro x hx hident
  obtain ⟨entry, hentry⟩ := Option.isSome_iff_exists.mp (hentries x hx)
  obtain ⟨meaning, _, hentry', _⟩ := exists_meaning hknown hmade hx hids hentry
  have hoperands : ∀ y ∈ x.operands, y ∈ e.nodes ∧ (m.entry? y).isSome := by
    intro y hy
    have hnode := Expr.operand_mem_nodes hx hy
    exact ⟨hnode, hentries y hnode⟩
  cases x with
  | ident info v => cases hident
  | lit info text =>
    obtain ⟨value, rfl, hacc⟩ := entry_lit_eq_ok hentry'
    exact ⟨_, value, hentry, hacc⟩
  | unary info op y => exact modelsOperation hb hknown hmade hids hoperands hentry hentry'
  | binary info op l r => exact modelsOperation hb hknown hmade hids hoperands hentry hentry'

theorem Standard.models {m : Model} {programs : List Program} (hm : m.Standard programs) {e : Expr}
    (hids : Expr.Unambiguous (e.nodes ++ programs.flatMap Program.exprs))
    (hentries : ∀ x ∈ e.nodes, (m.entry? x).isSome)
    (hidents : ∀ x ∈ e.nodes, ∀ v ∈ x.ident?, m.exprDomain? x = m.varDomain? v.var) :
    m.Models e := by
  intro x hx
  cases x with
  | ident info v =>
    obtain ⟨b, known, _, hknown, hmade, _⟩ := hm.known
    obtain ⟨entry, hentry⟩ := Option.isSome_iff_exists.mp (hentries _ hx)
    obtain ⟨meaning, _, hentry', _⟩ := exists_meaning hknown hmade hx hids hentry
    cases hentry'
    refine ⟨meaning.typed, hentry, ?_⟩
    rw [← hidents _ hx v rfl, exprDomain_of_entry hentry]
    rfl
  | lit info text => exact hm.evaluates hids hentries _ hx rfl
  | unary info op y => exact hm.evaluates hids hentries _ hx rfl
  | binary info op l r => exact hm.evaluates hids hentries _ hx rfl

end Model

end Tracewise
