import Tracewise.Proofs.Declarations
import Tracewise.Proofs.Hulls
import Tracewise.Proofs.Numerals
import Tracewise.Proofs.SharedModels

namespace Tracewise

open Fallible Saturating

namespace Saturating

variable {a b : Int64}

lemma min_of_le (h : a ≤ b) : min a b = a := by rw [min_def, if_pos h]

lemma max_of_le (h : a ≤ b) : max a b = b := by rw [max_def, if_pos h]

lemma min_of_ge (h : b ≤ a) : min a b = b := by
  rw [Int64.le_iff_toInt_le] at h
  rw [← Int64.toInt_inj, toInt_min, min_eq_right h]

lemma max_of_ge (h : b ≤ a) : max a b = a := by
  rw [Int64.le_iff_toInt_le] at h
  rw [← Int64.toInt_inj, toInt_max, max_eq_left h]

lemma toInt_add_one (h : a < b) : (add a 1).toInt = a.toInt + 1 := by
  have hl := a.le_toInt
  have hb := b.toInt_lt
  rw [Int64.lt_iff_toInt_lt] at h
  rw [toInt_add, Int64.toInt_one, nearest]
  omega

lemma toInt_sub_one (h : b < a) : (sub a 1).toInt = a.toInt - 1 := by
  have hl := b.le_toInt
  have ha := a.toInt_lt
  rw [Int64.lt_iff_toInt_lt] at h
  rw [toInt_sub, Int64.toInt_one, nearest]
  omega

end Saturating

namespace Interval

variable {l₁ u₁ l₂ u₂ : Int64}

lemma between_of_le (h : l₁ ≤ u₁) : between l₁ u₁ = range l₁ u₁ h := dif_pos h

lemma isEmpty_between (h : l₁ ≤ u₁) : (between l₁ u₁).isEmpty = false := by
  rw [between_of_le h]
  rfl

lemma meet_between (l₁ u₁ l₂ u₂ : Int64) :
    (between l₁ u₁).meet (between l₂ u₂) = between (max l₁ l₂) (min u₁ u₂) := by
  apply ext_spans
  intro n
  simp only [spans_meet, spans_between, toInt_max, toInt_min]
  omega

lemma meet_of_within (hl : l₂ ≤ l₁) (hu : u₁ ≤ u₂) :
    (between l₁ u₁).meet (between l₂ u₂) = between l₁ u₁ := by
  rw [meet_between, max_of_ge hl, min_of_le hu]

end Interval

lemma Value.isEmpty_between {l u : Int64} (h : l ≤ u) :
    (Value.ints (.between l u)).isEmpty = false := by
  apply isEmpty_eq_false (d := .int l.toInt)
  rw [int_mem_ints, Interval.spans_between]
  exact ⟨le_rfl, Int64.le_iff_toInt_le.mp h⟩

namespace Env

def single (v : VarId) (a : Value) : Env := .set .empty v a

variable {v : VarId} {a b : Value}

@[simp] lemma get?_single : (single v a).get? v = some a := by rw [single, get?_set, if_pos rfl]

@[simp] lemma set_single : (single v a).set v b = single v b := by
  apply ext_get?
  intro w
  simp only [single, get?_set]
  split <;> rfl

end Env

def Entry.standard? (t : TypedDomain) (op : Op) (doms : List Domain) : Option Entry := do
  let definition ← Forward.definition? op ⟨doms, t.domain⟩
  let inverse ← Backward.inverse? op ⟨doms, t.domain⟩
  return .op t op definition inverse

lemma ModelBuilder.entryOf_operation {b : ModelBuilder} {programs : List Program}
    {known : Interpreted} (hb : b.interpreter = Interpreter.standard)
    (hids : Expr.Unambiguous (programs.flatMap Program.exprs))
    (hknown : b.known programs = .ok known) {p : Program} (hp : p ∈ programs) {e : Expr}
    (he : e ∈ p.exprs) {op : Op}
    (hop : ∀ meaning, b.entry known e meaning = operationEntry known e op meaning)
    {meaning : Meaning} (hmeaning : b.meaning? e.hint = some meaning) {operands : List Meaning}
    (hoperands : e.operands.mapM (fun x => b.meaning? x.hint) = some operands)
    (hstandard : (Entry.standard? meaning.typed op
      (operands.map (·.interpretation.domain))).isSome) :
    b.entryOf known e = .ok (Entry.standard? meaning.typed op
      (operands.map (·.interpretation.domain))) := by
  have hmem : ∀ x ∈ p.exprs, x ∈ programs.flatMap Program.exprs := fun x hx =>
    List.mem_flatMap.mpr ⟨p, hp, hx⟩
  have hsome : (b.meaning? e.hint).isSome := by
    rw [hmeaning]
    rfl
  have hmeanings : e.operands.mapM (fun x => known.meanings.get? x.id.val) = some operands := by
    rw [← hoperands]
    apply mapM_congr
    intro x hx
    exact get?_meanings hids hknown (hmem x (Program.operand_mem_exprs he hx))
  obtain ⟨entry, hentry⟩ := Option.isSome_iff_exists.mp hstandard
  obtain ⟨definition, hdefinition, hrest⟩ := Option.bind_eq_some_iff.mp hentry
  obtain ⟨inverse, hinverse, ⟨⟩⟩ := Option.bind_eq_some_iff.mp hrest
  change Forward.definition? op ⟨_, meaning.interpretation.domain⟩ = _ at hdefinition
  change Backward.inverse? op ⟨_, meaning.interpretation.domain⟩ = _ at hinverse
  rw [entryOf_of_meaning hids hknown (hmem e he) hmeaning, hop, operationEntry, hmeanings]
  dsimp only
  rw [findSome?_semantics hb hknown (hmem e he) hsome,
    findSome?_semantics hb hknown (hmem e he) hsome, hentry]
  simp only [Semantics.standard, hdefinition, hinverse]

/-- A program `x = 0; while x < limit do x = x + 1`, with nodes that are numbered from `first` on. -/
structure CountingLoop where
  name : String
  x : Ident
  first : UInt32
  limit : String

namespace CountingLoop

def build (name var limit : String) : Building (Ident × Program) := do
  let (x, b) ← (Builder.new name).declareTyped var "int"
  let zero ← Expr.newLit "0" (some "int")
  let below ← Expr.newBinary .lt (← b.ident x) (← Expr.newLit limit (some "int")) (some "bool")
  let next ← Expr.newBinary .add (← b.ident x) (← Expr.newLit "1" (some "int")) (some "int")
  let loop ← Stmt.whileLoop below (.ofList [.atom (.assign x next)])
  return (x, b.build (.ofList (.atom (.assign x zero) :: loop)))

section

variable (l : CountingLoop)

def info (k : UInt32) (hint : TypeHint) : ExprInfo := ⟨⟨l.first + k⟩, some hint⟩

def counter (k : UInt32) : Expr := .ident (l.info k "int") l.x

def number (k : UInt32) (text : String) : Expr := .lit (l.info k "int") text

def below : Expr := .binary (l.info 3 "bool") .lt (l.counter 1) (l.number 2 l.limit)

def next : Expr := .binary (l.info 6 "int") .add (l.counter 4) (l.number 5 "1")

def negated : Expr := .unary (l.info 7 "bool") .not l.below

def decl : Decl := ⟨l.x.var, l.x.name, some "int", none⟩

def program : Program where
  name := l.name
  decls := #[l.decl]
  body := .atom (.assign l.x (l.number 0 "0"))
    (.loop (.atom (.assume l.below none) (.atom (.assign l.x l.next) .done))
      (.atom (.assume l.negated none) .done))

def nodes : List Expr :=
  [l.number 0 "0", l.counter 1, l.number 2 l.limit, l.below, l.counter 4, l.number 5 "1", l.next,
    l.negated]

def graphNodes : List Node :=
  [⟨0, "start0", false, none⟩, ⟨1, "assign0", false, some (.assign l.x (l.number 0 "0"))⟩,
    ⟨2, "loop_start0", true, none⟩, ⟨3, "assume0", false, some (.assume l.below none)⟩,
    ⟨4, "assign1", false, some (.assign l.x l.next)⟩, ⟨5, "loop_join0", false, none⟩,
    ⟨6, "assume1", false, some (.assume l.negated none)⟩]

def graphEdges : List Edge := [(0, 1), (1, 2), (2, 3), (3, 4), (4, 2), (2, 5), (5, 6)]

lemma draft_program :
    (Draft.ofBlock l.program.body).nodes = l.graphNodes.toArray ∧
      (Draft.ofBlock l.program.body).edges = graphEdges.toArray := by
  have hzero : Nat.repr 0 = "0" := by decide
  have hone : Nat.repr 1 = "1" := by decide
  simp [Draft.ofBlock, program, Draft.lower, Draft.addNode, Draft.link, Draft.empty,
    NameSupply.empty, NameSupply.fresh, NameSupply.draw, NameSupply.count, List.lookup_cons,
    Atom.nodeKind, graphNodes, graphEdges, hzero, hone]

lemma graph_program :
    Graph.ofProgram l.program = ⟨l.program, l.graphNodes.toArray, graphEdges.toArray,
      #[[1], [2], [3, 5], [4], [2], [6], []], #[[], [0], [1, 4], [2], [3], [2], [5]]⟩ := by
  obtain ⟨hnodes, hedges⟩ := l.draft_program
  have hsize : l.graphNodes.toArray.size = 7 := rfl
  have hsuccs : Graph.adjacency 7 graphEdges = #[[1], [2], [3, 5], [4], [2], [6], []] := by
    decide +kernel
  have hpreds : Graph.adjacency 7 (graphEdges.map Prod.swap) =
      #[[], [0], [1, 4], [2], [3], [2], [5]] := by
    decide +kernel
  simp only [Graph.ofProgram, hnodes, hedges, hsize, hsuccs, hpreds]

lemma nodeNamed?_program :
    ∀ node ∈ l.graphNodes, (Graph.ofProgram l.program).nodeNamed? node.name = some node := by
  rw [graph_program]
  simp [graphNodes, Graph.nodeNamed?]

end

lemma hintOf_declared (name : String) (d : Decl) {x : Ident} (hx : d.id = x.var) :
    Builder.hintOf ⟨name, #[d]⟩ x = d.hint := by
  have hfind : Decl.find? #[d] x.var = some d :=
    (Decl.find?_eq_some_iff (List.pairwise_singleton _ _)).mpr ⟨by simp, hx⟩
  rw [Builder.hintOf, hfind]
  rfl

lemma exists_of_build (name var limit : String) (supply : Supply) :
    ∃ l : CountingLoop, l.limit = limit ∧
      ((build name var limit).run supply).1 = (l.x, l.program) := by
  refine ⟨⟨name, ⟨⟨supply.nextVar⟩, var⟩, supply.nextExpr, limit⟩, rfl, ?_⟩
  have hhint := hintOf_declared name ⟨⟨supply.nextVar⟩, var, some "int", none⟩
    (x := ⟨⟨supply.nextVar⟩, var⟩) rfl
  change (_, Builder.build _ (.ofList _)) = _
  simp only [Builder.build, Builder.new, List.push_toArray, List.nil_append, hhint,
    UInt32.add_assoc]
  simp only [program, decl, below, next, negated, counter, number, info, UInt32.add_zero]
  rfl

variable {l : CountingLoop}

lemma exprs_program : l.program.exprs = l.number 0 "0" :: l.below :: l.counter 1 ::
    l.number 2 l.limit :: l.next :: l.counter 4 :: l.number 5 "1" :: l.negated :: l.below ::
    l.counter 1 :: [l.number 2 l.limit] := rfl

lemma getElem?_nodes {e : Expr} (he : e ∈ l.program.exprs) :
    l.nodes[(e.id.val - l.first).toNat]? = some e := by
  have hsub : ∀ k, (l.first + k - l.first).toNat = k.toNat := fun k => by
    rw [UInt32.add_comm, UInt32.add_sub_cancel]
  simp only [exprs_program, List.mem_cons, List.not_mem_nil, or_false] at he
  rcases he with rfl | rfl | rfl | rfl | rfl | rfl | rfl | rfl | rfl | rfl | rfl <;>
  · change l.nodes[(l.first + _ - l.first).toNat]? = _
    rw [hsub]
    rfl

lemma mem_nodes {e : Expr} : e ∈ l.nodes ↔ e ∈ l.program.exprs := by
  constructor
  · simp only [nodes, exprs_program, List.mem_cons]
    tauto
  · exact fun he => List.mem_of_getElem? (getElem?_nodes he)

lemma unambiguous : Expr.Unambiguous ([l.program].flatMap Program.exprs) := by
  rw [List.flatMap_singleton]
  intro e he e' he' hid
  have hnode := getElem?_nodes he
  rw [hid, getElem?_nodes he'] at hnode
  exact (Option.some.inj hnode).symm

def ints (r : Range) : Meaning := ⟨.int r.min r.max, .int r⟩

def bools : Meaning := ⟨.bool, .bool⟩

def entries (r : Range) (bound : Int64) : List (Option Entry) :=
  [some (.lit (ints r).typed (.ints (.constant 0))), some (.ident (ints r).typed),
    some (.lit (ints r).typed (.ints (.constant bound))),
    Entry.standard? bools.typed (.binary .lt) [.int r, .int r], some (.ident (ints r).typed),
    some (.lit (ints r).typed (.ints (.constant 1))),
    Entry.standard? (ints r).typed (.binary .add) [.int r, .int r],
    Entry.standard? bools.typed (.unary .not) [.bool]]

structure Modelled (l : CountingLoop) (m : Model) (r : Range) (bound : Int64) : Prop where
  var : m.varDomain? l.x.var = some (.int r)
  entries : l.nodes.map m.entry? = entries r bound

section Building

variable {b : ModelBuilder} {r : Range} {bound : Int64} {known : Interpreted}

lemma meaning_int (hb : b.interpreter = Interpreter.standard)
    (hint : b.typer "int" = some (.int r.min r.max)) : b.meaning? (some "int") = some (ints r) := by
  simp [ModelBuilder.meaning?, hb, hint, Interpreter.standard, r.le, ints]

lemma meaning_bool (hb : b.interpreter = Interpreter.standard)
    (hbool : b.typer "bool" = some .bool) : b.meaning? (some "bool") = some bools := by
  simp [ModelBuilder.meaning?, hb, hbool, Interpreter.standard, bools]

variable (hint : b.meaning? (some "int") = some (ints r))
  (hbool : b.meaning? (some "bool") = some bools)

include hint hbool in
lemma exists_known : ∃ known, b.known [l.program] = .ok known := by
  apply ModelBuilder.exists_known
  intro x hx
  have hhint : x.hint = some "int" ∨ x.hint = some "bool" := by
    rw [List.flatMap_singleton] at hx
    rcases Program.mem_mentions.mp hx with ⟨d, hd, rfl⟩ | ⟨e, he, rfl⟩
    · rw [program, List.mem_toArray, List.mem_singleton] at hd
      rw [hd]
      exact .inl rfl
    · rw [← mem_nodes] at he
      simp only [nodes, List.mem_cons, List.not_mem_nil, or_false] at he
      rcases he with rfl | rfl | rfl | rfl | rfl | rfl | rfl | rfl <;>
        simp [Mention.hint, Expr.hint, Expr.info, number, counter, below, next, negated, info]
  rcases hhint with hhint | hhint
  · rw [hhint, hint]
    rfl
  · rw [hhint, hbool]
    rfl

section Known

variable (hb : b.interpreter = Interpreter.standard) (hknown : b.known [l.program] = .ok known)

include hint hknown in
lemma entryOf_int {e : Expr} (he : e ∈ l.nodes) (hhint : e.hint = some "int") :
    b.entryOf known e = b.entry known e (ints r) := by
  rw [← hhint] at hint
  apply ModelBuilder.entryOf_of_meaning unambiguous hknown ?_ hint
  rwa [List.flatMap_singleton, ← mem_nodes]

include hint hknown in
lemma entryOf_counter {k : UInt32} (hk : l.counter k ∈ l.nodes) :
    b.entryOf known (l.counter k) = .ok (some (.ident (ints r).typed)) :=
  entryOf_int hint hknown hk rfl

include hint hknown in
lemma entryOf_number {k : UInt32} {text : String} (hk : l.number k text ∈ l.nodes) {n : Int64}
    (htext : Text.Numeral.parse? text = some n.toInt) (hmin : r.min ≤ n) (hmax : n ≤ r.max) :
    b.entryOf known (l.number k text) =
      .ok (some (.lit (ints r).typed (.ints (.constant n)))) := by
  have hword : ofInt? n.toInt = some n := (ofInt?_eq_some_iff _ _).mpr rfl
  have hliteral : (ints r).interpretation.literal? text = some (.ints (.constant n)) := by
    simp [ints, Interpretation.int, Interpretation.intLiteral?, htext, hword, hmin, hmax]
  rw [entryOf_int hint hknown hk rfl, number, ModelBuilder.entry, ModelBuilder.literalEntry,
    hliteral]
  rfl

include hint hbool hb hknown in
lemma entryOf_operations :
    b.entryOf known l.below = .ok (Entry.standard? bools.typed (.binary .lt) [.int r, .int r]) ∧
      b.entryOf known l.next =
        .ok (Entry.standard? (ints r).typed (.binary .add) [.int r, .int r]) ∧
      b.entryOf known l.negated = .ok (Entry.standard? bools.typed (.unary .not) [.bool]) := by
  have hmem : ∀ e ∈ [l.below, l.next, l.negated], e ∈ l.program.exprs := by simp [exprs_program]
  simp only [List.forall_mem_cons] at hmem
  obtain ⟨hbelow, hnext, hnegated, _⟩ := hmem
  have hoperands : ∀ k text, [l.counter k, l.number (k + 1) text].mapM
      (fun x => b.meaning? x.hint) = some [ints r, ints r] := by
    intro k text
    simp [counter, number, info, Expr.hint, Expr.info, hint]
  refine ⟨?_, ?_, ?_⟩
  · exact ModelBuilder.entryOf_operation hb unambiguous hknown (List.mem_singleton_self _) hbelow
      (fun _ => rfl) hbool (hoperands 1 l.limit) rfl
  · exact ModelBuilder.entryOf_operation hb unambiguous hknown (List.mem_singleton_self _) hnext
      (fun _ => rfl) hint (hoperands 4 "1") rfl
  · have hoperand : [l.below].mapM (fun x => b.meaning? x.hint) = some [bools] := by
      simp [below, info, Expr.hint, Expr.info, hbool]
    exact ModelBuilder.entryOf_operation hb unambiguous hknown (List.mem_singleton_self _) hnegated
      (fun _ => rfl) hbool hoperand rfl

include hint hbool hb hknown in
lemma entryOf_nodes (hmin : r.min ≤ 0) (htwo : 2 ≤ bound) (hmax : bound ≤ r.max)
    (hlimit : Text.Numeral.parse? l.limit = some bound.toInt) :
    l.nodes.map (b.entryOf known) = (entries r bound).map .ok := by
  obtain ⟨hbelow, hnext, hnegated⟩ := entryOf_operations (l := l) hint hbool hb hknown
  have hone : (1 : Int64) ≤ bound := Int64.le_trans (by decide) htwo
  have hzero : (0 : Int64) ≤ bound := Int64.le_trans (by decide) hone
  simp only [nodes, entries, List.map_cons, List.map_nil]
  rw [hbelow, hnext, hnegated, entryOf_counter hint hknown (by simp [nodes]),
    entryOf_counter hint hknown (by simp [nodes]),
    entryOf_number (n := 0) hint hknown (by simp [nodes]) (by decide) hmin
      (Int64.le_trans hzero hmax),
    entryOf_number hint hknown (by simp [nodes]) hlimit (Int64.le_trans hmin hzero) hmax,
    entryOf_number (n := 1) hint hknown (by simp [nodes]) (by decide)
      (Int64.le_trans hmin (by decide)) (Int64.le_trans hone hmax)]

end Known

lemma exists_modelled (hb : b.interpreter = Interpreter.standard)
    (hint : b.typer "int" = some (.int r.min r.max)) (hbool : b.typer "bool" = some .bool)
    (hmin : r.min ≤ 0) (htwo : 2 ≤ bound) (hmax : bound ≤ r.max)
    (hlimit : Text.Numeral.parse? l.limit = some bound.toInt) :
    ∃ m, b.built [l.program] = .ok m ∧ l.Modelled m r bound := by
  have hint := meaning_int hb hint
  have hbool := meaning_bool hb hbool
  obtain ⟨known, hknown⟩ := exists_known (l := l) hint hbool
  have hnodes := entryOf_nodes hint hbool hb hknown hmin htwo hmax hlimit
  have hfound : ∀ e ∈ [l.program].flatMap Program.exprs,
      ∃ found, b.entryOf known e = .ok found := by
    intro e he
    rw [List.flatMap_singleton, ← mem_nodes] at he
    have hmem := List.mem_map_of_mem (f := b.entryOf known) he
    rw [hnodes] at hmem
    obtain ⟨entry, _, hentry⟩ := List.mem_map.mp hmem
    exact ⟨entry, hentry.symm⟩
  obtain ⟨m, hm, hvars, hentry⟩ := ModelBuilder.exists_built unambiguous hknown hfound
  refine ⟨m, hm, ?_, ?_⟩
  · have hvar := ModelBuilder.get?_vars_of_unique hknown (List.mem_singleton_self _)
      (d := l.decl) (by simp [program]) (by simp [program])
    rw [Model.varDomain?, hvars, show l.x.var.val = l.decl.id.val from rfl, hvar, decl, hint]
    rfl
  · apply List.map_injective_iff.mpr fun _ _ => Except.ok.inj
    rw [← hnodes, List.map_map]
    apply List.map_congr_left
    intro e he
    rw [mem_nodes] at he
    exact (hentry e (by rwa [List.flatMap_singleton])).symm

end Building

section Narrowing

variable {bound u : Int64}

lemma le_pred {k : Int64} (hk : k < bound) : k ≤ sub bound 1 := by
  rw [Int64.le_iff_toInt_le, toInt_sub_one hk]
  rw [Int64.lt_iff_toInt_lt] at hk
  omega

lemma pred_lt (hbound : 0 < bound) : sub bound 1 < bound := by
  rw [Int64.lt_iff_toInt_lt, toInt_sub_one hbound]
  omega

lemma add_pred (hbound : 0 < bound) : add (sub bound 1) 1 = bound := by
  rw [← Int64.toInt_inj, toInt_add_one (pred_lt hbound), toInt_sub_one hbound]
  omega

lemma pred_nonneg (hu : 0 ≤ u) (hbound : 0 < bound) : 0 ≤ min u (sub bound 1) := by
  have hpred := le_pred hbound
  rw [Int64.le_iff_toInt_le] at hu hpred ⊢
  rw [toInt_min]
  exact le_min hu hpred

lemma pred_lt_max {r : Range} (hbound : 0 < bound) (hmax : bound ≤ r.max) (u : Int64) :
    min u (sub bound 1) < r.max := by
  have hpred := Int64.lt_of_lt_of_le (pred_lt hbound) hmax
  rw [Int64.lt_iff_toInt_lt] at hpred ⊢
  rw [toInt_min]
  exact min_lt_of_right_lt hpred

lemma one_le (hbound : 0 < bound) : 1 ≤ bound := by
  rw [Int64.lt_iff_toInt_lt, Int64.toInt_zero] at hbound
  rw [Int64.le_iff_toInt_le, Int64.toInt_one]
  omega

lemma narrowLt_between (hu : 0 ≤ u) (hbound : 0 < bound) :
    Backward.narrowLt (.between 0 u) (.constant bound) =
      some (.between 0 (min u (Saturating.sub bound 1)), .constant bound) := by
  have hself := Int64.le_refl bound
  have hadd : Saturating.add 0 1 = 1 := by decide
  rw [Interval.constant, Interval.between_of_le hu, Interval.between_of_le hself,
    Backward.narrowLt_range, ← Interval.between_of_le hu, ← Interval.between_of_le hself, hadd,
    Interval.atMost, Interval.atLeast, Interval.meet_between, Interval.meet_between,
    max_of_ge (Int64.minValue_le 0), max_of_ge (one_le hbound), min_of_le (Int64.le_maxValue bound)]
  simp [Backward.nonempty, Interval.isEmpty_between hself,
    Interval.isEmpty_between (pred_nonneg hu hbound)]

lemma narrowGe_between (hbound : 0 < bound) (hu : bound ≤ u) :
    Backward.narrowGe (.between 0 u) (.constant bound) = some (.between bound u, .constant bound) := by
  have hself := Int64.le_refl bound
  have hzero : 0 ≤ u := Int64.le_trans (Int64.le_of_lt hbound) hu
  rw [Backward.narrowGe, Interval.constant, Interval.between_of_le hzero, Interval.between_of_le hself,
    Backward.narrowLe_range, ← Interval.between_of_le hzero, ← Interval.between_of_le hself,
    Interval.atMost, Interval.atLeast, Interval.meet_between, Interval.meet_between,
    max_of_ge (Int64.minValue_le bound), min_of_le hu, min_of_le (Int64.le_maxValue u),
    max_of_le (Int64.le_of_lt hbound)]
  simp [Backward.nonempty, Interval.isEmpty_between hself, Interval.isEmpty_between hu]

end Narrowing

section Statements

variable {m : Model} {r : Range} {bound : Int64} (h : l.Modelled m r bound)
include h

lemma Modelled.entry {k : Nat} {e : Expr} {entry : Option Entry} (he : l.nodes[k]? = some e)
    (hentry : (CountingLoop.entries r bound)[k]? = some entry) : m.entry? e = entry := by
  rw [← h.entries, List.getElem?_map, he] at hentry
  exact Option.some.inj hentry

lemma eval_number {j : Nat} {k : UInt32} {text : String} {n : Int64}
    (hk : l.nodes[j]? = some (l.number k text))
    (hn : (entries r bound)[j]? = some (some (.lit (ints r).typed (.ints (.constant n)))))
    (env : Env) : m.eval env (l.number k text) = .ok (.ints (.constant n)) := by
  have hentry := h.entry hk hn
  rw [number] at hentry
  rw [number, Model.eval, hentry]

omit h in
lemma eval_counter (k : UInt32) (a : Value) : m.eval (.single l.x.var a) (l.counter k) = .ok a := by
  simp only [counter, Model.eval, Env.get?_single]

lemma eval_below (i : Interval) :
    m.eval (.single l.x.var (.ints i)) l.below = .ok (.bools (Forward.lt i (.constant bound))) := by
  have hbelow : m.entry? l.below = _ := h.entry (k := 3) rfl rfl
  have hlimit := eval_number h (j := 2) rfl rfl (.single l.x.var (.ints i))
  simp only [below, Model.eval, eval_counter, hlimit, ok_bind] at hbelow ⊢
  rw [hbelow]
  rfl

lemma eval_next (i : Interval) :
    m.eval (.single l.x.var (.ints i)) l.next = .ok (.ints (r.clamp (i.add (.constant 1)))) := by
  have hnext : m.entry? l.next = _ := h.entry (k := 6) rfl rfl
  have hone := eval_number h (j := 5) rfl rfl (.single l.x.var (.ints i))
  simp only [next, Model.eval, eval_counter, hone, ok_bind] at hnext ⊢
  rw [hnext]
  rfl

lemma refine_counter {i j : Interval} (hj : (Value.ints j).isEmpty = false) (hmeet : i.meet j = j) :
    m.refine (l.counter 1) (.single l.x.var (.ints i)) (.ints j) =
      .ok (some (.single l.x.var (.ints j))) := by
  have hcounter : m.entry? (l.counter 1) = _ := h.entry (k := 1) rfl rfl
  have heval := eval_counter (m := m) (l := l) 1 (.ints i)
  have hmeet : (Domain.int r).meet (.ints i) (.ints j) = .ok (.ints j) :=
    congrArg (fun j => Except.ok (Value.ints j)) hmeet
  rw [counter] at hcounter heval ⊢
  rw [Model.refine, hcounter]
  dsimp only
  rw [heval, ok_bind]
  change ((Domain.int r).meet _ _ >>= _) = _
  rw [hmeet, ok_bind, hj, Env.set_single]
  rfl

lemma refine_limit (env : Env) :
    m.refine (l.number 2 l.limit) env (.ints (.constant bound)) = .ok (some env) := by
  have hlimit : m.entry? (l.number 2 l.limit) = _ := h.entry (k := 2) rfl rfl
  have heval := eval_number h (j := 2) rfl rfl env
  have hself := Int64.le_refl bound
  have hmeet : (Domain.int r).meet (.ints (.constant bound)) (.ints (.constant bound)) =
      .ok (.ints (.constant bound)) :=
    congrArg (fun j => Except.ok (Value.ints j)) (Interval.meet_of_within hself hself)
  rw [number] at hlimit heval ⊢
  rw [Model.refine, hlimit]
  dsimp only
  rw [heval, ok_bind]
  change ((Domain.int r).meet _ _ >>= _) = _
  rw [hmeet, ok_bind, Interval.constant, Value.isEmpty_between hself]
  rfl

lemma invert_below {i j : Interval} (holds : Bool) (hi : (Value.ints i).isEmpty = false)
    (hinverse : (if holds then Backward.narrowLt i (.constant bound)
      else Backward.narrowGe i (.constant bound)) = some (j, .constant bound)) :
    ∃ entry, m.entry? l.below = some entry ∧
      Model.invert entry (.bools (.singleton holds)) [.ints i, .ints (.constant bound)] =
        .ok (some [.ints j, .ints (.constant bound)]) := by
  have hbelow : m.entry? l.below = some (.op _ _ _ _) := h.entry (k := 3) rfl rfl
  have hempty : [Value.ints i, .ints (.constant bound)].any Value.isEmpty = false := by
    simp [hi, Interval.constant, Value.isEmpty_between (Int64.le_refl bound)]
  refine ⟨_, hbelow, ?_⟩
  rw [← Backward.invertRelation_singleton .join] at hinverse
  rw [Model.invert, hempty, if_neg Bool.false_ne_true]
  change (Except.ok (Backward.pair .ints (Backward.invertRelation .join _ _ _ i _)) >>= _) = _
  rw [hinverse]
  rfl

lemma refine_below {i j : Interval} (holds : Bool) (hi : (Value.ints i).isEmpty = false)
    (hj : (Value.ints j).isEmpty = false) (hmeet : i.meet j = j)
    (hinverse : (if holds then Backward.narrowLt i (.constant bound)
      else Backward.narrowGe i (.constant bound)) = some (j, .constant bound)) :
    m.refine l.below (.single l.x.var (.ints i)) (.bools (.singleton holds)) =
      .ok (some (.single l.x.var (.ints j))) := by
  obtain ⟨entry, hentry, hinvert⟩ := invert_below h holds hi hinverse
  rw [below, Model.refine, ← below, hentry]
  dsimp only
  rw [eval_counter, ok_bind, eval_number h (j := 2) rfl rfl, ok_bind, hinvert, ok_bind]
  dsimp only
  rw [refine_counter h hj hmeet, ok_bind]
  exact refine_limit h _

lemma transfer_assign {e : Expr} {a : Value} {i : Interval}
    (heval : m.eval (.single l.x.var a) e = .ok (.ints i)) (hclamp : r.clamp i = i)
    (hi : (Value.ints i).isEmpty = false) :
    m.transfer (some (.assign l.x e)) (.single l.x.var a) =
      .ok (some (.single l.x.var (.ints i))) := by
  simp only [Model.transfer, heval, ok_bind, h.var, Domain.clamp, hclamp, hi, Env.set_single]
  rfl

lemma transfer_zero (hmin : r.min ≤ 0) (hmax : 0 ≤ r.max) (a : Value) :
    m.transfer (some (.assign l.x (l.number 0 "0"))) (.single l.x.var a) =
      .ok (some (.single l.x.var (.ints (.between 0 0)))) := by
  apply transfer_assign h (eval_number h (j := 0) rfl rfl _)
  · exact Interval.meet_of_within hmin hmax
  · exact Value.isEmpty_between (Int64.le_refl 0)

lemma transfer_next {u : Int64} (hmin : r.min ≤ 0) (hu : 0 ≤ u) (hmax : u < r.max) :
    m.transfer (some (.assign l.x l.next)) (.single l.x.var (.ints (.between 0 u))) =
      .ok (some (.single l.x.var (.ints (.between 1 (Saturating.add u 1))))) := by
  have hone : 1 ≤ Saturating.add u 1 := by
    rw [Int64.le_iff_toInt_le, toInt_add_one hmax, Int64.toInt_one]
    rw [Int64.le_iff_toInt_le, Int64.toInt_zero] at hu
    omega
  have hlast : Saturating.add u 1 ≤ r.max := by
    rw [Int64.le_iff_toInt_le, toInt_add_one hmax]
    exact Int64.lt_iff_toInt_lt.mp hmax
  have hadd : (Interval.between 0 u).add (.constant 1) = .between 1 (Saturating.add u 1) := by
    rw [Interval.constant, Interval.between_of_le hu, Interval.between_of_le (Int64.le_refl 1)]
    rfl
  have hclamp : r.clamp (.between 1 (Saturating.add u 1)) = .between 1 (Saturating.add u 1) :=
    Interval.meet_of_within (Int64.le_trans hmin (by decide)) hlast
  apply transfer_assign h
  · rw [eval_next h, hadd, hclamp]
  · exact hclamp
  · exact Value.isEmpty_between hone

lemma transfer_below {u : Int64} (hu : 0 ≤ u) (hbound : 0 < bound) :
    m.transfer (some (.assume l.below none)) (.single l.x.var (.ints (.between 0 u))) =
      .ok (some (.single l.x.var (.ints (.between 0 (min u (Saturating.sub bound 1)))))) := by
  apply refine_below h true (Value.isEmpty_between hu)
    (Value.isEmpty_between (pred_nonneg hu hbound))
  · apply Interval.ext_spans
    intro n
    simp only [Interval.spans_meet, Interval.spans_between, toInt_min]
    omega
  · exact narrowLt_between hu hbound

lemma transfer_negated {u : Int64} (hbound : 0 < bound) (hu : bound ≤ u) :
    m.transfer (some (.assume l.negated none)) (.single l.x.var (.ints (.between 0 u))) =
      .ok (some (.single l.x.var (.ints (.between bound u)))) := by
  have hzero : 0 ≤ u := Int64.le_trans (Int64.le_of_lt hbound) hu
  have hnegated : m.entry? l.negated = some (.op _ _ _ _) := h.entry (k := 7) rfl rfl
  have heval : m.eval (.single l.x.var (.ints (.between 0 u))) l.below = .ok (.bools .both) := by
    rw [eval_below h, Interval.constant, Interval.between_of_le hzero,
      Interval.between_of_le (Int64.le_refl bound), Forward.lt, decide_eq_true hbound,
      decide_eq_true hu]
    rfl
  change m.refine l.negated _ _ = _
  rw [negated, Model.refine, ← negated, hnegated]
  dsimp only
  rw [heval, ok_bind]
  apply refine_below h false (Value.isEmpty_between hzero) (Value.isEmpty_between hu)
  · rw [Interval.meet_between, max_of_le (Int64.le_of_lt hbound), min_of_le (Int64.le_refl u)]
  · exact narrowGe_between hbound hu

end Statements

end CountingLoop

end Tracewise
