import Tracewise.Proofs.ModelBuilding

/-! Constant folding with a cache. While identities tell the expressions apart, each answer is that
of folding the expression anew. -/

namespace Tracewise

namespace Expr

def folded : Expr → Folded
  | e@(ident ..) => .error (.notConstant e.text)
  | lit _ t => .ok (.parse t)
  | e@(unary _ op x) => do Folded.ofUnary e op (← x.folded)
  | e@(binary _ op l r) => do Folded.ofBinary e op (← l.folded) (← r.folded)

end Expr

namespace FoldCache

variable {α β : Type} {nodes : List Expr}

def Agrees (nodes : List Expr) (cache : FoldCache) : Prop :=
  ∀ e ∈ nodes, ∀ result, cache.get? e.id.val = some result → result = e.folded

def Gives (nodes : List Expr) (x : StateM FoldCache α) (a : α) : Prop :=
  ∀ cache, Agrees nodes cache → (x.run cache).1 = a ∧ Agrees nodes (x.run cache).2

lemma gives_pure (a : α) : Gives nodes (pure a) a := fun _ hcache => ⟨rfl, hcache⟩

lemma Gives.bind {x : StateM FoldCache α} {f : α → StateM FoldCache β} {a : α} {b : β}
    (hx : Gives nodes x a) (hf : Gives nodes (f a) b) : Gives nodes (x >>= f) b := by
  intro cache hcache
  obtain ⟨rfl, hcache'⟩ := hx cache hcache
  exact hf _ hcache'

lemma Gives.map {x : StateM FoldCache α} {a : α} (hx : Gives nodes x a) (f : α → β) :
    Gives nodes (f <$> x) (f a) := by
  rw [map_eq_pure_bind]
  exact hx.bind (gives_pure (f a))

lemma gives_mapM {f : α → StateM FoldCache β} {g : α → β} {l : List α}
    (h : ∀ a ∈ l, Gives nodes (f a) (g a)) : Gives nodes (l.mapM f) (l.map g) := by
  induction l with
  | nil => exact gives_pure []
  | cons a l ih =>
    obtain ⟨ha, hl⟩ := List.forall_mem_cons.mp h
    rw [List.mapM_cons]
    exact ha.bind ((ih hl).bind (gives_pure _))

lemma Agrees.insert (hids : Expr.Unambiguous nodes) {cache : FoldCache}
    (hcache : Agrees nodes cache) {e : Expr} (he : e ∈ nodes) :
    Agrees nodes (cache.insert e.id.val e.folded) := by
  intro x hx result hresult
  rw [IdMap.get?_insert] at hresult
  split at hresult
  · rename_i hid
    rw [hids.eq_of_val hx he hid]
    exact (Option.some.inj hresult).symm
  · exact hcache x hx result hresult

lemma Gives.remember (hids : Expr.Unambiguous nodes) {e : Expr} (he : e ∈ nodes)
    {compute : StateM FoldCache Folded} (h : Gives nodes compute e.folded) :
    Gives nodes (e.remember compute) e.folded := by
  intro cache hcache
  cases hknown : cache.get? e.id.val with
  | some known =>
    have hrun : (e.remember compute).run cache = (known, cache) := by
      simp [Expr.remember, hknown]
      rfl
    rw [hrun]
    exact ⟨hcache e he known hknown, hcache⟩
  | none =>
    obtain ⟨hresult, hcache'⟩ := h cache hcache
    have hrun : (e.remember compute).run cache =
        ((compute.run cache).1, (compute.run cache).2.insert e.id.val (compute.run cache).1) := by
      simp [Expr.remember, hknown]
      rfl
    rw [hrun, hresult]
    exact ⟨rfl, hcache'.insert hids he⟩

lemma Gives.bind_run {ε : Type} {x : ExceptT ε (StateM FoldCache) α}
    {f : α → ExceptT ε (StateM FoldCache) β} {r : Except ε α} {g : α → Except ε β}
    (hx : Gives nodes x.run r) (hf : ∀ a, Gives nodes (f a).run (g a)) :
    Gives nodes (x >>= f).run (r >>= g) := by
  rw [ExceptT.run_bind]
  refine hx.bind ?_
  cases r with
  | error e => exact gives_pure _
  | ok a => exact hf a

lemma Gives.answer {x : StateM FoldCache α} {a : α} (hx : Gives nodes x a) :
    (x.run .empty).1 = a :=
  (hx .empty (by simp [Agrees])).1

end FoldCache

open FoldCache

namespace Expr

lemma gives_fold {nodes : List Expr} (hids : Unambiguous nodes) {e : Expr} (he : e.nodes ⊆ nodes) :
    Gives nodes e.fold e.folded := by
  induction e with
  | ident info v => exact .remember hids (he (mem_nodes_self _)) (gives_pure _)
  | lit info t => exact .remember hids (he (mem_nodes_self _)) (gives_pure _)
  | unary info op x ih =>
    have hx : x.nodes ⊆ nodes := fun y hy =>
      he (mem_nodes_of_operand (List.mem_singleton_self x) hy)
    refine .remember hids (he (mem_nodes_self _)) ((ih hx).bind ?_)
    rw [folded]
    cases x.folded with
    | error err => exact gives_pure _
    | ok c => exact gives_pure _
  | binary info op l r ihl ihr =>
    have hl : l.nodes ⊆ nodes := fun y hy => he (mem_nodes_of_operand List.mem_cons_self hy)
    have hr : r.nodes ⊆ nodes := fun y hy =>
      he (mem_nodes_of_operand (List.mem_cons_of_mem _ (List.mem_singleton_self r)) hy)
    refine .remember hids (he (mem_nodes_self _)) ((ihl hl).bind ?_)
    rw [folded]
    cases l.folded with
    | error err => exact gives_pure _
    | ok a =>
      refine (ihr hr).bind ?_
      cases r.folded with
      | error err => exact gives_pure _
      | ok b => exact gives_pure _

lemma gives_foldInt {nodes : List Expr} (hids : Unambiguous nodes) {e : Expr}
    (he : e.nodes ⊆ nodes) : Gives nodes e.foldInt (e.folded.toInt e) :=
  (gives_fold hids he).bind (gives_pure _)

end Expr

inductive FoldCall
  | constant (e : Expr)
  | int (e : Expr)

inductive FoldAnswer
  | constant (result : Folded)
  | int (result : Except FoldError Int)
deriving DecidableEq

namespace FoldCall

def expr : FoldCall → Expr
  | constant e => e
  | int e => e

def run : FoldCall → StateM FoldCache FoldAnswer
  | constant e => .constant <$> e.fold
  | int e => .int <$> e.foldInt

def answer : FoldCall → FoldAnswer
  | constant e => .constant e.folded
  | int e => .int (e.folded.toInt e)

lemma gives_run {nodes : List Expr} (hids : Expr.Unambiguous nodes) {call : FoldCall}
    (h : call.expr.nodes ⊆ nodes) : Gives nodes call.run call.answer := by
  cases call with
  | constant e => exact (Expr.gives_fold hids h).map FoldAnswer.constant
  | int e => exact (Expr.gives_foldInt hids h).map FoldAnswer.int

theorem answers_uncached {calls : List FoldCall}
    (hids : Expr.Unambiguous (calls.flatMap fun call => call.expr.nodes)) :
    ((calls.mapM run).run .empty).1 = calls.map answer := by
  have hcalls : ∀ call ∈ calls,
      Gives (calls.flatMap fun call => call.expr.nodes) call.run call.answer :=
    fun call hcall => gives_run hids fun x hx => List.mem_flatMap.mpr ⟨call, hcall, hx⟩
  exact (gives_mapM hcalls).answer

def one : Expr := .lit ⟨⟨0⟩, none⟩ "1"

def yes : Expr := .lit ⟨⟨1⟩, none⟩ "true"

def sum : Expr := .binary ⟨⟨2⟩, none⟩ .add one yes

def questions : List FoldCall :=
  [constant (.binary ⟨⟨4⟩, none⟩ .eq sum (.ident ⟨⟨3⟩, none⟩ ⟨⟨0⟩, "x"⟩)), constant sum, int one,
    int yes, constant (.unary ⟨⟨5⟩, none⟩ .not (.ident ⟨⟨3⟩, none⟩ ⟨⟨0⟩, "x"⟩))]

theorem questions_answered :
    Expr.Unambiguous (questions.flatMap fun call => call.expr.nodes) ∧
      ((questions.mapM run).run .empty).1 =
        [.constant (.error (.unsupported "1 + true" .kindMismatch)),
          .constant (.error (.unsupported "1 + true" .kindMismatch)), .int (.ok 1),
          .int (.error (.unsupported "true" .notInteger)),
          .constant (.error (.notConstant "x"))] := by
  have hids : Expr.Unambiguous (questions.flatMap fun call => call.expr.nodes) := by decide
  refine ⟨hids, (answers_uncached hids).trans ?_⟩
  decide

end FoldCall

end Tracewise
