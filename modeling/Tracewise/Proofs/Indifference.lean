import Tracewise.Proofs.Fixpoint

/-! Models that agree on a program. What they hold for other nodes and other variables does not show
in an analysis of the program. -/

namespace Tracewise

open Fallible Tracewise.Partition

def Program.SelfContained (p : Program) : Prop :=
  ∀ a ∈ p.body.atoms, ∀ v ∈ a.vars, ∃ d ∈ p.decls, d.id = v

def Env.Belongs (env : Env) (p : Program) : Prop :=
  ∀ v, (env.get? v).isSome → ∃ d ∈ p.decls, d.id = v

lemma Env.Belongs.of_mem {env : Env} {p : Program} (h : env.Belongs p) {b : VarId × Value}
    (hb : b ∈ env.toList) : ∃ d ∈ p.decls, d.id = b.1 := by
  apply h
  rw [(mem_toList env b.1 b.2).mp hb]
  rfl

namespace Model

/-- The models hold the same for the nodes and the variables of a program. -/
structure AgreesOn (m m' : Model) (p : Program) : Prop where
  entries : ∀ e ∈ p.exprs, m.entry? e = m'.entry? e
  vars : ∀ d ∈ p.decls, m.vars.get? d.id.val = m'.vars.get? d.id.val

variable {m m' : Model} {p : Program}

lemma AgreesOn.varDomain? (h : m.AgreesOn m' p) {v : VarId} (hv : ∃ d ∈ p.decls, d.id = v) :
    m.varDomain? v = m'.varDomain? v := by
  obtain ⟨d, hd, rfl⟩ := hv
  rw [Model.varDomain?, Model.varDomain?, h.vars d hd]

lemma AgreesOn.nodes (h : m.AgreesOn m' p) {a : Atom} (ha : a ∈ p.body.atoms) {e : Expr}
    (he : e ∈ a.exprs) : ∀ x ∈ e.nodes, m.entry? x = m'.entry? x := fun x hx =>
  h.entries x (Block.mem_exprs.mpr ⟨a, ha, e, he, hx⟩)

section Expressions

variable {e : Expr}

lemma eval_agree (h : ∀ x ∈ e.nodes, m.entry? x = m'.entry? x) (env : Env) :
    m.eval env e = m'.eval env e := by
  induction e with
  | ident info v => rfl
  | lit info text => simp only [eval, h _ (Expr.mem_nodes_self _)]
  | unary info op x ih =>
    have hx := ih fun y hy => h y (Expr.mem_nodes_of_operand (List.mem_singleton_self x) hy)
    simp only [eval, h _ (Expr.mem_nodes_self _), hx]
  | binary info op l r ihl ihr =>
    have hl := ihl fun y hy => h y (Expr.mem_nodes_of_operand List.mem_cons_self hy)
    have hr := ihr fun y hy =>
      h y (Expr.mem_nodes_of_operand (List.mem_cons_of_mem _ List.mem_cons_self) hy)
    simp only [eval, h _ (Expr.mem_nodes_self _), hl, hr]

lemma refine_agree (h : ∀ x ∈ e.nodes, m.entry? x = m'.entry? x) (env : Env) (expected : Value) :
    m.refine e env expected = m'.refine e env expected := by
  induction e generalizing env expected with
  | ident info v => simp only [refine, h _ (Expr.mem_nodes_self _), eval_agree h]
  | lit info text => simp only [refine, h _ (Expr.mem_nodes_self _), eval_agree h]
  | unary info op x ih =>
    have hx : ∀ y ∈ x.nodes, m.entry? y = m'.entry? y := fun y hy =>
      h y (Expr.mem_nodes_of_operand (List.mem_singleton_self x) hy)
    simp only [refine, h _ (Expr.mem_nodes_self _), eval_agree hx, ih hx]
  | binary info op l r ihl ihr =>
    have hl : ∀ y ∈ l.nodes, m.entry? y = m'.entry? y := fun y hy =>
      h y (Expr.mem_nodes_of_operand List.mem_cons_self hy)
    have hr : ∀ y ∈ r.nodes, m.entry? y = m'.entry? y := fun y hy =>
      h y (Expr.mem_nodes_of_operand (List.mem_cons_of_mem _ List.mem_cons_self) hy)
    simp only [refine, h _ (Expr.mem_nodes_self _), eval_agree hl, eval_agree hr, ihl hl, ihr hr]

end Expressions

section Statements

variable (hm : m.AgreesOn m' p) (hp : p.SelfContained)
include hm hp

lemma transfer_agree {a : Atom} (ha : a ∈ p.body.atoms) (env : Env) :
    m.transfer (some a) env = m'.transfer (some a) env := by
  have hvar : ∀ v ∈ a.vars, m.varDomain? v = m'.varDomain? v := fun v hv =>
    hm.varDomain? (hp a ha v hv)
  cases a with
  | assign x e =>
    simp only [transfer, eval_agree (hm.nodes ha List.mem_cons_self), hvar _ List.mem_cons_self]
  | read x => simp only [transfer, hvar _ List.mem_cons_self]
  | use x => rfl
  | assume cond purpose => exact refine_agree (hm.nodes ha List.mem_cons_self) env _

end Statements

end Model

namespace Env

variable {m m' : Model} {p : Program} {env other : Env}

lemma combine_agree (hm : m.AgreesOn m' p) (hother : other.Belongs p)
    (f : Domain → Value → Value → Except Fault Value) :
    combine f env other m = combine f env other m' := by
  refine foldlM_congr (P := fun _ => True) trivial (fun acc b hb _ => ?_) fun _ _ _ _ _ _ => trivial
  rw [hm.varDomain? (hother.of_mem hb)]

lemma le_agree (hm : m.AgreesOn m' p) (henv : env.Belongs p) :
    env.le other m = env.le other m' := by
  refine allM_congr fun b hb => ?_
  rw [hm.varDomain? (henv.of_mem hb)]

lemma Belongs.of_sameVars (h : env.Belongs p) (hsame : env.SameVars other) : other.Belongs p :=
  fun v hv => h v (by rw [hsame v]; exact hv)

end Env

namespace MergeRule

/-- A custom test of the rule looks at a model only for what it holds of the program. -/
def Local (p : Program) : MergeRule → Prop
  | and fst snd => fst.Local p ∧ snd.Local p
  | or fst snd => fst.Local p ∧ snd.Local p
  | custom f => ∀ q r (m m' : Model), m.AgreesOn m' p → f q r m = f q r m'
  | _ => True

variable {m m' : Model} {p : Program} {vars : Env} {rule : MergeRule}

lemma extract?_congr {test test' : Partition → Except Fault Bool} {l : List Partition}
    (h : ∀ q ∈ l, test q = test' q) : extract? test l = extract? test' l := by
  induction l with
  | nil => rfl
  | cons q l ih =>
    obtain ⟨hq, hl⟩ := List.forall_mem_cons.mp h
    rw [extract?, extract?, hq, ih hl]

section

variable (hm : m.AgreesOn m' p) (hvars : vars.Belongs p)
include hm hvars

lemma merge_agree {q r : Partition} (hr : r.Fits m vars) : q.merge r m = q.merge r m' := by
  rw [merge, merge, Env.join, Env.join, Env.combine_agree hm (hvars.of_sameVars hr.sameVars)]

lemma applies_agree (hrule : rule.Local p) {q r : Partition} (hq : q.Fits m vars)
    (hr : r.Fits m vars) : rule.applies m q r = rule.applies m' q r := by
  induction rule with
  | envIncluded =>
    rw [applies, applies, Env.le_agree hm (hvars.of_sameVars hq.sameVars),
      Env.le_agree hm (hvars.of_sameVars hr.sameVars)]
  | and fst snd ihf ihs => rw [applies, applies, ihf hrule.1, ihs hrule.2]
  | or fst snd ihf ihs => rw [applies, applies, ihf hrule.1, ihs hrule.2]
  | custom f => rw [applies, applies, hrule q r m m' hm]
  | always => rfl
  | never => rfl
  | traceIncluded => rfl
  | traceEqual => rfl
  | envEqual => rfl
  | longerThan n => rfl

lemma absorb_agree (hrule : rule.Local p) {fuel : Nat} {kept : List Partition} {part : Partition}
    (hkept : ∀ q ∈ kept, q.Fits m vars) (hpart : part.Fits m vars) :
    rule.absorb m fuel kept part = rule.absorb m' fuel kept part := by
  induction fuel generalizing kept part with
  | zero => rfl
  | succ fuel ih =>
    have hfolds : ∀ q ∈ kept, rule.folds m q part = rule.folds m' q part := by
      intro q hq
      rw [folds, folds, applies_agree hm hvars hrule (hkept q hq) hpart]
    rw [absorb, absorb, ← extract?_congr hfolds]
    refine bind_congr_ok fun found hfound => ?_
    cases found with
    | none => rfl
    | some found =>
      obtain ⟨q, rest⟩ := found
      obtain ⟨_, before, after, rfl, rfl⟩ := extract?_eq_some hfound
      have hq : q ∈ before ++ q :: after := List.mem_append_right _ List.mem_cons_self
      have hsub : (before ++ after).Sublist (before ++ q :: after) :=
        (List.Sublist.refl before).append (List.sublist_cons_self q after)
      obtain ⟨merged, hmerged, hfits, _⟩ := merge_spec (hkept q hq) hpart
      dsimp only
      rw [← merge_agree hm hvars hpart, hmerged, ok_bind, ok_bind]
      exact ih (fun r hr => hkept r (hsub.subset hr)) hfits

lemma mergeAll_agree (hrule : rule.Local p) {parts : List Partition}
    (hparts : ∀ q ∈ parts, q.Fits m vars) : rule.mergeAll m parts = rule.mergeAll m' parts := by
  refine foldlM_congr (P := fun kept => ∀ q ∈ kept, q.Fits m vars) nofun ?_ ?_
  · exact fun kept part hpart hkept => absorb_agree hm hvars hrule hkept (hparts part hpart)
  · intro kept part hpart kept' hkept h
    obtain ⟨result, hresult, hfits⟩ : ∃ result, rule.insert m kept part = .ok result ∧
        ∀ q ∈ result, q.Fits m vars := exists_absorb hkept (hparts part hpart)
    cases hresult.symm.trans h
    exact hfits

end

end MergeRule

namespace Engine

section Widening

variable {m m' : Model} {p : Program} {vars : Env} {old new : List Partition}
variable (hm : m.AgreesOn m' p) (hvars : vars.Belongs p)
include hm hvars

lemma widenPart_agree {q : Partition} (hq : q.Fits m vars) :
    widenPart m old q = widenPart m' old q := by
  rw [widenPart, widenPart]
  cases old.find? (·.trace.sameNodes q.trace) with
  | none => rfl
  | some o =>
    simp only [Env.widen, Env.combine_agree hm (hvars.of_sameVars hq.sameVars)]

lemma keep_agree {present : List Partition} {o : Partition} (ho : o.Fits m vars) :
    keep m present o = keep m' present o := by
  have hcovers : covers m o = covers m' o := by
    funext q
    rw [covers, covers, Env.le_agree hm (hvars.of_sameVars ho.sameVars)]
  rw [keep, keep, hcovers]

lemma widenState_agree (hold : ∀ o ∈ old, o.Fits m vars) (hnew : ∀ q ∈ new, q.Fits m vars) :
    widenState m old new = widenState m' old new := by
  rw [widenState, widenState, mapM_congr fun q hq => widenPart_agree hm hvars (hnew q hq)]
  refine bind_congr fun present => ?_
  exact foldlM_congr (P := fun _ => True) trivial
    (fun _ o ho _ => keep_agree hm hvars (hold o ho)) fun _ _ _ _ _ _ => trivial

end Widening

variable {E : Engine} {m' : Model} {p : Program} {s : Progress}

structure Unmoved (E : Engine) (m' : Model) (p : Program) : Prop where
  model : E.model.AgreesOn m' p
  graph : E.graph = .ofProgram p
  program : p.SelfContained
  rule : E.rule.Local p
  startEnv : E.startEnv.Belongs p

def withModel (E : Engine) (m' : Model) : Engine := { E with model := m' }

namespace Unmoved

lemma pass (h : E.Unmoved m' p) {n : NodeId} {node : Node} (hnode : E.graph.nodes[n]? = some node)
    (q : Partition) : (E.withModel m').pass node q = E.pass node q := by
  have htransfer : E.model.transfer node.atom q.env = m'.transfer node.atom q.env := by
    cases hatom : node.atom with
    | none => rfl
    | some a =>
      rw [h.graph] at hnode
      exact Model.transfer_agree h.model h.program
        ((Graph.sound_ofProgram p).atoms n node a hnode hatom) q.env
  rw [Engine.pass, Engine.pass, htransfer]
  rfl

lemma recompute (h : E.Unmoved m' p) (hE : E.Ready)
    (hfits : ∀ n, ∀ q ∈ s.stateOf n, q.Fits E.model E.startEnv) {n : NodeId} {node : Node}
    (hnode : E.graph.nodes[n]? = some node) :
    (E.withModel m').recompute s node = E.recompute s node := by
  have hid := hE.graph.ids n node hnode
  have hpass : (E.withModel m').pass node = E.pass node := funext (h.pass hnode)
  rw [Engine.recompute, Engine.recompute, hpass, hid]
  refine bind_congr_ok fun outgoing houtgoing => ?_
  have hout := (hE.outgoing_spec hfits hnode houtgoing).1
  have hmerge := MergeRule.mergeAll_agree h.model h.startEnv h.rule hout
  change E.rule.mergeAll m' outgoing >>= _ = _
  rw [← hmerge]
  refine bind_congr_ok fun merged hmerged => ?_
  split
  · exact (widenState_agree h.model h.startEnv (hfits n)
      (MergeRule.mergeAll_spec hout hmerged).fits).symm
  · rfl

lemma visit (h : E.Unmoved m' p) (hE : E.Ready)
    (hfits : ∀ n, ∀ q ∈ s.stateOf n, q.Fits E.model E.startEnv) (n : NodeId) :
    (E.withModel m').visit s n = E.visit s n := by
  have hgraph : (E.withModel m').graph = E.graph := rfl
  rw [Engine.visit, Engine.visit, hgraph]
  cases hnode : E.graph.nodes[n]? with
  | none => rfl
  | some node =>
    dsimp only
    rw [h.recompute (s := { s with visits := s.visits.modify n (· + 1) }) hE hfits hnode]
    rfl

lemma step (h : E.Unmoved m' p) (hE : E.Ready)
    (hfits : ∀ n, ∀ q ∈ s.stateOf n, q.Fits E.model E.startEnv) :
    (E.withModel m').step s = E.step s := by
  rw [Engine.step, Engine.step]
  cases s.worklist with
  | nil => rfl
  | cons n rest =>
    dsimp only
    rw [h.visit (s := { s with worklist := rest }) hE hfits]

lemma iterate (h : E.Unmoved m' p) (hE : E.Ready) (hs : E.Invariant s) (fuel : Nat) :
    (E.withModel m').iterate fuel s = E.iterate fuel s := by
  induction fuel generalizing s with
  | zero => rfl
  | succ fuel ih =>
    rw [Engine.iterate, Engine.iterate, h.step hE hs.fits]
    refine bind_congr_ok fun next hnext => ?_
    cases next with
    | none => rfl
    | some s' => exact ih (hE.invariant_step hs hnext)

end Unmoved

end Engine

section Running

variable {m m' : Model} {p : Program} {c : Config}

lemma Env.top_belongs (p : Program) (m : Model) : (top p m).Belongs p := by
  intro v hv
  rw [top, ofList, Config.isSome_get?_foldl_set] at hv
  obtain ⟨value, hvalue⟩ := hv.resolve_left nofun
  obtain ⟨d, hd, hb⟩ := List.mem_filterMap.mp hvalue
  obtain ⟨dom, _, hb⟩ := Option.map_eq_some_iff.mp hb
  exact ⟨d, Array.mem_toList_iff.mp hd, congrArg Prod.fst hb⟩

lemma Config.startEnv_belongs (hinitial : c.initial.Belongs p) : (c.startEnv p m).Belongs p := by
  intro v hv
  rcases isSome_get?_foldl_set.mp hv with hv | ⟨value, hvalue⟩
  · exact Env.top_belongs p m v hv
  · exact hinitial.of_mem hvalue

namespace Analysis

end Analysis

end Running

end Tracewise
