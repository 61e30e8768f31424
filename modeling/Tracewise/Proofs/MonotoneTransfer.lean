import Tracewise.Proofs.Admission
import Tracewise.Proofs.Locality
import Tracewise.Proofs.MonotoneInverses

namespace Tracewise

open Fallible

lemma Enumeration.literal_le_top {e : Enumeration} {text : String} {s : ElemSet}
    (h : e.literal? text = some s) : Value.elems s ≤ (Domain.finite e).top := by
  obtain ⟨i, _, rfl⟩ := Option.map_eq_some_iff.mp h
  intro d hd
  obtain ⟨j, rfl, hj⟩ := Value.mem_elems.mp hd
  rw [ElemSet.mem_singleton] at hj
  rw [Domain.mem_top, hj]
  exact i.isLt

lemma Interpreter.literal_le_top {type : SemType} {i : Interpretation} {text : String}
    {value : Value} (hi : Interpreter.standard type = some i) (h : i.literal? text = some value) :
    value ≤ i.domain.top := by
  cases type with
  | bool =>
    obtain rfl := Option.some.inj hi
    obtain ⟨s, rfl⟩ : ∃ s, value = .bools s := by
      simp only [Interpretation.bool, Interpretation.boolLiteral?] at h
      split at h
      · exact ⟨_, (Option.some.inj h).symm⟩
      · split at h
        · exact ⟨_, (Option.some.inj h).symm⟩
        · cases h
    exact Forward.bools_le_top s
  | int min max =>
    rw [Interpreter.standard] at hi
    split at hi
    · obtain rfl := Option.some.inj hi
      obtain ⟨n, _, h⟩ := Option.bind_eq_some_iff.mp h
      obtain ⟨w, _, h⟩ := Option.bind_eq_some_iff.mp h
      split at h
      · rename_i hrange
        obtain rfl := Option.some.inj h
        rw [Int64.le_iff_toInt_le, Int64.le_iff_toInt_le] at hrange
        intro d hd
        obtain ⟨k, rfl, hk⟩ := Value.mem_ints.mp hd
        rw [Interval.constant, Interval.spans_between] at hk
        rw [Domain.mem_top]
        exact ⟨hrange.1.trans hk.1, hk.2.trans hrange.2⟩
      · cases h
    · cases hi
  | enum name literals =>
    rw [Interpreter.standard] at hi
    split at hi
    · obtain rfl := Option.some.inj hi
      obtain ⟨s, hs, rfl⟩ := Option.map_eq_some_iff.mp h
      exact Enumeration.literal_le_top hs
    · cases hi
  | access name =>
    obtain rfl := Option.some.inj hi
    obtain ⟨s, hs, rfl⟩ := Option.map_eq_some_iff.mp h
    exact Enumeration.literal_le_top hs

def Domain.BelowLimit : Domain → Prop
  | .int r => r.max < Int64.maxValue
  | _ => True

instance (dom : Domain) : Decidable dom.BelowLimit :=
  match dom with
  | .bool => .isTrue trivial
  | .int r => inferInstanceAs (Decidable (r.max < Int64.maxValue))
  | .finite _ => .isTrue trivial

namespace Model

open ModelBuilder

def LiteralsInRange (m : Model) : Prop :=
  ∀ x t value, m.entry? x = some (.lit t value) → value ≤ t.domain.top

lemma Standard.literalsInRange {m : Model} {programs : List Program} (hm : m.Standard programs) :
    m.LiteralsInRange := by
  obtain ⟨b, known, hb, hknown, hentries, _⟩ := hm.known
  intro x t value hentry
  obtain ⟨e, _, meaning, _, hmeaning, hmade⟩ := entry_of_get? hentries hentry
  obtain ⟨_, _, e', _, _, hhint⟩ := hknown.meanings _ _ hmeaning
  obtain ⟨hint, _, hhint⟩ := Option.bind_eq_some_iff.mp hhint
  obtain ⟨type, _, hhint⟩ := Option.bind_eq_some_iff.mp hhint
  obtain ⟨interpretation, hinterpretation, hhint⟩ := Option.bind_eq_some_iff.mp hhint
  cases hhint
  rw [hb] at hinterpretation
  cases e with
  | ident info v => cases hmade
  | lit info text =>
    rw [ModelBuilder.entry] at hmade
    cases hlit : b.literalEntry (.lit info text) text ⟨type, interpretation⟩ with
    | error e =>
      rw [hlit] at hmade
      cases hmade
    | ok entry =>
      rw [hlit] at hmade
      cases hmade
      rw [literalEntry] at hlit
      split at hlit
      · rename_i value' hvalue'
        cases hlit
        exact Interpreter.literal_le_top hinterpretation (Option.filter_eq_some_iff.mp hvalue').1
      · split at hlit
        · cases hlit
          exact le_rfl
        · cases hlit
  | unary info op y =>
    obtain ⟨_, _, _, hop, _⟩ := operationEntry_eq_ok hmade
    cases hop
  | binary info op l r =>
    obtain ⟨_, _, _, hop, _⟩ := operationEntry_eq_ok hmade
    cases hop

lemma Serves.literalsInRange {m : Model} {p : Program} (h : m.Serves p) : m.LiteralsInRange := by
  obtain ⟨_, _, _, _, _, _, hm⟩ := h
  exact hm.literalsInRange

/-- The integer domains of an expression and its operands stop short of the last word. -/
def BelowLimit (m : Model) (e : Expr) : Prop :=
  ∀ x ∈ e.nodes, ∀ dom ∈ m.exprDomain? x, dom.BelowLimit

instance (m : Model) (e : Expr) : Decidable (m.BelowLimit e) :=
  inferInstanceAs (Decidable (∀ x ∈ e.nodes, ∀ dom ∈ m.exprDomain? x, dom.BelowLimit))

variable {m : Model} {e : Expr} {env env' : Env}

lemma BelowLimit.operand (h : m.BelowLimit e) {x : Expr} (hx : x ∈ e.operands) : m.BelowLimit x :=
  fun y hy => h y (Expr.mem_nodes_of_operand hx hy)

lemma eval_mono (he : m.Models e) (henv : ∀ v ∈ e.vars, env.Binds m v)
    (henv' : ∀ v ∈ e.vars, env'.Binds m v) (hle : env ≤ env') {a a' : Value}
    (ha : m.eval env e = .ok a) (ha' : m.eval env' e = .ok a') : a ≤ a' := by
  induction e generalizing a a' with
  | ident info v =>
    obtain ⟨_, b, _, hb, _⟩ := henv v.var
      (List.mem_filterMap.mpr ⟨_, Expr.mem_nodes_self _, rfl⟩)
    obtain ⟨b', hb', hbb'⟩ := hle v.var b hb
    rw [eval, hb] at ha
    rw [eval, hb'] at ha'
    obtain rfl := Except.ok.inj ha
    obtain rfl := Except.ok.inj ha'
    exact hbb'
  | lit info text =>
    obtain ⟨t, value, ht, _⟩ := he.node
    simp only [eval, ht] at ha ha'
    obtain rfl := Except.ok.inj (ha.symm.trans ha')
    exact le_rfl
  | unary info op x ih =>
    have hx : x ∈ (Expr.unary info op x).operands := List.mem_singleton_self x
    have hvars := fun v hv => henv v (Expr.mem_vars_of_operand hx hv)
    have hvars' := fun v hv => henv' v (Expr.mem_vars_of_operand hx hv)
    obtain ⟨t, definition, inverse, doms, ht, hdoms, hdef, _⟩ := he.node
    obtain ⟨dom, rfl, hdom⟩ := Forward.operands_unary hdoms
    obtain ⟨b, hb, hacc, _⟩ := eval_at (he.operand hx) hvars hdom
    obtain ⟨b', hb', hacc', _⟩ := eval_at (he.operand hx) hvars' hdom
    simp only [eval, ht, hb, ok_bind] at ha
    simp only [eval, ht, hb', ok_bind] at ha'
    exact (Forward.mono_definition hdef (.cons hacc .nil) (.cons hacc' .nil)
      (.cons (ih (he.operand hx) hvars hvars' hb hb') .nil) ha ha').1
  | binary info op l r ihl ihr =>
    have hl : l ∈ (Expr.binary info op l r).operands := List.mem_cons_self
    have hr : r ∈ (Expr.binary info op l r).operands := List.mem_cons_of_mem _ List.mem_cons_self
    have hvarsl := fun v hv => henv v (Expr.mem_vars_of_operand hl hv)
    have hvarsl' := fun v hv => henv' v (Expr.mem_vars_of_operand hl hv)
    have hvarsr := fun v hv => henv v (Expr.mem_vars_of_operand hr hv)
    have hvarsr' := fun v hv => henv' v (Expr.mem_vars_of_operand hr hv)
    obtain ⟨t, definition, inverse, doms, ht, hdoms, hdef, _⟩ := he.node
    obtain ⟨doml, domr, rfl, hdoml, hdomr⟩ := Forward.operands_binary hdoms
    obtain ⟨b, hb, haccb, _⟩ := eval_at (he.operand hl) hvarsl hdoml
    obtain ⟨b', hb', haccb', _⟩ := eval_at (he.operand hl) hvarsl' hdoml
    obtain ⟨c, hc, haccc, _⟩ := eval_at (he.operand hr) hvarsr hdomr
    obtain ⟨c', hc', haccc', _⟩ := eval_at (he.operand hr) hvarsr' hdomr
    simp only [eval, ht, hb, hc, ok_bind] at ha
    simp only [eval, ht, hb', hc', ok_bind] at ha'
    exact (Forward.mono_definition hdef (.cons haccb (.cons haccc .nil))
      (.cons haccb' (.cons haccc' .nil)) (.cons (ihl (he.operand hl) hvarsl hvarsl' hb hb')
        (.cons (ihr (he.operand hr) hvarsr hvarsr' hc hc') .nil)) ha ha').1

lemma eval_le_top (hlit : m.LiteralsInRange) (he : m.Models e)
    (henv : ∀ v ∈ e.vars, env.Binds m v) (hrange : env.InRange m) {dom : Domain}
    (hdom : m.exprDomain? e = some dom) {a : Value} (ha : m.eval env e = .ok a) : a ≤ dom.top := by
  cases e with
  | ident info v =>
    obtain ⟨t, ht, hvar⟩ := he.node
    obtain rfl := Option.some.inj ((exprDomain_of_entry ht).symm.trans hdom)
    obtain ⟨_, b, _, hb, _⟩ := henv v.var
      (List.mem_filterMap.mpr ⟨_, Expr.mem_nodes_self _, rfl⟩)
    rw [eval, hb] at ha
    obtain rfl := Except.ok.inj ha
    exact hrange v.var b _ hb hvar
  | lit info text =>
    obtain ⟨t, value, ht, _⟩ := he.node
    obtain rfl := Option.some.inj ((exprDomain_of_entry ht).symm.trans hdom)
    simp only [eval, ht] at ha
    obtain rfl := Except.ok.inj ha
    exact hlit _ _ _ ht
  | unary info op x =>
    have hx : x ∈ (Expr.unary info op x).operands := List.mem_singleton_self x
    obtain ⟨t, definition, inverse, doms, ht, hdoms, hdef, _⟩ := he.node
    obtain rfl := Option.some.inj ((exprDomain_of_entry ht).symm.trans hdom)
    obtain ⟨domx, rfl, hdomx⟩ := Forward.operands_unary hdoms
    obtain ⟨b, hb, hacc, _⟩ := eval_at (he.operand hx)
      (fun v hv => henv v (Expr.mem_vars_of_operand hx hv)) hdomx
    simp only [eval, ht, hb, ok_bind] at ha
    exact (Forward.mono_definition hdef (.cons hacc .nil) (.cons hacc .nil)
      (.cons le_rfl .nil) ha ha).2
  | binary info op l r =>
    have hl : l ∈ (Expr.binary info op l r).operands := List.mem_cons_self
    have hr : r ∈ (Expr.binary info op l r).operands := List.mem_cons_of_mem _ List.mem_cons_self
    obtain ⟨t, definition, inverse, doms, ht, hdoms, hdef, _⟩ := he.node
    obtain rfl := Option.some.inj ((exprDomain_of_entry ht).symm.trans hdom)
    obtain ⟨doml, domr, rfl, hdoml, hdomr⟩ := Forward.operands_binary hdoms
    obtain ⟨b, hb, haccb, _⟩ := eval_at (he.operand hl)
      (fun v hv => henv v (Expr.mem_vars_of_operand hl hv)) hdoml
    obtain ⟨c, hc, haccc, _⟩ := eval_at (he.operand hr)
      (fun v hv => henv v (Expr.mem_vars_of_operand hr hv)) hdomr
    simp only [eval, ht, hb, hc, ok_bind] at ha
    exact (Forward.mono_definition hdef (.cons haccb (.cons haccc .nil))
      (.cons haccb (.cons haccc .nil)) (.cons le_rfl (.cons le_rfl .nil)) ha ha).2

lemma eval_limit (hlit : m.LiteralsInRange) (he : m.Models e) (hlimit : m.BelowLimit e)
    (henv : ∀ v ∈ e.vars, env.Binds m v) (hrange : env.InRange m) {a : Value}
    (ha : m.eval env e = .ok a) : Datum.int Int64.maxValue.toInt ∉ a := by
  obtain ⟨dom, _, hdom, _⟩ := eval_spec he henv
  intro hmem
  have htop := eval_le_top hlit he henv hrange hdom ha _ hmem
  rw [Domain.mem_top] at htop
  cases dom with
  | bool => exact htop
  | finite literals => exact htop
  | int r =>
    have hmax := Int64.lt_iff_toInt_lt.mp (hlimit e e.mem_nodes_self (.int r) hdom)
    exact not_lt.mpr htop.2 hmax

lemma invert_mono {op : Op} {t : TypedDomain} {definition : Definition} {inverse : Inverse}
    {doms : List Domain} (hinv : Backward.inverse? op ⟨doms, t.domain⟩ = some inverse)
    {expected expected' : Value} (hexp : t.domain.accepts expected = true)
    (hexp' : t.domain.accepts expected' = true) (hexple : expected ≤ expected')
    {args args' : List Value}
    (hargs : List.Forall₂ (fun dom v => dom.accepts v = true) doms args)
    (hargs' : List.Forall₂ (fun dom v => dom.accepts v = true) doms args')
    (hle : List.Forall₂ (· ≤ ·) args args')
    (hlimit : ∀ a ∈ args, Datum.int Int64.maxValue.toInt ∉ a) {narrowed : List Value}
    (hn : invert (.op t op definition inverse) expected args = .ok (some narrowed)) :
    ∃ narrowed', invert (.op t op definition inverse) expected' args' = .ok (some narrowed') ∧
      List.Forall₂ (· ≤ ·) narrowed narrowed' := by
  obtain ⟨hsome, hn⟩ := invert_eq_some hn
  have hempty : ¬ args'.any Value.isEmpty = true := by
    intro hany
    obtain ⟨a', ha', hnone⟩ := List.any_eq_true.mp hany
    obtain ⟨a, ha, hale⟩ := exists_of_forall₂ hle.flip ha'
    rw [Value.isEmpty_eq_false_of_le hale (hsome a ha)] at hnone
    cases hnone
  obtain ⟨narrowed', hn', hnle⟩ :=
    Backward.mono_inverse hinv hexp hexp' hexple hargs hargs' hle hlimit hn
  obtain ⟨result', hresult', hacc', _⟩ := Backward.sound_inverse hinv expected' args' hexp' hargs'
  obtain rfl := Except.ok.inj (hn'.symm.trans hresult')
  have hlength : narrowed'.length = args'.length :=
    (hacc' narrowed' rfl).length_eq.symm.trans hargs'.length_eq
  refine ⟨narrowed', ?_, hnle⟩
  rw [invert, if_neg hempty, hn', ok_bind]
  simp only [hlength, if_true, pure_eq_ok]

theorem refine_le {expected : Value} (h : m.refine e env expected = .ok (some f)) : f ≤ env :=
  (refine_writes h).le

lemma ok_unless_empty_mono {c c' : Value} {g g' : Env} (hc : c ≤ c') (hg : g ≤ g')
    (h : (.ok (if c.isEmpty then none else some g) : Except Fault (Option Env)) = .ok (some f)) :
    ∃ f', (.ok (if c'.isEmpty then none else some g') : Except Fault (Option Env)) =
      .ok (some f') ∧ f ≤ f' := by
  obtain ⟨hnonempty, ⟨⟩⟩ := Option.ite_none_left_eq_some.mp (Except.ok.inj h)
  rw [Value.isEmpty_eq_false_of_le hc (Bool.eq_false_of_not_eq_true hnonempty)]
  exact ⟨g', rfl, hg⟩

def RefinesMonotonically (m : Model) (e : Expr) : Prop :=
  ∀ ⦃env env' f : Env⦄ ⦃dom : Domain⦄ ⦃expected expected' : Value⦄,
    (∀ v ∈ e.vars, env.Binds m v) → (∀ v ∈ e.vars, env'.Binds m v) → env.InRange m → env ≤ env' →
    m.exprDomain? e = some dom → dom.accepts expected = true → dom.accepts expected' = true →
    expected ≤ expected' → m.refine e env expected = .ok (some f) →
      ∃ f', m.refine e env' expected' = .ok (some f') ∧ f ≤ f'

variable {info : ExprInfo}

lemma refine_ident {v : Ident} {dom : Domain} {expected : Value} (he : m.Models (.ident info v))
    (henv : env.Binds m v.var) (hdom : m.exprDomain? (.ident info v) = some dom)
    (hexp : dom.accepts expected = true) :
    ∃ value c, env.get? v.var = some value ∧ (∀ d, d ∈ c ↔ d ∈ value ∧ d ∈ expected) ∧
      m.refine (.ident info v) env expected =
        .ok (if c.isEmpty then none else some (env.set v.var c)) := by
  obtain ⟨t, ht, hvar⟩ := he.node
  obtain rfl := Option.some.inj ((exprDomain_of_entry ht).symm.trans hdom)
  obtain ⟨dom, value, hdom', hvalue, hacc⟩ := henv
  obtain rfl := Option.some.inj (hvar.symm.trans hdom')
  obtain ⟨c, hc, _, hmem⟩ := Domain.meet_spec hacc hexp
  have hc : (Entry.ident t).domain.meet value expected = .ok c := hc
  exact ⟨value, c, hvalue, hmem, by simp only [refine, ht, eval, hvalue, ok_bind, hc, pure_eq_ok]⟩

lemma refinesMonotonically_ident {v : Ident} (he : m.Models (.ident info v)) :
    m.RefinesMonotonically (.ident info v) := by
  intro env env' f dom expected expected' henv henv' _ hle hdom hexp hexp' hexple h
  have hv : v.var ∈ (Expr.ident info v).vars :=
    List.mem_filterMap.mpr ⟨_, Expr.mem_nodes_self _, rfl⟩
  obtain ⟨value, c, hvalue, hc, hrefine⟩ := refine_ident he (henv v.var hv) hdom hexp
  obtain ⟨value', c', hvalue', hc', hrefine'⟩ := refine_ident he (henv' v.var hv) hdom hexp'
  obtain ⟨b, hb, hvaluele⟩ := hle v.var value hvalue
  obtain rfl := Option.some.inj (hvalue'.symm.trans hb)
  have hcle : c ≤ c' := by
    intro d hd
    rw [hc] at hd
    rw [hc']
    exact ⟨hvaluele d hd.1, hexple d hd.2⟩
  rw [hrefine] at h
  rw [hrefine']
  exact ok_unless_empty_mono hcle (Env.set_le_set hle hcle) h

lemma refine_lit {text : String} {dom : Domain} (he : m.Models (.lit info text))
    (hdom : m.exprDomain? (.lit info text) = some dom) :
    ∃ value : Value, (∀ env, m.eval env (.lit info text) = .ok value) ∧
      ∀ expected, dom.accepts expected = true →
        ∃ c : Value, (∀ d, d ∈ c ↔ d ∈ value ∧ d ∈ expected) ∧
          ∀ env, m.refine (.lit info text) env expected =
            .ok (if c.isEmpty then none else some env) := by
  obtain ⟨t, value, ht, hacc⟩ := he.node
  obtain rfl := Option.some.inj ((exprDomain_of_entry ht).symm.trans hdom)
  refine ⟨value, fun env => by simp only [eval, ht], fun expected hexp => ?_⟩
  obtain ⟨c, hc, _, hmem⟩ := Domain.meet_spec hacc hexp
  have hc : (Entry.lit t value).domain.meet value expected = .ok c := hc
  exact ⟨c, hmem, fun env => by simp only [refine, ht, eval, ok_bind, hc, pure_eq_ok]⟩

lemma refinesMonotonically_lit {text : String} (he : m.Models (.lit info text)) :
    m.RefinesMonotonically (.lit info text) := by
  intro env env' f dom expected expected' _ _ _ hle hdom hexp hexp' hexple h
  obtain ⟨value, _, hrefine⟩ := refine_lit he hdom
  obtain ⟨c, hc, hrefinec⟩ := hrefine expected hexp
  obtain ⟨c', hc', hrefinec'⟩ := hrefine expected' hexp'
  have hcle : c ≤ c' := by
    intro d hd
    rw [hc] at hd
    rw [hc']
    exact ⟨hd.1, hexple d hd.2⟩
  rw [hrefinec] at h
  rw [hrefinec']
  exact ok_unless_empty_mono hcle hle h

lemma refinesMonotonically_unary (hlit : m.LiteralsInRange) {op : UnOp} {x : Expr}
    (he : m.Models (.unary info op x)) (hlimit : m.BelowLimit (.unary info op x))
    (hx : m.RefinesMonotonically x) : m.RefinesMonotonically (.unary info op x) := by
  intro env env' f dom expected expected' henv henv' hrange hle hdom hexp hexp' hexple h
  have hmem : x ∈ (Expr.unary info op x).operands := List.mem_singleton_self x
  have hvars := fun v hv => henv v (Expr.mem_vars_of_operand hmem hv)
  have hvars' := fun v hv => henv' v (Expr.mem_vars_of_operand hmem hv)
  obtain ⟨t, definition, inverse, doms, ht, hdoms, _, hinv⟩ := he.node
  obtain rfl := Option.some.inj ((exprDomain_of_entry ht).symm.trans hdom)
  obtain ⟨domx, rfl, hdomx⟩ := Forward.operands_unary hdoms
  obtain ⟨a, ha, hacc, _⟩ := eval_at (he.operand hmem) hvars hdomx
  obtain ⟨a', ha', hacc', _⟩ := eval_at (he.operand hmem) hvars' hdomx
  obtain ⟨narrowed, hn, hnacc, _⟩ := invert_spec definition hinv hexp (.cons hacc .nil)
  obtain ⟨narrowed', hn', hnacc', _⟩ := invert_spec definition hinv hexp' (.cons hacc' .nil)
  cases narrowed with
  | none =>
    simp only [refine, ht, ha, ok_bind, hn, pure_eq_ok] at h
    cases h
  | some narrowed =>
    have hbelow : ∀ b ∈ [a], Datum.int Int64.maxValue.toInt ∉ b := by
      intro b hb
      rw [List.mem_singleton.mp hb]
      exact eval_limit hlit (he.operand hmem) (hlimit.operand hmem) hvars hrange ha
    obtain ⟨found, hfound, hnle⟩ := invert_mono hinv hexp hexp' hexple (.cons hacc .nil)
      (.cons hacc' .nil) (.cons (eval_mono (he.operand hmem) hvars hvars' hle ha ha') .nil) hbelow hn
    obtain rfl := Except.ok.inj (hn'.symm.trans hfound)
    obtain ⟨b, rfl, hb⟩ := Forward.operands_unary (hnacc narrowed rfl)
    obtain ⟨b', rfl, hb'⟩ := Forward.operands_unary (hnacc' found rfl)
    simp only [refine, ht, ha, ok_bind, hn] at h
    simp only [refine, ht, ha', ok_bind, hn']
    exact hx hvars hvars' hrange hle hdomx hb hb' (List.forall₂_cons.mp hnle).1 h

lemma refinesMonotonically_binary (hlit : m.LiteralsInRange) {op : BinOp} {l r : Expr}
    (he : m.Models (.binary info op l r)) (hlimit : m.BelowLimit (.binary info op l r))
    (hl : m.RefinesMonotonically l) (hr : m.RefinesMonotonically r) :
    m.RefinesMonotonically (.binary info op l r) := by
  intro env env' f dom expected expected' henv henv' hrange hle hdom hexp hexp' hexple h
  have hmeml : l ∈ (Expr.binary info op l r).operands := List.mem_cons_self
  have hmemr : r ∈ (Expr.binary info op l r).operands := List.mem_cons_of_mem _ List.mem_cons_self
  have hvarsl := fun v hv => henv v (Expr.mem_vars_of_operand hmeml hv)
  have hvarsl' := fun v hv => henv' v (Expr.mem_vars_of_operand hmeml hv)
  have hvarsr := fun v hv => henv v (Expr.mem_vars_of_operand hmemr hv)
  have hvarsr' := fun v hv => henv' v (Expr.mem_vars_of_operand hmemr hv)
  obtain ⟨t, definition, inverse, doms, ht, hdoms, _, hinv⟩ := he.node
  obtain rfl := Option.some.inj ((exprDomain_of_entry ht).symm.trans hdom)
  obtain ⟨doml, domr, rfl, hdoml, hdomr⟩ := Forward.operands_binary hdoms
  obtain ⟨a, ha, hacca, _⟩ := eval_at (he.operand hmeml) hvarsl hdoml
  obtain ⟨a', ha', hacca', _⟩ := eval_at (he.operand hmeml) hvarsl' hdoml
  obtain ⟨b, hb, haccb, _⟩ := eval_at (he.operand hmemr) hvarsr hdomr
  obtain ⟨b', hb', haccb', _⟩ := eval_at (he.operand hmemr) hvarsr' hdomr
  obtain ⟨narrowed, hn, hnacc, _⟩ :=
    invert_spec definition hinv hexp (.cons hacca (.cons haccb .nil))
  obtain ⟨narrowed', hn', hnacc', _⟩ :=
    invert_spec definition hinv hexp' (.cons hacca' (.cons haccb' .nil))
  cases narrowed with
  | none =>
    simp only [refine, ht, ha, hb, ok_bind, hn, pure_eq_ok] at h
    cases h
  | some narrowed =>
    have hbelow : ∀ c ∈ [a, b], Datum.int Int64.maxValue.toInt ∉ c := by
      intro c hc
      rcases List.mem_cons.mp hc with rfl | hc
      · exact eval_limit hlit (he.operand hmeml) (hlimit.operand hmeml) hvarsl hrange ha
      · rw [List.mem_singleton.mp hc]
        exact eval_limit hlit (he.operand hmemr) (hlimit.operand hmemr) hvarsr hrange hb
    obtain ⟨found, hfound, hnle⟩ := invert_mono hinv hexp hexp' hexple
      (.cons hacca (.cons haccb .nil)) (.cons hacca' (.cons haccb' .nil))
      (.cons (eval_mono (he.operand hmeml) hvarsl hvarsl' hle ha ha')
        (.cons (eval_mono (he.operand hmemr) hvarsr hvarsr' hle hb hb') .nil)) hbelow hn
    obtain rfl := Except.ok.inj (hn'.symm.trans hfound)
    obtain ⟨c, d, rfl, hc, hd⟩ := Forward.operands_binary (hnacc narrowed rfl)
    obtain ⟨c', d', rfl, hc', hd'⟩ := Forward.operands_binary (hnacc' found rfl)
    simp only [List.forall₂_cons] at hnle
    simp only [refine, ht, ha, hb, ok_bind, hn] at h
    obtain ⟨envl, henvl, h⟩ := bind_eq_ok h
    cases envl with
    | none => cases h
    | some envl =>
      obtain ⟨envl', henvl', hlle⟩ := hl hvarsl hvarsl' hrange hle hdoml hc hc' hnle.1 henvl
      obtain ⟨_, hresult, hrevises, _⟩ := refinable_of_models (he.operand hmeml) hvarsl hdoml hc
      obtain rfl := Except.ok.inj (henvl.symm.trans hresult)
      obtain ⟨_, hresult', hrevises', _⟩ :=
        refinable_of_models (he.operand hmeml) hvarsl' hdoml hc'
      obtain rfl := Except.ok.inj (henvl'.symm.trans hresult')
      obtain ⟨f', hf', hrle⟩ := hr (fun v hv => (hrevises envl rfl).binds (hvarsr v hv))
        (fun v hv => (hrevises' envl' rfl).binds (hvarsr' v hv)) (hrange.mono (refine_le henvl)) hlle
        hdomr hd hd' hnle.2.1 h
      refine ⟨f', ?_, hrle⟩
      simp only [refine, ht, ha', hb', ok_bind, hn', henvl', hf']

theorem refinesMonotonically_of_models (hlit : m.LiteralsInRange) (he : m.Models e)
    (hlimit : m.BelowLimit e) : m.RefinesMonotonically e := by
  induction e with
  | ident info v => exact refinesMonotonically_ident he
  | lit info text => exact refinesMonotonically_lit he
  | unary info op x ih =>
    have hx : x ∈ (Expr.unary info op x).operands := List.mem_cons_self
    exact refinesMonotonically_unary hlit he hlimit (ih (he.operand hx) (hlimit.operand hx))
  | binary info op l r ihl ihr =>
    have hl : l ∈ (Expr.binary info op l r).operands := List.mem_cons_self
    have hr : r ∈ (Expr.binary info op l r).operands := List.mem_cons_of_mem _ List.mem_cons_self
    exact refinesMonotonically_binary hlit he hlimit (ihl (he.operand hl) (hlimit.operand hl))
      (ihr (he.operand hr) (hlimit.operand hr))

end Model

lemma Domain.clamp_mono {dom : Domain} {a b : Value} (ha : dom.accepts a = true)
    (hb : dom.accepts b = true) (h : a ≤ b) : dom.clamp a ≤ dom.clamp b := by
  cases dom with
  | bool => exact h
  | finite e => exact h
  | int r =>
    obtain ⟨i, rfl⟩ := accepts_int.mp ha
    obtain ⟨j, rfl⟩ := accepts_int.mp hb
    rw [Value.ints_le_ints] at h
    exact (Value.ints_le_ints _ _).mpr (Interval.meet_mono h le_rfl)

lemma Domain.clamp_le_top {target source : Domain} (hhold : target.canHold source = true) {a : Value}
    (ha : source.accepts a = true) (htop : a ≤ source.top) : target.clamp a ≤ target.top := by
  cases target <;> cases source <;> simp only [canHold, Bool.false_eq_true] at hhold
  · exact htop
  · obtain ⟨i, rfl⟩ := accepts_int.mp ha
    exact Forward.clamp_le_top _ i
  · rw [beq_iff_eq] at hhold
    subst hhold
    exact htop

namespace Model

variable {m : Model} {vars env env' f : Env} {atom : Option Atom}

lemma transfer_assign {x : Ident} {e : Expr} {target : Domain} {value : Value}
    (hvalue : m.eval env e = .ok value) (htarget : m.varDomain? x.var = some target) :
    m.transfer (some (.assign x e)) env =
      .ok (if (target.clamp value).isEmpty then none
        else some (env.set x.var (target.clamp value))) := by
  simp only [transfer, hvalue, ok_bind, htarget, pure_eq_ok]

theorem transfer_inRange (hlit : m.LiteralsInRange) (hatom : m.Admits vars atom)
    (htyped : env.Typed m) (hvars : vars.SameVars env) (hrange : env.InRange m)
    (h : m.transfer atom env = .ok (some f)) : f.InRange m := by
  match atom with
  | some (.assign x e) =>
    obtain ⟨he, hev, _, target, source, htarget, hsource, hhold⟩ := hatom
    have hev := fun v hv => binds_of_typed htyped hvars (hev v hv)
    obtain ⟨a, ha, hacc, _⟩ := eval_at he hev hsource
    rw [transfer_assign ha htarget] at h
    obtain ⟨_, ⟨⟩⟩ := Option.ite_none_left_eq_some.mp (Except.ok.inj h)
    exact hrange.set htarget
      (Domain.clamp_le_top hhold hacc (eval_le_top hlit he hev hrange hsource ha))
  | some (.read x) =>
    obtain ⟨_, dom, hdom⟩ := hatom
    simp only [transfer, hdom, Option.map_some, pure_eq_ok] at h
    obtain rfl := Option.some.inj (Except.ok.inj h)
    exact hrange.set hdom le_rfl
  | some (.assume cond purpose) => exact hrange.mono (refine_le h)
  | some (.use x) =>
    obtain rfl := Option.some.inj (Except.ok.inj h)
    exact hrange
  | none =>
    obtain rfl := Option.some.inj (Except.ok.inj h)
    exact hrange

/-- A statement that is passed monotonically: the integers in an assumption stop short of the last
word. -/
def Tame (m : Model) : Option Atom → Prop
  | some (.assume cond _) => m.BelowLimit cond
  | _ => True

instance (m : Model) (atom : Option Atom) : Decidable (m.Tame atom) :=
  match atom with
  | some (.assume cond _) => inferInstanceAs (Decidable (m.BelowLimit cond))
  | some (.assign ..) => .isTrue trivial
  | some (.read _) => .isTrue trivial
  | some (.use _) => .isTrue trivial
  | none => .isTrue trivial

theorem transfer_mono (hlit : m.LiteralsInRange) (hatom : m.Admits vars atom) (htame : m.Tame atom)
    (htyped : env.Typed m) (hvars : vars.SameVars env) (htyped' : env'.Typed m)
    (hvars' : vars.SameVars env') (hrange : env.InRange m) (hle : env ≤ env')
    (h : m.transfer atom env = .ok (some f)) :
    ∃ f', m.transfer atom env' = .ok (some f') ∧ f ≤ f' := by
  match atom with
  | some (.assign x e) =>
    obtain ⟨he, hev, _, target, source, htarget, hsource, hhold⟩ := hatom
    have hev' := fun v hv => binds_of_typed htyped' hvars' (hev v hv)
    have hev := fun v hv => binds_of_typed htyped hvars (hev v hv)
    obtain ⟨a, ha, hacc, _⟩ := eval_at he hev hsource
    obtain ⟨a', ha', hacc', _⟩ := eval_at he hev' hsource
    have hclamp : target.clamp a ≤ target.clamp a' :=
      Domain.clamp_mono (Domain.accepts_of_canHold hhold hacc)
        (Domain.accepts_of_canHold hhold hacc') (eval_mono he hev hev' hle ha ha')
    rw [transfer_assign ha htarget] at h
    rw [transfer_assign ha' htarget]
    exact ok_unless_empty_mono hclamp (Env.set_le_set hle hclamp) h
  | some (.read x) =>
    obtain ⟨_, dom, hdom⟩ := hatom
    simp only [transfer, hdom, Option.map_some, pure_eq_ok] at h ⊢
    obtain rfl := Option.some.inj (Except.ok.inj h)
    exact ⟨_, rfl, Env.set_le_set hle le_rfl⟩
  | some (.assume cond purpose) =>
    obtain ⟨hcond, hcv, hbool⟩ := hatom
    have hexp : Domain.bool.accepts (.bools (.singleton true)) = true := rfl
    exact refinesMonotonically_of_models hlit hcond htame
      (fun v hv => binds_of_typed htyped hvars (hcv v hv))
      (fun v hv => binds_of_typed htyped' hvars' (hcv v hv)) hrange hle hbool hexp hexp le_rfl h
  | some (.use x) =>
    obtain rfl := Option.some.inj (Except.ok.inj h)
    exact ⟨env', rfl, hle⟩
  | none =>
    obtain rfl := Option.some.inj (Except.ok.inj h)
    exact ⟨env', rfl, hle⟩

end Model

end Tracewise
