import Tracewise.Program.Builder
import Tracewise.Proofs.ModelBuilding

namespace Tracewise

namespace Atom

def vars : Atom → List VarId
  | assign x e => x.var :: e.vars
  | read x => [x.var]
  | use x => [x.var]
  | assume cond _ => cond.vars

def needs : Atom → List VarId
  | use _ => []
  | a => a.vars

lemma needs_subset (a : Atom) : a.needs ⊆ a.vars := by
  cases a with
  | use x => exact List.nil_subset _
  | assign x e => exact List.Subset.refl _
  | read x => exact List.Subset.refl _
  | assume cond purpose => exact List.Subset.refl _

end Atom

structure Workshop where
  supply : Supply
  builders : List Builder
  exprs : List Expr

namespace Workshop

def start : Workshop := ⟨.start, [], []⟩

def decls (w : Workshop) : List Decl := w.builders.flatMap fun b => b.decls.toList

inductive Makes (w : Workshop) : Building Expr → Prop
  | ident {b : Builder} (v : Ident) : b ∈ w.builders → Makes w (b.ident v)
  | lit (text : String) (hint : Option TypeHint) : Makes w (Expr.newLit text hint)
  | unary (op : UnOp) {x : Expr} (hint : Option TypeHint) : x ∈ w.exprs →
      Makes w (Expr.newUnary op x hint)
  | binary (op : BinOp) {l r : Expr} (hint : Option TypeHint) : l ∈ w.exprs → r ∈ w.exprs →
      Makes w (Expr.newBinary op l r hint)

inductive Step (w : Workshop) : Workshop → Prop
  | builder (name : String) : Step w { w with builders := w.builders ++ [.new name] }
  | var (before : List Builder) (b : Builder) (after : List Builder) {b' : Builder}
      {name : String} {hint : Option TypeHint} {purpose : Option Purpose} {v : Ident}
      {supply : Supply} :
      w.builders = before ++ b :: after → w.supply.nextVar.toNat + 1 < 2 ^ 32 →
      (b.declare name hint purpose).run w.supply = ((v, b'), supply) →
      Step w { w with supply := supply, builders := before ++ b' :: after }
  | expr {build : Building Expr} {e : Expr} {supply : Supply} :
      w.Makes build → w.supply.nextExpr.toNat + 1 < 2 ^ 32 → build.run w.supply = (e, supply) →
      Step w { w with supply := supply, exprs := e :: w.exprs }

def Reachable (w : Workshop) : Prop := Relation.ReflTransGen Step start w

def Builds (w : Workshop) (p : Program) : Prop :=
  ∃ b ∈ w.builders, ∃ body : Block, p = b.build body ∧
    (∀ a ∈ body.atoms, ∀ e ∈ a.exprs, e ∈ w.exprs) ∧
    ∀ a ∈ body.atoms, ∀ v ∈ a.vars, ∃ d ∈ b.decls, d.id = v

def Assembles (w : Workshop) (p : Program) : Prop :=
  ∃ b ∈ w.builders, ∃ body : Block, p = b.build body ∧
    ∀ a ∈ body.atoms, ∀ e ∈ a.exprs, e ∈ w.exprs

lemma Builds.assembles {w : Workshop} {p : Program} (h : w.Builds p) : w.Assembles p := by
  obtain ⟨b, hb, body, hp, hexprs, _⟩ := h
  exact ⟨b, hb, body, hp, hexprs⟩

structure Numbered {α : Type} (id : α → UInt32) (next : UInt32) (l : List α) : Prop where
  lt : ∀ x ∈ l, id x < next
  eq : ∀ x ∈ l, ∀ y ∈ l, id x = id y → x = y

structure Orderly (w : Workshop) : Prop where
  decls : Numbered (fun d => d.id.val) w.supply.nextVar w.decls
  exprs : Numbered (fun e => e.id.val) w.supply.nextExpr w.exprs
  operands : ∀ e ∈ w.exprs, ∀ x ∈ e.operands, x ∈ w.exprs
  hints : ∀ e ∈ w.exprs, ∀ v hint, e.ident? = some v → e.hint = some hint →
    ∃ d ∈ w.decls, d.id = v.var ∧ d.hint = some hint

lemma mem_decls {w : Workshop} {d : Decl} : d ∈ w.decls ↔ ∃ b ∈ w.builders, d ∈ b.decls := by
  simp [decls]

end Workshop

namespace Decl

lemma mem_of_bisect {decls : Array Decl} {id : VarId} {fuel lo hi : Nat} {d : Decl}
    (h : bisect decls id fuel lo hi = some d) : d ∈ decls ∧ d.id = id := by
  induction fuel generalizing lo hi with
  | zero => cases h
  | succ fuel ih =>
    rw [bisect] at h
    split at h
    · dsimp only at h
      split at h
      · cases h
      · rename_i d' hd'
        split at h
        · rename_i hid
          obtain rfl := Option.some.inj h
          exact ⟨Array.mem_of_getElem? hd', hid⟩
        · split at h
          · exact ih h
          · exact ih h
    · cases h

end Decl

namespace Workshop

variable {w w' : Workshop}

lemma makes_run {build : Building Expr} (h : w.Makes build) :
    ∃ e, build.run w.supply = (e, { w.supply with nextExpr := w.supply.nextExpr + 1 }) ∧
      e.id.val = w.supply.nextExpr ∧ (∀ x ∈ e.operands, x ∈ w.exprs) ∧
      ∀ v hint, e.ident? = some v → e.hint = some hint →
        ∃ d ∈ w.decls, d.id = v.var ∧ d.hint = some hint := by
  cases h with
  | @ident b v hb =>
    refine ⟨.ident ⟨⟨w.supply.nextExpr⟩, b.hintOf v⟩ v, rfl, rfl, nofun, ?_⟩
    rintro _ hint ⟨⟩ hhint
    obtain ⟨d, hd, hdhint⟩ := Option.bind_eq_some_iff.mp hhint
    obtain ⟨hmem, hid⟩ := Decl.mem_of_bisect hd
    exact ⟨d, mem_decls.mpr ⟨b, hb, hmem⟩, hid, hdhint⟩
  | lit text hint => exact ⟨.lit ⟨⟨w.supply.nextExpr⟩, hint⟩ text, rfl, rfl, nofun, nofun⟩
  | @unary op x hint hx =>
    refine ⟨.unary ⟨⟨w.supply.nextExpr⟩, hint⟩ op x, rfl, rfl, ?_, nofun⟩
    intro y hy
    rw [List.mem_singleton.mp hy]
    exact hx
  | @binary op l r hint hl hr =>
    refine ⟨.binary ⟨⟨w.supply.nextExpr⟩, hint⟩ op l r, rfl, rfl, ?_, nofun⟩
    intro y hy
    rcases List.mem_cons.mp hy with rfl | hy
    · exact hl
    · rw [List.mem_singleton.mp hy]
      exact hr

lemma Numbered.snoc {α : Type} {id : α → UInt32} {next : UInt32} {l l' : List α} {new : α}
    (h : Numbered id next l) (hroom : next.toNat + 1 < 2 ^ 32) (hnew : id new = next)
    (hl : ∀ x ∈ l', x ∈ l ∨ x = new) : Numbered id (next + 1) l' := by
  have hsucc : (next + 1).toNat = next.toNat + 1 := by
    rw [UInt32.toNat_add]
    exact Nat.mod_eq_of_lt hroom
  have hlt : ∀ x ∈ l, (id x).toNat < next.toNat := fun x hx => UInt32.lt_iff_toNat_lt.mp (h.lt x hx)
  have hne : ∀ x ∈ l, id x ≠ id new := by
    intro x hx heq
    have := hlt x hx
    rw [heq, hnew] at this
    exact lt_irrefl _ this
  constructor
  · intro x hx
    rw [UInt32.lt_iff_toNat_lt, hsucc]
    rcases hl x hx with hx | rfl
    · exact Nat.lt_succ_of_lt (hlt x hx)
    · rw [hnew]
      exact Nat.lt_succ_self _
  · intro x hx y hy heq
    rcases hl x hx with hx | rfl <;> rcases hl y hy with hy | rfl
    · exact h.eq x hx y hy heq
    · exact absurd heq (hne x hx)
    · exact absurd heq.symm (hne y hy)
    · rfl

lemma orderly_start : start.Orderly where
  decls := ⟨nofun, nofun⟩
  exprs := ⟨nofun, nofun⟩
  operands := nofun
  hints := nofun

lemma Orderly.step (h : w.Orderly) (hstep : w.Step w') : w'.Orderly := by
  cases hstep with
  | builder name =>
    have hdecls : Workshop.decls { w with builders := w.builders ++ [.new name] } = w.decls := by
      simp [Workshop.decls, Builder.new]
    exact ⟨hdecls ▸ h.decls, h.exprs, h.operands, hdecls ▸ h.hints⟩
  | @var before b after b' name hint purpose v supply hbuilders hroom hrun =>
    cases hrun
    let new : Decl := ⟨⟨w.supply.nextVar⟩, name, hint, purpose⟩
    have hmem : ∀ d, d ∈ Workshop.decls ⟨{ w.supply with nextVar := w.supply.nextVar + 1 },
        before ++ { b with decls := b.decls.push new } :: after, w.exprs⟩ ↔
        d ∈ w.decls ∨ d = new := by
      intro d
      simp only [Workshop.decls, hbuilders, List.flatMap_append, List.flatMap_cons,
        List.mem_append, Array.toList_push, List.mem_singleton]
      tauto
    have hid : new.id.val = w.supply.nextVar := rfl
    refine ⟨h.decls.snoc hroom hid fun d hd => (hmem d).mp hd, h.exprs, h.operands, ?_⟩
    intro e he v hint hv hhint
    obtain ⟨d, hd, hdecl⟩ := h.hints e he v hint hv hhint
    exact ⟨d, (hmem d).mpr (Or.inl hd), hdecl⟩
  | @expr build e supply hmakes hroom hrun =>
    obtain ⟨new, hrun', hid, hoperands, hhints⟩ := makes_run hmakes
    cases hrun.symm.trans hrun'
    refine ⟨h.decls, h.exprs.snoc hroom hid fun x hx => (List.mem_cons.mp hx).symm, ?_, ?_⟩
    · intro x hx y hy
      apply List.mem_cons_of_mem
      rcases List.mem_cons.mp hx with rfl | hx
      · exact hoperands y hy
      · exact h.operands x hx y hy
    · intro x hx
      rcases List.mem_cons.mp hx with rfl | hx
      · exact hhints
      · exact h.hints x hx

lemma Reachable.orderly (h : w.Reachable) : w.Orderly := by
  induction h with
  | refl => exact orderly_start
  | tail _ hstep ih => exact ih.step hstep

lemma Orderly.nodes (h : w.Orderly) {e x : Expr} (he : e ∈ w.exprs) (hx : x ∈ e.nodes) :
    x ∈ w.exprs := by
  induction e using Expr.operands_induction with
  | h e ih =>
    rcases Expr.mem_nodes_iff.mp hx with rfl | ⟨y, hy, hxy⟩
    · exact he
    · exact ih y hy (h.operands e he y hy) hxy

end Workshop

namespace Block

lemma mem_exprs {b : Block} {x : Expr} :
    x ∈ b.exprs ↔ ∃ a ∈ b.atoms, ∃ e ∈ a.exprs, x ∈ e.nodes := by
  induction b with
  | done => simp [exprs, atoms]
  | atom a next ih => simp [exprs, atoms, ih]
  | split fst snd next ihf ihs ihn =>
    simp only [exprs, atoms, List.mem_append, ihf, ihs, ihn, or_and_right, exists_or]
  | loop body next ihb ihn =>
    simp only [exprs, atoms, List.mem_append, ihb, ihn, or_and_right, exists_or]

end Block

namespace Workshop.Orderly

variable {w : Workshop}

lemma program_exprs (h : w.Orderly) {p : Program} (hp : w.Assembles p) {x : Expr}
    (hx : x ∈ p.exprs) : x ∈ w.exprs := by
  obtain ⟨b, _, body, rfl, hbody⟩ := hp
  obtain ⟨a, ha, e, he, hx⟩ := Block.mem_exprs.mp hx
  exact h.nodes (hbody a ha e he) hx

lemma unambiguous (h : w.Orderly) {l : List Expr} (hl : ∀ x ∈ l, x ∈ w.exprs) :
    Expr.Unambiguous l := by
  intro x hx y hy hid
  exact h.exprs.eq x (hl x hx) y (hl y hy) (congrArg ExprId.val hid)

end Workshop.Orderly

lemma Model.Standard.ident_domain {m : Model} {programs : List Program} (hm : m.Standard programs)
    {w : Workshop} (hw : w.Orderly) (hbuilds : ∀ q ∈ programs, w.Assembles q) {e : Expr}
    (hids : Expr.Unambiguous (e.nodes ++ programs.flatMap Program.exprs)) {x : Expr}
    (hx : x ∈ e.nodes) (hxw : x ∈ w.exprs) {v : Ident} (hv : x.ident? = some v)
    (hentry : (m.entry? x).isSome) (hvar : (m.varDomain? v.var).isSome) :
    m.exprDomain? x = m.varDomain? v.var := by
  obtain ⟨b, known, _, hknown, hmade, hknownVars⟩ := hm.known
  obtain ⟨entry, hentry⟩ := Option.isSome_iff_exists.mp hentry
  obtain ⟨meaning, _, hentry', hmeaning⟩ := exists_meaning hknown hmade hx hids hentry
  obtain ⟨hint, hhint, _⟩ := Option.bind_eq_some_iff.mp hmeaning
  obtain ⟨d, hd, hdid, hdhint⟩ := hw.hints x hxw v hint hv hhint
  obtain ⟨dom, hdom⟩ := Option.isSome_iff_exists.mp hvar
  obtain ⟨t, ht, rfl⟩ := Option.map_eq_some_iff.mp hdom
  rw [hknownVars] at ht
  obtain ⟨q, hq, d', hd', hid', meaning', hmeaning', rfl⟩ := hknown.vars _ _ ht
  have hdecl : d' = d := by
    obtain ⟨b', hb', body, rfl, _⟩ := hbuilds q hq
    refine hw.decls.eq d' (Workshop.mem_decls.mpr ⟨b', hb', hd'⟩) d hd ?_
    rw [hdid]
    exact hid'
  rw [hdecl, hdhint, ← hhint, hmeaning] at hmeaning'
  obtain rfl := Option.some.inj hmeaning'
  rw [hdom, exprDomain_of_entry hentry, Entry.domain, ModelBuilder.typed_of_entry hentry']

/-- A standard model of a program that was built over its own variables, perhaps of other programs
as well. -/
def Model.Interprets (m : Model) (p : Program) : Prop :=
  ∃ (w : Workshop) (programs : List Program), w.Reachable ∧ (∀ q ∈ programs, w.Builds q) ∧
    p ∈ programs ∧ m.Standard programs

/-- A standard model of a program and others. The program declares the variables whose values it
needs; nothing is asked of the variables of the others. -/
def Model.Serves (m : Model) (p : Program) : Prop :=
  ∃ (w : Workshop) (programs : List Program), w.Reachable ∧ (∀ q ∈ programs, w.Assembles q) ∧
    p ∈ programs ∧ (∀ a ∈ p.body.atoms, ∀ v ∈ a.needs, ∃ d ∈ p.decls, d.id = v) ∧
    m.Standard programs

lemma Model.Interprets.serves {m : Model} {p : Program} (h : m.Interprets p) : m.Serves p := by
  obtain ⟨w, programs, hw, hbuilds, hp, hm⟩ := h
  refine ⟨w, programs, hw, fun q hq => (hbuilds q hq).assembles, hp, ?_, hm⟩
  obtain ⟨b, _, body, rfl, _, hvars⟩ := hbuilds p hp
  exact fun a ha v hv => hvars a ha v (a.needs_subset hv)

namespace Model.Serves

variable {m : Model} {p : Program} {a : Atom}

lemma declared (h : m.Serves p) (ha : a ∈ p.body.atoms) {v : VarId} (hv : v ∈ a.needs) :
    ∃ d ∈ p.decls, d.id = v := by
  obtain ⟨_, _, _, _, _, hdeclared, _⟩ := h
  exact hdeclared a ha v hv

lemma models (h : m.Serves p) (ha : a ∈ p.body.atoms) {e : Expr} (he : e ∈ a.exprs)
    (hentries : ∀ x ∈ e.nodes, (m.entry? x).isSome)
    (hvars : ∀ v ∈ e.vars, (m.varDomain? v).isSome) : m.Models e := by
  obtain ⟨w, programs, hw, hbuilds, hp, _, hm⟩ := h
  have hnodes : ∀ x ∈ e.nodes, x ∈ w.exprs := fun x hx =>
    hw.orderly.program_exprs (hbuilds p hp) (Block.mem_exprs.mpr ⟨a, ha, e, he, hx⟩)
  have hids : Expr.Unambiguous (e.nodes ++ programs.flatMap Program.exprs) := by
    apply hw.orderly.unambiguous
    intro x hx
    rcases List.mem_append.mp hx with hx | hx
    · exact hnodes x hx
    · obtain ⟨q, hq, hx⟩ := List.mem_flatMap.mp hx
      exact hw.orderly.program_exprs (hbuilds q hq) hx
  refine hm.models hids hentries ?_
  intro x hx v hv
  apply hm.ident_domain hw.orderly hbuilds hids hx (hnodes x hx) hv (hentries x hx)
  exact hvars v.var (List.mem_filterMap.mpr ⟨x, hx, by rw [hv]; rfl⟩)

end Model.Serves

namespace Climb

def x : Ident := ⟨⟨0⟩, "x"⟩

def y : Ident := ⟨⟨1⟩, "y"⟩

def readX : Expr := .ident ⟨⟨0⟩, some "level"⟩ x

def readY : Expr := .ident ⟨⟨1⟩, some "level"⟩ y

def below : Expr := .binary ⟨⟨2⟩, some "flag"⟩ .lt readX readY

def body : Block :=
  .loop (.atom (.assume below none) (.atom (.assign x readY) .done))
    (.atom (.assume below (some (.derefCheck readX))) .done)

def decls : Array Decl :=
  #[⟨⟨0⟩, "x", some "level", none⟩, ⟨⟨1⟩, "y", some "level", none⟩]

def program : Program := ⟨"climb", decls, body⟩

def typer : Typer := fun hint => if hint = "flag" then some .bool else some (.int 0 3)

def model : Model :=
  ((⟨typer, .standard, false⟩ : ModelBuilder).run .empty [program]).1.toOption.getD .empty

lemma standard_model : model.Standard [program] :=
  Model.standard_of_isSome rfl (by decide +kernel)

def workshop : Workshop := ⟨⟨3, 2⟩, [⟨"climb", decls⟩], [below, readY, readX]⟩

lemma reachable : workshop.Reachable := by
  let w₀ : Workshop := ⟨⟨0, 0⟩, [.new "climb"], []⟩
  let w₁ : Workshop := ⟨⟨0, 1⟩, [⟨"climb", #[⟨⟨0⟩, "x", some "level", none⟩]⟩], []⟩
  let w₂ : Workshop := ⟨⟨0, 2⟩, [⟨"climb", decls⟩], []⟩
  let w₃ : Workshop := ⟨⟨1, 2⟩, [⟨"climb", decls⟩], [readX]⟩
  let w₄ : Workshop := ⟨⟨2, 2⟩, [⟨"climb", decls⟩], [readY, readX]⟩
  have h₀ : Workshop.start.Step w₀ := .builder "climb"
  have h₁ : w₀.Step w₁ := .var [] (.new "climb") [] rfl (by decide) rfl
  have h₂ : w₁.Step w₂ := .var [] ⟨"climb", _⟩ [] rfl (by decide) rfl
  have h₃ : w₂.Step w₃ := .expr (.ident x List.mem_cons_self) (by decide) rfl
  have h₄ : w₃.Step w₄ := .expr (.ident y List.mem_cons_self) (by decide) rfl
  have h₅ : w₄.Step workshop := .expr
    (.binary .lt (some "flag") (List.mem_cons_of_mem _ List.mem_cons_self) List.mem_cons_self)
    (by decide) rfl
  exact .tail (.tail (.tail (.tail (.tail (.single h₀) h₁) h₂) h₃) h₄) h₅

lemma interprets : model.Interprets program := by
  refine ⟨workshop, [program], reachable, ?_, List.mem_singleton_self _, standard_model⟩
  intro q hq
  rw [List.mem_singleton.mp hq]
  exact ⟨⟨"climb", decls⟩, List.mem_singleton_self _, body, rfl, by decide +kernel,
    by decide +kernel⟩

def store : Store := fun v => if v = x.var then .int 1 else .int 2

lemma store_yields_below : model.Yields store below (.bool true) :=
  ⟨⟨.int 1, .int 2, rfl, rfl, rfl⟩, .bool, by decide +kernel, trivial⟩

end Climb

end Tracewise
