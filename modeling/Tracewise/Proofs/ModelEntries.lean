import Tracewise.Proofs.Workshop

/-! What a model holds for the nodes and variables of its programs. A node has an entry if its own
hint and those of its operands have a meaning; whether the operands have entries is not asked. -/

namespace Tracewise

open Fallible

namespace IdMap

variable {α β : Type}

def record (map : IdMap β) (k : UInt32) : Option β → IdMap β
  | none => map
  | some b => map.insert k b

lemma get?_record (map : IdMap β) (k j : UInt32) (o : Option β) :
    (map.record k o).get? j = if j = k then o.or (map.get? k) else map.get? j := by
  cases o with
  | none =>
    rw [record, Option.none_or]
    split
    · rename_i hj
      rw [hj]
    · rfl
  | some b => exact get?_insert map k j b

variable {i : α → UInt32} {f : α → Option β} {k : UInt32} {v : Option β} {l : List α}
  {map : IdMap β}

lemma get?_foldl_record_of_eq (hf : ∀ a ∈ l, i a = k → f a = v) (hmap : map.get? k = v) :
    (l.foldl (fun acc a => acc.record (i a) (f a)) map).get? k = v := by
  refine List.foldlRecOn (motive := fun acc : IdMap β => acc.get? k = v) l _ hmap ?_
  intro acc hacc a ha
  rw [get?_record]
  split
  · rename_i hk
    rw [hf a ha hk.symm, ← hk, hacc, Option.or_self]
  · exact hacc

lemma get?_foldl_record (hf : ∀ a ∈ l, i a = k → f a = v) (hmap : map.get? k = none)
    (hl : ∃ a ∈ l, i a = k) :
    (l.foldl (fun acc a => acc.record (i a) (f a)) map).get? k = v := by
  induction l generalizing map with
  | nil => simp at hl
  | cons a l ih =>
    obtain ⟨ha, hf⟩ := List.forall_mem_cons.mp hf
    rw [List.foldl_cons]
    by_cases hk : i a = k
    · apply get?_foldl_record_of_eq hf
      rw [get?_record, if_pos hk.symm, ha hk, hk, hmap, Option.or_none]
    · refine ih hf ?_ ?_
      · rw [get?_record, if_neg (Ne.symm hk), hmap]
      · obtain ⟨x, hx, hxk⟩ := hl
        rcases List.mem_cons.mp hx with rfl | hx
        · exact absurd hxk hk
        · exact ⟨x, hx, hxk⟩

end IdMap

namespace Mention

def decl? : Mention → Option Decl
  | var d => some d
  | expr _ => none

def expr? : Mention → Option Expr
  | var _ => none
  | expr e => some e

end Mention

lemma Program.operand_mem_exprs {p : Program} {e x : Expr} (he : e ∈ p.exprs)
    (hx : x ∈ e.operands) : x ∈ p.exprs := by
  obtain ⟨a, ha, e', he', hnode⟩ := Block.mem_exprs.mp he
  exact Block.mem_exprs.mpr ⟨a, ha, e', he', Expr.operand_mem_nodes hnode hx⟩

lemma Workshop.Orderly.programs_unambiguous {w : Workshop} (h : w.Orderly) {programs : List Program}
    (hprograms : ∀ q ∈ programs, w.Assembles q) :
    Expr.Unambiguous (programs.flatMap Program.exprs) := by
  apply h.unambiguous
  intro x hx
  obtain ⟨q, hq, hx⟩ := List.mem_flatMap.mp hx
  exact h.program_exprs (hprograms q hq) hx

namespace ModelBuilder

variable {b : ModelBuilder} {programs : List Program} {known : Interpreted}

def learned (b : ModelBuilder) (mentions : List Mention) : Interpreted where
  vars := (mentions.filterMap Mention.decl?).foldl
    (fun acc d => acc.record d.id.val ((b.meaning? d.hint).map Meaning.typed)) .empty
  meanings := (mentions.filterMap Mention.expr?).foldl
    (fun acc e => acc.record e.id.val (b.meaning? e.hint)) .empty
  exprs := (mentions.filterMap Mention.expr?).filter fun e => (b.meaning? e.hint).isSome
  semantics := mentions.filterMap fun x => (b.meaning? x.hint).map (·.interpretation.semantics)

lemma learned_snoc (b : ModelBuilder) (mentions : List Mention) (x : Mention) :
    b.learned (mentions ++ [x]) = (b.learned mentions).learn x (b.meaning? x.hint) := by
  cases x with
  | var d =>
    cases hm : b.meaning? d.hint <;>
      simp [learned, Interpreted.learn, List.filterMap_cons, Mention.hint, Mention.decl?,
        Mention.expr?, IdMap.record, hm]
  | expr e =>
    cases hm : b.meaning? e.hint <;>
      simp [learned, Interpreted.learn, List.filterMap_cons, Mention.hint, Mention.decl?,
        Mention.expr?, IdMap.record, hm]

lemma foldl_learn (b : ModelBuilder) (mentions : List Mention) :
    mentions.foldl (fun acc x => acc.learn x (b.meaning? x.hint)) .empty = b.learned mentions := by
  induction mentions using List.reverseRecOn with
  | nil => rfl
  | append_singleton mentions x ih =>
    rw [List.foldl_append, ih, learned_snoc]
    rfl

lemma known_eq_ok_iff :
    b.known programs = .ok known ↔
      (∀ x ∈ programs.flatMap Program.mentions, b.interpret x.hint = .ok (b.meaning? x.hint)) ∧
        known = b.learned (programs.flatMap Program.mentions) := by
  rw [← foldl_learn]
  exact foldlM_ask_eq_ok_iff (q := fun x : Mention => b.interpret x.hint)
    (g := Interpreted.learn) fun x answer => eq_meaning_of_interpret

lemma interpret_of_isSome {hint : Option TypeHint} (h : (b.meaning? hint).isSome) :
    b.interpret hint = .ok (b.meaning? hint) := by
  cases hint with
  | none => cases h
  | some hint =>
    cases htype : b.typer hint with
    | none => simp [meaning?, htype] at h
    | some type =>
      cases hinterpretation : b.interpreter type with
      | none => simp [meaning?, htype, hinterpretation] at h
      | some interpretation => simp [interpret, meaning?, htype, hinterpretation]

lemma exists_known (h : ∀ x ∈ programs.flatMap Program.mentions, (b.meaning? x.hint).isSome) :
    ∃ known, b.known programs = .ok known :=
  ⟨_, known_eq_ok_iff.mpr ⟨fun x hx => interpret_of_isSome (h x hx), rfl⟩⟩

lemma mem_mentioned_exprs {e : Expr} :
    e ∈ (programs.flatMap Program.mentions).filterMap Mention.expr? ↔
      e ∈ programs.flatMap Program.exprs := by
  simp only [List.mem_filterMap, List.mem_flatMap]
  constructor
  · rintro ⟨x, ⟨p, hp, hx⟩, he⟩
    rcases Program.mem_mentions.mp hx with ⟨d, _, rfl⟩ | ⟨e', he', rfl⟩
    · cases he
    · cases he
      exact ⟨p, hp, he'⟩
  · rintro ⟨p, hp, he⟩
    exact ⟨.expr e, ⟨p, hp, Program.mem_mentions.mpr (.inr ⟨e, he, rfl⟩)⟩, rfl⟩

lemma mem_mentioned_decls {d : Decl} :
    d ∈ (programs.flatMap Program.mentions).filterMap Mention.decl? ↔
      ∃ p ∈ programs, d ∈ p.decls := by
  simp only [List.mem_filterMap, List.mem_flatMap]
  constructor
  · rintro ⟨x, ⟨p, hp, hx⟩, hd⟩
    rcases Program.mem_mentions.mp hx with ⟨d', hd', rfl⟩ | ⟨e, _, rfl⟩
    · cases hd
      exact ⟨p, hp, hd'⟩
    · cases hd
  · rintro ⟨p, hp, hd⟩
    exact ⟨.var d, ⟨p, hp, Program.mem_mentions.mpr (.inl ⟨d, hd, rfl⟩)⟩, rfl⟩

lemma get?_vars_of_unique (hknown : b.known programs = .ok known) {p : Program} (hp : p ∈ programs)
    {d : Decl} (hd : d ∈ p.decls)
    (hunique : ∀ q ∈ programs, ∀ d' ∈ q.decls, d'.id.val = d.id.val → d' = d) :
    known.vars.get? d.id.val = (b.meaning? d.hint).map Meaning.typed := by
  rw [(known_eq_ok_iff.mp hknown).2]
  refine IdMap.get?_foldl_record (i := fun d : Decl => d.id.val) ?_ rfl
    ⟨d, mem_mentioned_decls.mpr ⟨p, hp, hd⟩, rfl⟩
  intro d' hd' hid
  obtain ⟨q, hq, hd'⟩ := mem_mentioned_decls.mp hd'
  rw [hunique q hq d' hd' hid]

def entryOf (b : ModelBuilder) (known : Interpreted) (e : Expr) :
    Except ModelError (Option Entry) :=
  match known.meanings.get? e.id.val with
  | none => .ok none
  | some m => b.entry known e m

lemma addEntry_eq (b : ModelBuilder) (known : Interpreted) :
    b.addEntry known = fun entries e => do
      return entries.record e.id.val (← b.entryOf known e) := by
  funext entries e
  rw [addEntry, entryOf]
  cases known.meanings.get? e.id.val with
  | none => rfl
  | some m =>
    dsimp only
    refine bind_congr fun new => ?_
    cases new <;> rfl

lemma entries_eq_ok_iff {entries : IdMap Entry} :
    b.entries known = .ok entries ↔
      (∀ e ∈ known.exprs, b.entryOf known e = .ok (b.entryOf known e).toOption.join) ∧
        entries = known.exprs.foldl
          (fun acc e => acc.record e.id.val (b.entryOf known e).toOption.join) .empty := by
  rw [ModelBuilder.entries, addEntry_eq]
  refine foldlM_ask_eq_ok_iff (q := b.entryOf known)
    (f := fun e => (b.entryOf known e).toOption.join)
    (g := fun entries e new => IdMap.record entries e.id.val new) fun e new hnew => ?_
  rw [hnew]
  rfl

lemma isSome_mapM {α β : Type} {f : α → Option β} {l : List α} :
    (l.mapM f).isSome ↔ ∀ a ∈ l, (f a).isSome := by
  induction l with
  | nil => simp
  | cons a l ih =>
    rw [List.mapM_cons, List.forall_mem_cons, ← ih]
    cases f a <;> cases l.mapM f <;> simp

lemma isSome_of_entry_eq_ok {e : Expr} {m : Meaning} {entry : Option Entry}
    (h : b.entry known e m = .ok entry) :
    entry.isSome ↔ ∀ x ∈ e.operands, (known.meanings.get? x.id.val).isSome := by
  have hop : ∀ {op}, operationEntry known e op m = .ok entry →
      (entry.isSome ↔ ∀ x ∈ e.operands, (known.meanings.get? x.id.val).isSome) := by
    intro op h
    rw [← isSome_mapM]
    rw [operationEntry] at h
    cases hoperands : e.operands.mapM fun x => known.meanings.get? x.id.val with
    | none =>
      rw [hoperands] at h
      cases h
      rfl
    | some operands =>
      rw [hoperands] at h
      dsimp only at h
      split at h
      · cases h
      · split at h
        · cases h
        · cases h
          rfl
  cases e with
  | ident info v =>
    cases h
    simp [Expr.operands]
  | lit info text =>
    rw [ModelBuilder.entry] at h
    cases hlit : b.literalEntry (.lit info text) text m with
    | error err =>
      rw [hlit] at h
      cases h
    | ok new =>
      rw [hlit] at h
      cases h
      simp [Expr.operands]
  | unary info op x => exact hop h
  | binary info op l r => exact hop h

section Lookup

variable (hids : Expr.Unambiguous (programs.flatMap Program.exprs))
include hids

lemma get?_meanings (hknown : b.known programs = .ok known) {e : Expr}
    (he : e ∈ programs.flatMap Program.exprs) :
    known.meanings.get? e.id.val = b.meaning? e.hint := by
  rw [(known_eq_ok_iff.mp hknown).2]
  refine IdMap.get?_foldl_record (i := fun e : Expr => e.id.val) ?_ rfl
    ⟨e, mem_mentioned_exprs.mpr he, rfl⟩
  intro e' he' hid
  rw [hids.eq_of_val (mem_mentioned_exprs.mp he') he hid]

lemma entryOf_eq_ok (hknown : b.known programs = .ok known) {m : Model}
    (hentries : b.entries known = .ok m.entries) {e : Expr}
    (he : e ∈ programs.flatMap Program.exprs) : b.entryOf known e = .ok (m.entry? e) := by
  have hmeaning := get?_meanings hids hknown he
  obtain ⟨hall, hentries⟩ := entries_eq_ok_iff.mp hentries
  have hexprs : ∀ x, x ∈ known.exprs ↔
      x ∈ programs.flatMap Program.exprs ∧ (b.meaning? x.hint).isSome := by
    intro x
    rw [(known_eq_ok_iff.mp hknown).2, learned, List.mem_filter, mem_mentioned_exprs]
  have hsame : ∀ x ∈ known.exprs, x.id.val = e.id.val → x = e := fun x hx =>
    hids.eq_of_val ((hexprs x).mp hx).1 he
  rw [Model.entry?, hentries]
  cases hm : b.meaning? e.hint with
  | none =>
    rw [entryOf, hmeaning, hm]
    refine congrArg Except.ok
      (IdMap.get?_foldl_record_of_eq (v := none) ?_ (IdMap.get?_empty _)).symm
    intro x hx hid
    have hsome := ((hexprs x).mp hx).2
    rw [hsame x hx hid, hm] at hsome
    cases hsome
  | some meaning =>
    have hmem : e ∈ known.exprs := (hexprs e).mpr ⟨he, by rw [hm]; rfl⟩
    rw [hall e hmem]
    refine congrArg Except.ok (IdMap.get?_foldl_record ?_ rfl ⟨e, hmem, rfl⟩).symm
    intro x hx hid
    rw [hsame x hx hid]

lemma entryOf_of_meaning (hknown : b.known programs = .ok known) {e : Expr}
    (he : e ∈ programs.flatMap Program.exprs) {meaning : Meaning}
    (hmeaning : b.meaning? e.hint = some meaning) :
    b.entryOf known e = b.entry known e meaning := by
  rw [entryOf, get?_meanings hids hknown he, hmeaning]

lemma exists_built (hknown : b.known programs = .ok known)
    (hentries : ∀ e ∈ programs.flatMap Program.exprs, ∃ found, b.entryOf known e = .ok found) :
    ∃ m, b.built programs = .ok m ∧ m.vars = known.vars ∧
      ∀ e ∈ programs.flatMap Program.exprs, b.entryOf known e = .ok (m.entry? e) := by
  obtain ⟨entries, hbuilt⟩ : ∃ entries, b.entries known = .ok entries := by
    refine ⟨_, entries_eq_ok_iff.mpr ⟨fun e he => ?_, rfl⟩⟩
    obtain ⟨q, hq, he⟩ := (knows_known hknown).exprs e he
    obtain ⟨found, hfound⟩ := hentries e (List.mem_flatMap.mpr ⟨q, hq, he⟩)
    rw [hfound]
    rfl
  refine ⟨⟨entries, known.vars⟩, ?_, rfl, fun e he => entryOf_eq_ok hids hknown hbuilt he⟩
  rw [built, hknown, ok_bind, hbuilt]
  rfl

lemma isSome_entry? {m : Model} (hknown : b.known programs = .ok known)
    (hentries : b.entries known = .ok m.entries) {p : Program} (hp : p ∈ programs) {e : Expr}
    (he : e ∈ p.exprs) :
    (m.entry? e).isSome ↔
      (b.meaning? e.hint).isSome ∧ ∀ x ∈ e.operands, (b.meaning? x.hint).isSome := by
  have hmem : ∀ x ∈ p.exprs, x ∈ programs.flatMap Program.exprs := fun x hx =>
    List.mem_flatMap.mpr ⟨p, hp, hx⟩
  have hentry := entryOf_eq_ok hids hknown hentries (hmem e he)
  rw [entryOf, get?_meanings hids hknown (hmem e he)] at hentry
  cases hm : b.meaning? e.hint with
  | none =>
    rw [hm] at hentry
    rw [← Except.ok.inj hentry]
    simp
  | some meaning =>
    rw [hm] at hentry
    simp only [isSome_of_entry_eq_ok hentry, Option.isSome_some, true_and]
    refine forall₂_congr fun x hx => ?_
    rw [get?_meanings hids hknown (hmem x (Program.operand_mem_exprs he hx))]

end Lookup

end ModelBuilder

open ModelBuilder

theorem Model.entries_by_hints {w : Workshop} (hw : w.Reachable) {programs : List Program}
    (hprograms : ∀ q ∈ programs, w.Assembles q) {b : ModelBuilder} {cache : ModelCache} {m : Model}
    (hcache : Reached b.typer b.interpreter cache) (hrun : (b.run cache programs).1 = .ok m)
    {p : Program} (hp : p ∈ programs) {e : Expr} (he : e ∈ p.exprs) :
    ((m.entry? e).isSome ↔
      (b.meaning? e.hint).isSome ∧ ∀ x ∈ e.operands, (b.meaning? x.hint).isSome) ∧
      ((m.entry? e).isSome → ∀ x ∈ e.operands,
        ((m.entry? x).isSome ↔ ∀ y ∈ x.operands, (b.meaning? y.hint).isSome)) := by
  have hids := hw.orderly.programs_unambiguous hprograms
  rw [run_eq_built hcache] at hrun
  obtain ⟨known, hknown, hentries, _⟩ := built_eq_ok hrun
  have hentry : ∀ {e}, e ∈ p.exprs → ((m.entry? e).isSome ↔
      (b.meaning? e.hint).isSome ∧ ∀ x ∈ e.operands, (b.meaning? x.hint).isSome) :=
    isSome_entry? hids hknown hentries hp
  refine ⟨hentry he, fun hsome x hx => ?_⟩
  rw [hentry (Program.operand_mem_exprs he hx), and_iff_right (((hentry he).mp hsome).2 x hx)]

namespace Gap

def x : Ident := ⟨⟨0⟩, "x"⟩

def u : Ident := ⟨⟨1⟩, "u"⟩

def readX : Expr := .ident ⟨⟨0⟩, some "level"⟩ x

def readU : Expr := .ident ⟨⟨1⟩, none⟩ u

def below : Expr := .binary ⟨⟨2⟩, some "flag"⟩ .lt readX readU

def notBelow : Expr := .unary ⟨⟨3⟩, some "flag"⟩ .not below

def decls : Array Decl :=
  #[⟨⟨0⟩, "x", some "level", none⟩, ⟨⟨1⟩, "u", none, none⟩]

def program : Program :=
  ⟨"gap", decls, .loop (.atom (.assume below none) .done) (.atom (.assume notBelow none) .done)⟩

def workshop : Workshop := ⟨⟨4, 2⟩, [⟨"gap", decls⟩], [notBelow, below, readU, readX]⟩

lemma reachable : workshop.Reachable := by
  let w₀ : Workshop := ⟨⟨0, 0⟩, [.new "gap"], []⟩
  let w₁ : Workshop := ⟨⟨0, 1⟩, [⟨"gap", #[⟨⟨0⟩, "x", some "level", none⟩]⟩], []⟩
  let w₂ : Workshop := ⟨⟨0, 2⟩, [⟨"gap", decls⟩], []⟩
  let w₃ : Workshop := ⟨⟨1, 2⟩, [⟨"gap", decls⟩], [readX]⟩
  let w₄ : Workshop := ⟨⟨2, 2⟩, [⟨"gap", decls⟩], [readU, readX]⟩
  let w₅ : Workshop := ⟨⟨3, 2⟩, [⟨"gap", decls⟩], [below, readU, readX]⟩
  have h₀ : Workshop.start.Step w₀ := .builder "gap"
  have h₁ : w₀.Step w₁ := .var [] (.new "gap") [] rfl (by decide) rfl
  have h₂ : w₁.Step w₂ := .var [] ⟨"gap", _⟩ [] rfl (by decide) rfl
  have h₃ : w₂.Step w₃ := .expr (.ident x List.mem_cons_self) (by decide) rfl
  have h₄ : w₃.Step w₄ := .expr (.ident u List.mem_cons_self) (by decide) rfl
  have h₅ : w₄.Step w₅ := .expr
    (.binary .lt (some "flag") (List.mem_cons_of_mem _ List.mem_cons_self) List.mem_cons_self)
    (by decide) rfl
  have h₆ : w₅.Step workshop := .expr (.unary .not (some "flag") List.mem_cons_self)
    (by decide) rfl
  exact .tail (.tail (.tail (.tail (.tail (.tail (.single h₀) h₁) h₂) h₃) h₄) h₅) h₆

lemma builds : workshop.Builds program :=
  ⟨⟨"gap", decls⟩, List.mem_singleton_self _, program.body, rfl, by decide +kernel,
    by decide +kernel⟩

def builder : ModelBuilder := ⟨Climb.typer, .standard, false⟩

def model : Model := (builder.run .empty [program]).1.toOption.getD .empty

lemma run_eq_ok : (builder.run .empty [program]).1 = .ok model :=
  Model.run_of_isSome (by decide +kernel)

theorem entries_by_hints_gap :
    notBelow ∈ program.exprs ∧
      ((model.entry? notBelow).isSome ↔ (builder.meaning? notBelow.hint).isSome ∧
        ∀ x ∈ notBelow.operands, (builder.meaning? x.hint).isSome) ∧
      (model.entry? notBelow).isSome ∧
      ∀ x ∈ notBelow.operands,
        ((model.entry? x).isSome ↔ ∀ y ∈ x.operands, (builder.meaning? y.hint).isSome) := by
  have he : notBelow ∈ program.exprs := by decide +kernel
  have hsome : (model.entry? notBelow).isSome := by decide +kernel
  obtain ⟨hiff, hoperands⟩ := Model.entries_by_hints reachable
    (fun q hq => List.mem_singleton.mp hq ▸ builds.assembles) .empty run_eq_ok
    (List.mem_singleton_self program) he
  exact ⟨he, hiff, hsome, hoperands hsome⟩

theorem entries_not_closed :
    workshop.Reachable ∧ workshop.Builds program ∧ builder.interpreter = .standard ∧
      (builder.run .empty [program]).1 = .ok model ∧ notBelow ∈ program.exprs ∧
      (model.entry? notBelow).isSome ∧ below ∈ notBelow.operands ∧
      (model.entry? below).isSome = false :=
  ⟨reachable, builds, rfl, run_eq_ok, by decide +kernel, by decide +kernel,
    List.mem_singleton_self _, by decide +kernel⟩

end Gap

end Tracewise
