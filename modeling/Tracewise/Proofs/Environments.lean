import Tracewise.Proofs.Datum
import Tracewise.Proofs.Fallible
import Tracewise.State.Env

namespace Tracewise

open Fallible

lemma findEntry_insertEntry {α : Type} (k j : UInt32) (a : α) (l : List (UInt32 × α)) :
    findEntry j (insertEntry k a l) = if j = k then some a else findEntry j l := by
  induction l with
  | nil => rfl
  | cons q rest ih =>
    simp only [insertEntry]
    split
    · rfl
    · split
      · rename_i hk
        subst hk
        by_cases hj : j = q.1 <;> simp [findEntry, hj]
      · rename_i hne
        by_cases hj : j = q.1
        · subst hj
          simp [findEntry, Ne.symm hne]
        · simp [findEntry, hj, ih]

lemma mem_iff_findEntry {α : Type} (l : List (UInt32 × α))
    (h : l.Pairwise (fun p q => p.1 < q.1)) (k : UInt32) (a : α) :
    (k, a) ∈ l ↔ findEntry k l = some a := by
  induction l with
  | nil => simp [findEntry]
  | cons q rest ih =>
    obtain ⟨hq, hrest⟩ := List.pairwise_cons.mp h
    rw [List.mem_cons, ih hrest]
    by_cases hk : k = q.1
    · subst hk
      have hne : findEntry q.1 rest ≠ some a := fun hs =>
        UInt32.lt_irrefl q.1 (hq (q.1, a) ((ih hrest).mpr hs))
      obtain ⟨j, b⟩ := q
      simp only [Prod.mk.injEq, true_and, findEntry, if_true, Option.some.injEq]
      exact ⟨fun h => h.elim Eq.symm fun h => absurd h hne, fun h => .inl h.symm⟩
    · have hne : (k, a) ≠ q := fun h => hk (congrArg Prod.fst h)
      simp [findEntry, hk, hne]

namespace IdMap

variable {α : Type}

@[simp] lemma get?_empty (k : UInt32) : (empty : IdMap α).get? k = none := rfl

@[simp] lemma get?_insert (m : IdMap α) (k j : UInt32) (a : α) :
    (m.insert k a).get? j = if j = k then some a else m.get? j :=
  findEntry_insertEntry k j a m.entries

lemma mem_entries_iff (m : IdMap α) (k : UInt32) (a : α) :
    (k, a) ∈ m.entries ↔ m.get? k = some a :=
  mem_iff_findEntry m.entries m.sorted k a

lemma ext_get? {m n : IdMap α} (h : ∀ k, m.get? k = n.get? k) : m = n := by
  have hmem : ∀ p, p ∈ m.entries ↔ p ∈ n.entries := fun p => by
    rw [m.mem_entries_iff p.1 p.2, n.mem_entries_iff p.1 p.2, h]
  have hne : ∀ p q : UInt32 × α, p.1 < q.1 → p ≠ q := fun p q hpq e =>
    UInt32.lt_irrefl q.1 (e ▸ hpq)
  have hnodup : ∀ i : IdMap α, i.entries.Nodup := fun i => i.sorted.imp (hne _ _)
  have hperm : m.entries.Perm n.entries :=
    (List.perm_ext_iff_of_nodup (hnodup m) (hnodup n)).mpr hmem
  have heq : m.entries = n.entries := hperm.eq_of_pairwise (fun p q _ _ hpq hqp =>
    absurd (UInt32.lt_trans hpq hqp) (UInt32.lt_irrefl p.1)) m.sorted n.sorted
  cases m
  cases n
  cases heq
  rfl

end IdMap

abbrev Store := VarId → Datum

namespace Env

/-- Every variable that the environment binds has one of the values bound to it. -/
def Describes (env : Env) (σ : Store) : Prop :=
  ∀ v value, env.get? v = some value → σ v ∈ value

def Binds (env : Env) (m : Model) (v : VarId) : Prop :=
  ∃ dom value, m.varDomain? v = some dom ∧ env.get? v = some value ∧ dom.accepts value = true

instance (env : Env) (m : Model) (v : VarId) : Decidable (env.Binds m v) :=
  decidable_of_iff
    (((m.varDomain? v).bind fun dom => (env.get? v).map dom.accepts) = some true) <| by
      simp only [Binds, Option.bind_eq_some_iff, Option.map_eq_some_iff]
      constructor
      · rintro ⟨dom, hdom, value, hvalue, hacc⟩
        exact ⟨dom, value, hdom, hvalue, hacc⟩
      · rintro ⟨dom, value, hdom, hvalue, hacc⟩
        exact ⟨dom, hdom, value, hvalue, hacc⟩

def Typed (env : Env) (m : Model) : Prop :=
  ∀ v value, env.get? v = some value → ∃ dom, m.varDomain? v = some dom ∧ dom.accepts value = true

def SameVars (env other : Env) : Prop := ∀ v, (env.get? v).isSome = (other.get? v).isSome

@[simp] lemma get?_set (env : Env) (v w : VarId) (value : Value) :
    (env.set v value).get? w = if w = v then some value else env.get? w := by
  have hval : w.val = v.val ↔ w = v := by
    cases v
    cases w
    simp
  simp only [get?, set, IdMap.get?_insert, hval]

lemma ext_get? {env other : Env} (h : ∀ v, env.get? v = other.get? v) : env = other := by
  have hvalues : env.values = other.values := IdMap.ext_get? fun k => h ⟨k⟩
  cases env
  cases other
  cases hvalues
  rfl

lemma mem_toList (env : Env) (v : VarId) (value : Value) :
    (v, value) ∈ env.toList ↔ env.get? v = some value := by
  rw [toList, get?, ← IdMap.mem_entries_iff, List.mem_map]
  constructor
  · rintro ⟨⟨k, a⟩, h, ⟨⟩⟩
    exact h
  · intro h
    exact ⟨(v.val, value), h, rfl⟩

instance (env : Env) (σ : Store) : Decidable (env.Describes σ) :=
  decidable_of_iff (∀ p ∈ env.toList, σ p.1 ∈ p.2) <| by
    constructor
    · intro h v value hvalue
      exact h (v, value) ((mem_toList env v value).mpr hvalue)
    · rintro h ⟨v, value⟩ hp
      exact h v value ((mem_toList env v value).mp hp)

instance (env : Env) (m : Model) : Decidable (env.Typed m) :=
  decidable_of_iff (∀ p ∈ env.toList, env.Binds m p.1) <| by
    constructor
    · intro h v value hvalue
      obtain ⟨dom, value', hdom, hvalue', hacc⟩ := h (v, value) ((mem_toList env v value).mpr hvalue)
      obtain rfl := Option.some.inj (hvalue.symm.trans hvalue')
      exact ⟨dom, hdom, hacc⟩
    · rintro h ⟨v, value⟩ hp
      have hvalue := (mem_toList env v value).mp hp
      obtain ⟨dom, hdom, hacc⟩ := h v value hvalue
      exact ⟨dom, value, hdom, hvalue, hacc⟩

lemma nodup_toList (env : Env) : (env.toList.map Prod.fst).Nodup := by
  rw [toList, List.map_map]
  apply List.Nodup.map_on
  · intro p hp q hq h
    have hkey : p.1 = q.1 := congrArg VarId.val h
    have hvalue := (env.values.mem_entries_iff p.1 p.2).mp hp
    rw [hkey, (env.values.mem_entries_iff q.1 q.2).mp hq] at hvalue
    exact Prod.ext hkey (Option.some.inj hvalue).symm
  · refine env.values.sorted.imp fun h he => ?_
    rw [he] at h
    exact UInt32.lt_irrefl _ h

lemma SameVars.symm {env other : Env} (h : env.SameVars other) : other.SameVars env :=
  fun v => (h v).symm

lemma SameVars.trans {env other third : Env} (h : env.SameVars other) (h' : other.SameVars third) :
    env.SameVars third :=
  fun v => (h v).trans (h' v)

lemma SameVars.get? {env other : Env} (h : env.SameVars other) {v : VarId} {b : Value}
    (hb : other.get? v = some b) : ∃ a, env.get? v = some a := by
  rw [← Option.isSome_iff_exists, h v, hb]
  rfl

lemma SameVars.eq {env other : Env} (h : env.SameVars other)
    (hvalues : ∀ v a b, env.get? v = some a → other.get? v = some b → a = b) : env = other := by
  apply ext_get?
  intro v
  cases ha : env.get? v with
  | none =>
    have hv := h v
    rw [ha, Option.isSome_none] at hv
    exact (Option.isNone_iff_eq_none.mp (Option.isSome_eq_false_iff.mp hv.symm)).symm
  | some a =>
    obtain ⟨b, hb⟩ := h.symm.get? ha
    rw [hb, hvalues v a b ha hb]

section Combine

variable {f : Domain → Value → Value → Except Fault Value} {env other r : Env} {m : Model}

def Combined (f : Domain → Value → Value → Except Fault Value) (env : Env) (m : Model) (v : VarId)
    (b c : Value) : Prop :=
  match env.get? v, m.varDomain? v with
  | some a, some d => f d a b = .ok c
  | _, _ => c = b

def combineStep (f : Domain → Value → Value → Except Fault Value) (env : Env) (m : Model) (acc : Env)
    (p : VarId × Value) : Except Fault Env := do
  match env.get? p.1, m.varDomain? p.1 with
  | some a, some d => return acc.set p.1 (← f d a p.2)
  | _, _ => return acc.set p.1 p.2

lemma combineStep_eq_ok {acc acc' : Env} {p : VarId × Value} :
    combineStep f env m acc p = .ok acc' ↔
      ∃ c, Combined f env m p.1 p.2 c ∧ acc' = acc.set p.1 c := by
  simp only [combineStep, Combined]
  split
  · constructor
    · intro h
      obtain ⟨c, hc, h⟩ := bind_eq_ok h
      exact ⟨c, hc, (Except.ok.inj h).symm⟩
    · rintro ⟨c, hc, rfl⟩
      rw [hc]
      rfl
  · constructor
    · intro h
      exact ⟨p.2, rfl, (Except.ok.inj h).symm⟩
    · rintro ⟨c, rfl, rfl⟩
      rfl

lemma get?_foldlM_combine {l : List (VarId × Value)} (hl : (l.map Prod.fst).Nodup) {acc : Env}
    (h : l.foldlM (combineStep f env m) acc = .ok r) (v : VarId) :
    (v ∉ l.map Prod.fst → r.get? v = acc.get? v) ∧
      ∀ b, (v, b) ∈ l → ∃ c, r.get? v = some c ∧ Combined f env m v b c := by
  induction l generalizing acc with
  | nil => cases h; simp
  | cons p l ih =>
    rw [List.map_cons, List.nodup_cons] at hl
    rw [List.foldlM_cons] at h
    obtain ⟨acc', hacc', h⟩ := bind_eq_ok h
    obtain ⟨c, hc, rfl⟩ := combineStep_eq_ok.mp hacc'
    obtain ⟨hother, hbound⟩ := ih hl.2 h
    constructor
    · intro hv
      rw [List.map_cons, List.mem_cons, not_or] at hv
      rw [hother hv.2, get?_set, if_neg hv.1]
    · intro b hb
      rcases List.mem_cons.mp hb with rfl | hb
      · exact ⟨c, by rw [hother hl.1, get?_set, if_pos rfl], hc⟩
      · exact hbound b hb

lemma exists_foldlM_combine {l : List (VarId × Value)}
    (hf : ∀ p ∈ l, ∃ c, Combined f env m p.1 p.2 c) (acc : Env) :
    ∃ r, l.foldlM (combineStep f env m) acc = .ok r := by
  induction l generalizing acc with
  | nil => exact ⟨acc, rfl⟩
  | cons p l ih =>
    obtain ⟨c, hc⟩ := hf p List.mem_cons_self
    obtain ⟨r, hr⟩ := ih (fun q hq => hf q (List.mem_cons_of_mem _ hq)) (acc.set p.1 c)
    refine ⟨r, ?_⟩
    rw [List.foldlM_cons, combineStep_eq_ok.mpr ⟨c, hc, rfl⟩, ok_bind]
    exact hr

lemma exists_combine (h : ∀ v b, other.get? v = some b → ∃ c, Combined f env m v b c) :
    ∃ r, combine f env other m = .ok r :=
  exists_foldlM_combine (fun p hp => h p.1 p.2 ((mem_toList other p.1 p.2).mp hp)) env

lemma get?_combine (h : combine f env other m = .ok r) (v : VarId) :
    (other.get? v = none → r.get? v = env.get? v) ∧
      ∀ b, other.get? v = some b → ∃ c, r.get? v = some c ∧ Combined f env m v b c := by
  obtain ⟨hunbound, hbound⟩ := get?_foldlM_combine other.nodup_toList h v
  refine ⟨fun hv => hunbound ?_, fun b hb => hbound b ((mem_toList other v b).mpr hb)⟩
  rw [List.mem_map]
  rintro ⟨⟨w, b⟩, hwb, rfl⟩
  rw [(mem_toList other w b).mp hwb] at hv
  cases hv

lemma combine_spec (henv : env.Typed m) (hother : other.Typed m) (hvars : env.SameVars other)
    {Q : Domain → Value → Value → Value → Prop}
    (hf : ∀ d a b, d.accepts a = true → d.accepts b = true → ∃ c, f d a b = .ok c ∧ Q d a b c) :
    ∃ r, combine f env other m = .ok r ∧ env.SameVars r ∧
      ∀ v c, r.get? v = some c → ∃ d a b, m.varDomain? v = some d ∧ env.get? v = some a ∧
        other.get? v = some b ∧ f d a b = .ok c ∧ Q d a b c := by
  have hvalue : ∀ v b, other.get? v = some b → ∃ d a c, m.varDomain? v = some d ∧
      env.get? v = some a ∧ f d a b = .ok c ∧ Q d a b c := by
    intro v b hb
    obtain ⟨a, ha⟩ := hvars.get? hb
    obtain ⟨d, hd, haccb⟩ := hother v b hb
    obtain ⟨d', hd', hacca⟩ := henv v a ha
    obtain rfl := Option.some.inj (hd.symm.trans hd')
    obtain ⟨c, hc, hQ⟩ := hf d a b hacca haccb
    exact ⟨d, a, c, hd, ha, hc, hQ⟩
  obtain ⟨r, hr⟩ : ∃ r, combine f env other m = .ok r := by
    apply exists_combine
    intro v b hb
    obtain ⟨d, a, c, hd, ha, hc, _⟩ := hvalue v b hb
    exact ⟨c, by simp only [Combined, ha, hd, hc]⟩
  have hget := get?_combine hr
  have hsame : env.SameVars r := by
    intro v
    rw [hvars v]
    cases hb : other.get? v with
    | none => rw [(hget v).1 hb, hvars v, hb]
    | some b =>
      obtain ⟨c, hc, _⟩ := (hget v).2 b hb
      rw [hc]
      rfl
  refine ⟨r, hr, hsame, fun v c hc => ?_⟩
  obtain ⟨b, hb⟩ := (hvars.symm.trans hsame).get? hc
  obtain ⟨c', hc', hcomb⟩ := (hget v).2 b hb
  obtain rfl := Option.some.inj (hc.symm.trans hc')
  obtain ⟨d, a, c'', hd, ha, hc'', hQ⟩ := hvalue v b hb
  simp only [Combined, ha, hd] at hcomb
  obtain rfl := Except.ok.inj (hcomb.symm.trans hc'')
  exact ⟨d, a, b, hd, ha, hb, hc'', hQ⟩

end Combine

def Revises (m : Model) (env env' : Env) : Prop :=
  ∀ v, env'.get? v = env.get? v ∨ (env.get? v).isSome ∧ env'.Binds m v

namespace Revises

variable {m : Model} {env env' env'' : Env}

lemma refl (env : Env) : Revises m env env := fun _ => Or.inl rfl

lemma sameVars (h : Revises m env env') : env.SameVars env' := by
  intro v
  rcases h v with hv | ⟨hv, _, value, _, hvalue, _⟩
  · rw [hv]
  · rw [hv, hvalue]
    rfl

lemma trans (h : Revises m env env') (h' : Revises m env' env'') : Revises m env env'' := by
  intro v
  rcases h' v with hv' | ⟨hv', hbinds⟩
  · rcases h v with hv | ⟨hv, dom, value, hdom, hvalue, hacc⟩
    · exact Or.inl (hv'.trans hv)
    · exact Or.inr ⟨hv, dom, value, hdom, hv'.trans hvalue, hacc⟩
  · rw [← h.sameVars v] at hv'
    exact Or.inr ⟨hv', hbinds⟩

lemma binds (h : Revises m env env') {v : VarId} (hv : env.Binds m v) : env'.Binds m v := by
  rcases h v with heq | ⟨_, hbinds⟩
  · obtain ⟨dom, value, hdom, hvalue, hacc⟩ := hv
    exact ⟨dom, value, hdom, heq.trans hvalue, hacc⟩
  · exact hbinds

lemma typed (h : Revises m env env') (henv : env.Typed m) : env'.Typed m := by
  intro v value hvalue
  rcases h v with heq | ⟨_, dom, value', hdom, hvalue', hacc⟩
  · exact henv v value (heq.symm.trans hvalue)
  · obtain rfl := Option.some.inj (hvalue.symm.trans hvalue')
    exact ⟨dom, hdom, hacc⟩

lemma set {v : VarId} {dom : Domain} {value : Value} (hv : (env.get? v).isSome)
    (hdom : m.varDomain? v = some dom) (hacc : dom.accepts value = true) :
    Revises m env (env.set v value) := by
  intro w
  by_cases hw : w = v
  · subst hw
    exact Or.inr ⟨hv, dom, value, hdom, by rw [get?_set, if_pos rfl], hacc⟩
  · exact Or.inl (by rw [get?_set, if_neg hw])

end Revises

lemma Describes.set {env : Env} {σ : Store} (h : env.Describes σ) {v : VarId} {d : Datum}
    {value : Value} (hd : d ∈ value) : (env.set v value).Describes (Function.update σ v d) := by
  intro w b hb
  rw [get?_set] at hb
  by_cases hw : w = v
  · rw [if_pos hw] at hb
    obtain rfl := Option.some.inj hb
    rw [hw, Function.update_self]
    exact hd
  · rw [if_neg hw] at hb
    rw [Function.update_of_ne hw]
    exact h w b hb

theorem join_spec {env other : Env} {m : Model} (henv : env.Typed m) (hother : other.Typed m)
    (hvars : env.SameVars other) :
    ∃ r, env.join other m = .ok r ∧ r.Typed m ∧ env.SameVars r ∧
      ∀ σ, env.Describes σ ∨ other.Describes σ → r.Describes σ := by
  obtain ⟨r, hr, hsame, hspec⟩ := combine_spec henv hother hvars fun d a b => Domain.join_spec
  refine ⟨r, hr, fun v c hc => ?_, hsame, fun σ hσ v c hc => ?_⟩
  · obtain ⟨d, a, b, hd, _, _, _, hacc, _⟩ := hspec v c hc
    exact ⟨d, hd, hacc⟩
  · obtain ⟨d, a, b, _, ha, hb, _, _, hmem⟩ := hspec v c hc
    exact hmem (σ v) (hσ.imp (fun h => h v a ha) (fun h => h v b hb))

theorem widen_spec {env other : Env} {m : Model} (henv : env.Typed m) (hother : other.Typed m)
    (hvars : env.SameVars other) :
    ∃ r, env.widen other m = .ok r ∧ r.Typed m ∧ env.SameVars r ∧
      (∀ σ, env.Describes σ ∨ other.Describes σ → r.Describes σ) ∧ r.widen other m = .ok r := by
  obtain ⟨r, hr, hsame, hspec⟩ := combine_spec henv hother hvars fun d a b => Domain.widen_spec
  have htyped : r.Typed m := by
    intro v c hc
    obtain ⟨d, a, b, hd, _, _, _, hacc, _⟩ := hspec v c hc
    exact ⟨d, hd, hacc⟩
  refine ⟨r, hr, htyped, hsame, fun σ hσ v c hc => ?_, ?_⟩
  · obtain ⟨d, a, b, _, ha, hb, _, _, hmem, _⟩ := hspec v c hc
    exact hmem (σ v) (hσ.imp (fun h => h v a ha) (fun h => h v b hb))
  · obtain ⟨r', hr', hsame', hspec'⟩ := combine_spec htyped hother (hsame.symm.trans hvars)
      fun d a b => Domain.widen_spec
    have heq : r = r' := by
      apply hsame'.eq
      intro v c c' hc hc'
      obtain ⟨d', c₀, b', hd', hc₀, hb', hwiden, _⟩ := hspec' v c' hc'
      obtain ⟨d, a, b, hd, _, hb, _, _, _, habsorb⟩ := hspec v c hc
      obtain rfl := Option.some.inj (hd.symm.trans hd')
      obtain rfl := Option.some.inj (hb.symm.trans hb')
      obtain rfl := Option.some.inj (hc.symm.trans hc₀)
      exact Except.ok.inj (habsorb.symm.trans hwiden)
    rw [← heq] at hr'
    exact hr'

theorem widen_self {env : Env} {m : Model} (henv : env.Typed m) : env.widen env m = .ok env := by
  obtain ⟨r, hr, hsame, hspec⟩ := combine_spec henv henv (fun v => rfl)
    fun d a b => Domain.widen_spec
  have heq : env = r := by
    apply hsame.eq
    intro v a c ha hc
    obtain ⟨d, a', b, hd, ha', hb, hwiden, _⟩ := hspec v c hc
    obtain rfl := Option.some.inj (ha.symm.trans ha')
    obtain rfl := Option.some.inj (ha.symm.trans hb)
    obtain ⟨d', hd', hacc⟩ := henv v a ha
    obtain rfl := Option.some.inj (hd.symm.trans hd')
    exact Except.ok.inj ((Domain.widen_self hacc).symm.trans hwiden)
  rw [← heq] at hr
  exact hr

lemma exists_le {env other : Env} {m : Model} (henv : env.Typed m) (hother : other.Typed m) :
    ∃ b, env.le other m = .ok b := by
  apply exists_allM
  rintro ⟨v, a⟩ hp
  obtain ⟨dom, hdom, hacc⟩ := henv v a ((mem_toList env v a).mp hp)
  cases hb : other.get? v with
  | none => exact ⟨_, rfl⟩
  | some b =>
    obtain ⟨dom', hdom', hacc'⟩ := hother v b hb
    obtain rfl := Option.some.inj (hdom.symm.trans hdom')
    obtain ⟨result, hresult⟩ := Domain.exists_le hacc hacc'
    exact ⟨result, by simp only [hdom, hresult]⟩

end Env

end Tracewise
