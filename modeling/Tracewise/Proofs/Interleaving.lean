import Tracewise.Proofs.Declarations

/-! Builders that declare variables in turn. The identity of a variable is the number of
declarations that any builder made before it. -/

namespace Tracewise

inductive Declaration
  | typed (name : String) (hint : TypeHint)
  | untyped (name : String)
  | synthetic (name : String) (hint : TypeHint)

namespace Declaration

def name : Declaration → String
  | typed name _ => name
  | untyped name => name
  | synthetic name _ => name

def hint : Declaration → Option TypeHint
  | typed _ hint => some hint
  | untyped _ => none
  | synthetic _ hint => some hint

def purpose : Declaration → Option Purpose
  | typed .. => none
  | untyped _ => none
  | synthetic .. => some .syntheticVariable

def decl (d : Declaration) (id : VarId) : Decl := ⟨id, d.name, d.hint, d.purpose⟩

def make (b : Builder) : Declaration → Building (Ident × Builder)
  | typed name hint => b.declareTyped name hint
  | untyped name => b.declareUntyped name
  | synthetic name hint => b.declareSynthetic name hint

lemma make_eq_declare (b : Builder) (d : Declaration) :
    d.make b = b.declare d.name d.hint d.purpose := by
  cases d <;> rfl

end Declaration

/-- Builders at work side by side, and the variables that they gave out. A builder that declares
nothing draws nothing, so all of them are there from the start. -/
structure Session (ι : Type) where
  supply : Supply
  builders : ι → Builder
  idents : List Ident

namespace Session

variable {ι : Type} [DecidableEq ι]

def start (names : ι → String) : Session ι := ⟨.start, fun i => .new (names i), []⟩

def step (s : Session ι) (call : ι × Declaration) : Session ι :=
  let made := (call.2.make (s.builders call.1)).run s.supply
  ⟨made.2, Function.update s.builders call.1 made.1.2, s.idents ++ [made.1.1]⟩

def run (names : ι → String) (calls : List (ι × Declaration)) : Session ι :=
  calls.foldl step (start names)

def idOf (k : Nat) : VarId := ⟨.ofNat k⟩

def declared (calls : List (ι × Declaration)) (i : ι) : List Decl :=
  calls.zipIdx.filterMap fun call => if call.1.1 = i then some (call.1.2.decl (idOf call.2)) else none

def givenOut (calls : List (ι × Declaration)) : List Ident :=
  calls.zipIdx.map fun call => ⟨idOf call.2, call.1.2.name⟩

variable {names : ι → String} {calls : List (ι × Declaration)} {s : Session ι} {i : ι} {d : Decl}
  {id : VarId} {k l : Nat}

structure Records (calls : List (ι × Declaration)) (s : Session ι) : Prop where
  next : s.supply.nextVar = .ofNat calls.length
  decls : ∀ i, (s.builders i).decls.toList = declared calls i
  idents : s.idents = givenOut calls

lemma records_start (names : ι → String) : Records [] (start names) := ⟨rfl, fun _ => rfl, rfl⟩

lemma Records.step (h : Records calls s) (call : ι × Declaration) :
    Records (calls ++ [call]) (s.step call) := by
  obtain ⟨i, d⟩ := call
  have hmade : (d.make (s.builders i)).run s.supply =
      ((⟨idOf calls.length, d.name⟩,
        { s.builders i with decls := (s.builders i).decls.push (d.decl (idOf calls.length)) }),
        { s.supply with nextVar := .ofNat (calls.length + 1) }) := by
    rw [Declaration.make_eq_declare, UInt32.ofNat_add, ← h.next, idOf, ← h.next]
    rfl
  refine ⟨?_, fun j => ?_, ?_⟩
  · simp only [Session.step, hmade, List.length_append, List.length_singleton]
  · simp only [Session.step, hmade, declared, List.zipIdx_append, List.filterMap_append]
    by_cases hj : i = j
    · subst hj
      simp [h.decls, declared]
    · simp [Function.update_of_ne (Ne.symm hj), h.decls, declared, hj]
  · simp [Session.step, hmade, h.idents, givenOut, List.zipIdx_append]

lemma records_run (names : ι → String) (calls : List (ι × Declaration)) :
    Records calls (run names calls) := by
  induction calls using List.reverseRecOn with
  | nil => exact records_start names
  | append_singleton calls call ih =>
    rw [run, List.foldl_append]
    exact ih.step call

lemma toNat_idOf (hk : k < 2 ^ 32) : (idOf k).val.toNat = k := by
  rw [idOf, UInt32.toNat_ofNat']
  exact Nat.mod_eq_of_lt hk

lemma idOf_inj (hk : k < 2 ^ 32) (hl : l < 2 ^ 32) (h : idOf k = idOf l) : k = l := by
  rw [← toNat_idOf hk, h, toNat_idOf hl]

lemma mem_declared : d ∈ declared calls i ↔
    ∃ (k : Nat) (c : Declaration), calls[k]? = some (i, c) ∧ d = c.decl (idOf k) := by
  simp only [declared, List.mem_filterMap, List.mem_zipIdx_iff_getElem?, Prod.exists,
    Option.ite_none_right_eq_some, Option.some.injEq]
  constructor
  · rintro ⟨_, c, k, hcall, rfl, rfl⟩
    exact ⟨k, c, hcall, rfl⟩
  · rintro ⟨k, c, hcall, rfl⟩
    exact ⟨i, c, k, hcall, rfl, rfl⟩

omit [DecidableEq ι] in
lemma getElem?_givenOut {call : ι × Declaration} (hcall : calls[k]? = some call) :
    (givenOut calls)[k]? = some ⟨idOf k, call.2.name⟩ := by
  simp [givenOut, hcall]

omit [DecidableEq ι] in
lemma map_var_givenOut (calls : List (ι × Declaration)) :
    (givenOut calls).map Ident.var = (List.range calls.length).map idOf := by
  rw [givenOut, List.map_map, List.range_eq_range', ← List.zipIdx_map_snd 0 calls, List.map_map]
  rfl

lemma ascending_run (names : ι → String) (h : calls.length < 2 ^ 32) (i : ι) :
    Decl.Ascending ((run names calls).builders i).decls := by
  rw [Decl.Ascending, (records_run names calls).decls, declared, List.pairwise_filterMap]
  have hnumbers : calls.zipIdx.Pairwise fun call call' => call.2 < call'.2 := by
    rw [← List.pairwise_map, List.zipIdx_map_snd]
    exact List.pairwise_lt_range'
  refine hnumbers.imp_of_mem fun {call call'} _ hcall' hlt d hd d' hd' => ?_
  have hlast : call'.2 < calls.length := by simpa using List.snd_lt_of_mem_zipIdx hcall'
  have hroom := hlast.trans h
  rw [Option.ite_none_right_eq_some, Option.some.injEq] at hd hd'
  rw [← hd.2, ← hd'.2, UInt32.lt_iff_toNat_lt]
  change (idOf call.2).val.toNat < (idOf call'.2).val.toNat
  rwa [toNat_idOf (hlt.trans hroom), toNat_idOf hroom]

lemma find?_run (names : ι → String) (h : calls.length < 2 ^ 32) :
    Decl.find? ((run names calls).builders i).decls id = some d ↔
      d ∈ declared calls i ∧ d.id = id := by
  rw [Decl.find?_eq_some_iff (ascending_run names h i), ← (records_run names calls).decls,
    Array.mem_toList_iff]

lemma find?_idOf (names : ι → String) (h : calls.length < 2 ^ 32) {call : ι × Declaration}
    (hcall : calls[k]? = some call) (i : ι) :
    Decl.find? ((run names calls).builders i).decls (idOf k) =
      if call.1 = i then some (call.2.decl (idOf k)) else none := by
  have hroom {k : Nat} {call : ι × Declaration} (hcall : calls[k]? = some call) : k < 2 ^ 32 := by
    obtain ⟨hlt, -⟩ := List.getElem?_eq_some_iff.mp hcall
    exact hlt.trans h
  split
  · rename_i hi
    exact (find?_run names h).mpr ⟨mem_declared.mpr ⟨k, call.2, hi ▸ hcall, rfl⟩, rfl⟩
  · rename_i hi
    rw [Option.eq_none_iff_forall_ne_some]
    intro d hd
    obtain ⟨hmem, hid⟩ := (find?_run names h).mp hd
    obtain ⟨l, c, hl, rfl⟩ := mem_declared.mp hmem
    rw [idOf_inj (hroom hl) (hroom hcall) hid, hcall, Option.some.injEq] at hl
    exact hi (congrArg Prod.fst hl)

theorem variables_found_by_id (names : ι → String) (calls : List (ι × Declaration))
    (h : calls.length < 2 ^ 32) :
    (∀ i, ((run names calls).builders i).decls.toList = declared calls i ∧
        Decl.Ascending ((run names calls).builders i).decls) ∧
      (run names calls).idents.length = calls.length ∧
      ((run names calls).idents.map Ident.var).Nodup ∧
      (∀ i id d, Decl.find? ((run names calls).builders i).decls id = some d ↔
        d ∈ declared calls i ∧ d.id = id) ∧
      ∀ (k : Nat) (call : ι × Declaration) (v : Ident), calls[k]? = some call →
        (run names calls).idents[k]? = some v → ∀ i supply,
        ((((run names calls).builders i).ident v).run supply).1.hint =
          if call.1 = i then call.2.hint else none := by
  have hrecords := records_run names calls
  refine ⟨fun i => ⟨hrecords.decls i, ascending_run names h i⟩, ?_, ?_,
    fun i id d => find?_run names h, ?_⟩
  · simp [hrecords.idents, givenOut]
  · rw [hrecords.idents, map_var_givenOut]
    refine List.nodup_range.map_on fun k hk l hl => ?_
    rw [List.mem_range] at hk hl
    exact idOf_inj (hk.trans h) (hl.trans h)
  · intro k call v hcall hv i supply
    rw [hrecords.idents, getElem?_givenOut hcall, Option.some.injEq] at hv
    subst hv
    change (Decl.find? _ (idOf k)).bind Decl.hint = _
    rw [find?_idOf names h hcall]
    split <;> rfl

def turns : List (Bool × Declaration) :=
  [(false, .typed "x" "int"), (true, .synthetic "c" "bool"), (false, .untyped "y"),
    (true, .typed "x" "level")]

theorem turns_found_by_id :
    turns.length < 2 ^ 32 ∧
      (((run (fun _ => "p") turns).builders false).decls.toList.map fun d => d.id.val) = [0, 2] ∧
      Decl.find? ((run (fun _ => "p") turns).builders true).decls ⟨3⟩ =
        some ⟨⟨3⟩, "x", some "level", none⟩ ∧
      ((((run (fun _ => "p") turns).builders true).ident ⟨⟨1⟩, "c"⟩).run .start).1.hint =
        some "bool" ∧
      ((((run (fun _ => "p") turns).builders false).ident ⟨⟨1⟩, "c"⟩).run .start).1.hint = none := by
  have hroom : turns.length < 2 ^ 32 := by decide
  obtain ⟨hdecls, -, -, hfind, hident⟩ := variables_found_by_id (fun _ => "p") turns hroom
  have hc := hident 1 (true, .synthetic "c" "bool") ⟨⟨1⟩, "c"⟩ rfl rfl
  refine ⟨hroom, ?_, (hfind true ⟨3⟩ _).mpr ⟨by decide, rfl⟩, hc true .start, hc false .start⟩
  rw [(hdecls false).1]
  rfl

end Session

end Tracewise
