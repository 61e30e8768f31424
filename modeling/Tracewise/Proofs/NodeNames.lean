import Tracewise.Proofs.ExpressionTexts
import Tracewise.Proofs.Layout
import Tracewise.Proofs.Numerals

/-! Names of nodes. A key that does not end in a digit and a number can be told from their name, so
each node of a graph can be found by its name. -/

namespace Tracewise

namespace NameSupply

def IsStem (key : String) : Prop := key.toList.getLast?.any Char.isDigit = false

instance : DecidablePred IsStem :=
  fun key => inferInstanceAs (Decidable (key.toList.getLast?.any Char.isDigit = false))

def freshAll (s : NameSupply) : List String → List String × NameSupply
  | [] => ([], s)
  | key :: keys =>
    let first := s.fresh key
    let rest := first.2.freshAll keys
    (first.1 :: rest.1, rest.2)

variable {s : NameSupply} {key key' name : String} {n n' : Nat} {keys : List String}

lemma all_isDigit_toDigits (n : Nat) : (Nat.toDigits 10 n).reverse.all Char.isDigit = true := by
  rw [List.all_reverse, List.all_eq_true]
  exact fun c => Text.Numeral.isDigit_of_mem_toDigits

lemma IsStem.stops (h : IsStem key) : Text.Stops Char.isDigit key.toList.reverse := by
  rw [Text.Stops, List.head?_reverse]
  intro c hc
  simpa [IsStem, Option.mem_def.mp hc] using h

lemma IsStem.append_inj (hkey : IsStem key) (hkey' : IsStem key')
    (h : key ++ toString n = key' ++ toString n') : key = key' ∧ n = n' := by
  -- read from its end, a name has its number up to the first character that is no digit
  have hchars := congrArg (fun name => name.toList.reverse) h
  simp only [String.toList_append, Nat.toString_eq_repr, Nat.toList_repr, List.reverse_append]
    at hchars
  obtain ⟨hdigits, hstem⟩ := Text.append_inj_of_stops (all_isDigit_toDigits n)
    (all_isDigit_toDigits n') hkey.stops hkey'.stops hchars
  constructor
  · exact String.toList_inj.mp (List.reverse_inj.mp hstem)
  · have hvalue := congrArg Text.Numeral.value (List.reverse_inj.mp hdigits)
    rwa [Text.Numeral.value_toDigits, Text.Numeral.value_toDigits] at hvalue

lemma count_fresh (s : NameSupply) (key key' : String) :
    (s.fresh key).2.count key' = if key' = key then s.count key + 1 else s.count key' := by
  by_cases h : key' = key
  · simp [fresh, draw, count, h]
  · have hne : (key' == key) = false := beq_eq_false_iff_ne.mpr h
    simp [fresh, draw, count, List.lookup_cons, h, hne]

lemma count_le_count_fresh (s : NameSupply) (key key' : String) :
    s.count key' ≤ (s.fresh key).2.count key' := by
  rw [count_fresh]
  split
  · rename_i h
    rw [h]
    exact Nat.le_succ _
  · exact le_rfl

lemma exists_of_mem_freshAll (h : name ∈ (s.freshAll keys).1) :
    ∃ key ∈ keys, ∃ n, s.count key ≤ n ∧ name = key ++ toString n := by
  induction keys generalizing s with
  | nil => cases h
  | cons key keys ih =>
    rcases List.mem_cons.mp h with rfl | h
    · exact ⟨key, List.mem_cons_self, s.count key, le_rfl, rfl⟩
    · obtain ⟨key', hkey', n, hn, rfl⟩ := ih h
      exact ⟨key', List.mem_cons_of_mem _ hkey', n, (count_le_count_fresh s key key').trans hn, rfl⟩

lemma nodup_freshAll (s : NameSupply) (h : ∀ key ∈ keys, IsStem key) : (s.freshAll keys).1.Nodup := by
  induction keys generalizing s with
  | nil => exact List.nodup_nil
  | cons key keys ih =>
    have hkeys : ∀ key' ∈ keys, IsStem key' := fun key' hkey' => h key' (List.mem_cons_of_mem _ hkey')
    refine List.nodup_cons.mpr ⟨fun hmem => ?_, ih _ hkeys⟩
    obtain ⟨key', hkey', n, hn, hname⟩ := exists_of_mem_freshAll hmem
    obtain ⟨rfl, rfl⟩ := (h key List.mem_cons_self).append_inj (hkeys key' hkey') hname
    rw [count_fresh, if_pos rfl] at hn
    exact Nat.not_succ_le_self _ hn

lemma freshAll_append (s : NameSupply) (keys keys' : List String) :
    s.freshAll (keys ++ keys') = ((s.freshAll keys).1 ++ ((s.freshAll keys).2.freshAll keys').1,
      ((s.freshAll keys).2.freshAll keys').2) := by
  induction keys generalizing s with
  | nil => rfl
  | cons key keys ih => simp [freshAll, ih]

end NameSupply

def Block.kinds : Block → List String
  | done => []
  | atom a next => a.nodeKind :: next.kinds
  | split fst snd next => fst.kinds ++ (snd.kinds ++ "split_join" :: next.kinds)
  | loop body next => "loop_start" :: (body.kinds ++ "loop_join" :: next.kinds)

lemma Atom.isStem_nodeKind (a : Atom) : NameSupply.IsStem a.nodeKind := by
  cases a with
  | assign target value => exact (by decide : NameSupply.IsStem "assign")
  | read target => exact (by decide : NameSupply.IsStem "read")
  | use v => exact (by decide : NameSupply.IsStem "use")
  | assume cond purpose => exact (by decide : NameSupply.IsStem "assume")

lemma Block.isStem_kinds (b : Block) : ∀ kind ∈ b.kinds, NameSupply.IsStem kind := by
  induction b with
  | done => simp [kinds]
  | atom a next ih =>
    simp only [kinds, List.forall_mem_cons]
    exact ⟨a.isStem_nodeKind, ih⟩
  | split fst snd next ihf ihs ihn =>
    simp only [kinds, List.forall_mem_append, List.forall_mem_cons]
    exact ⟨ihf, ihs, by decide, ihn⟩
  | loop body next ihb ihn =>
    simp only [kinds, List.forall_mem_append, List.forall_mem_cons]
    exact ⟨by decide, ihb, by decide, ihn⟩

namespace Draft

structure Names (kinds : List String) (d d' : Draft) : Prop where
  nodes : d'.nodes.toList.map Node.name =
    d.nodes.toList.map Node.name ++ (d.names.freshAll kinds).1
  names : d'.names = (d.names.freshAll kinds).2

variable {kinds kinds' : List String} {d d' d'' : Draft}

lemma Names.refl (d : Draft) : Names [] d d := ⟨(List.append_nil _).symm, rfl⟩

lemma Names.trans (h : Names kinds d d') (h' : Names kinds' d' d'') :
    Names (kinds ++ kinds') d d'' := by
  constructor
  · rw [h'.nodes, h.nodes, h.names, NameSupply.freshAll_append, List.append_assoc]
  · rw [h'.names, h.names, NameSupply.freshAll_append]

lemma Names.addNode (h : Names kinds d d') (kind : String) (widening : Bool) (atom : Option Atom) :
    Names (kinds ++ [kind]) d (d'.addNode kind widening atom).draft := by
  refine h.trans ⟨?_, rfl⟩
  rw [Draft.addNode, Array.toList_push, List.map_append]
  rfl

lemma Names.link (h : Names kinds d d') (source target : NodeId) :
    Names kinds d (d'.link source target) := by
  have hnames : (d'.link source target).names = d'.names := by
    rw [Draft.link]
    split <;> rfl
  exact ⟨by rw [nodes_link, h.nodes], by rw [hnames, h.names]⟩

lemma Names.lower (h : Names kinds d d') (b : Block) (cur : NodeId) :
    Names (kinds ++ b.kinds) d (lower b cur d').draft := by
  induction b generalizing kinds d' cur with
  | done =>
    rw [Block.kinds, List.append_nil]
    exact h
  | atom a next ih =>
    let n := d'.addNode a.nodeKind false (some a)
    have hn : Names (kinds ++ [a.nodeKind]) d n.draft := h.addNode ..
    have hnext := ih (hn.link cur n.node) n.node
    rw [List.append_assoc] at hnext
    exact hnext
  | split fst snd next ihf ihs ihn =>
    let endFst := Draft.lower fst cur d'
    let endSnd := Draft.lower snd cur endFst.draft
    let join := endSnd.draft.addNode "split_join" false none
    have hsnd : Names (kinds ++ fst.kinds ++ snd.kinds) d endSnd.draft := ihs (ihf h cur) cur
    have hjoin := hsnd.addNode "split_join" false none
    have hnext := ihn ((hjoin.link endFst.node join.node).link endSnd.node join.node) join.node
    simp only [List.append_assoc] at hnext
    exact hnext
  | loop body next ihb ihn =>
    let head := d'.addNode "loop_start" true none
    let endBody := Draft.lower body head.node (head.draft.link cur head.node)
    let join := (endBody.draft.link endBody.node head.node).addNode "loop_join" false none
    have hhead : Names (kinds ++ ["loop_start"]) d head.draft := h.addNode ..
    have hbody : Names _ d endBody.draft := ihb (hhead.link cur head.node) head.node
    have hjoin := (hbody.link endBody.node head.node).addNode "loop_join" false none
    have hnext := ihn (hjoin.link head.node join.node) join.node
    simp only [List.append_assoc] at hnext
    exact hnext

end Draft

namespace Graph

variable (p : Program)

lemma names_ofProgram : (ofProgram p).nodes.toList.map Node.name =
    (NameSupply.empty.freshAll ("start" :: p.body.kinds)).1 :=
  (((Draft.Names.refl Draft.empty).addNode "start" false none).lower p.body entry).nodes

lemma nodup_names_ofProgram : ((ofProgram p).nodes.toList.map Node.name).Nodup := by
  rw [names_ofProgram]
  apply NameSupply.nodup_freshAll
  rw [List.forall_mem_cons]
  exact ⟨by decide, p.body.isStem_kinds⟩

lemma nodeNamed?_of_mem {g : Graph} (hnames : (g.nodes.toList.map Node.name).Nodup) {node : Node}
    (hnode : node ∈ g.nodes) : g.nodeNamed? node.name = some node := by
  rw [nodeNamed?, ← Array.find?_toList]
  have hmem := Array.mem_toList_iff.mpr hnode
  have hsome : (g.nodes.toList.find? (·.name == node.name)).isSome :=
    List.find?_isSome.mpr ⟨node, hmem, beq_self_eq_true _⟩
  obtain ⟨found, hfound⟩ := Option.isSome_iff_exists.mp hsome
  have hname : found.name = node.name := by simpa using List.find?_some hfound
  rw [hfound, List.inj_on_of_nodup_map hnames (List.mem_of_find?_eq_some hfound) hmem hname]

theorem node_names_unique :
    (∀ (s : NameSupply) (keys : List String), (∀ key ∈ keys, NameSupply.IsStem key) →
      (s.freshAll keys).1.Nodup) ∧
      ∀ p : Program, ((ofProgram p).nodes.toList.map Node.name).Nodup ∧
        ∀ node ∈ (ofProgram p).nodes, (ofProgram p).nodeNamed? node.name = some node := by
  refine ⟨fun s keys => s.nodup_freshAll, fun p => ?_⟩
  have hnames := nodup_names_ofProgram p
  exact ⟨hnames, fun node => nodeNamed?_of_mem hnames⟩

theorem extended_keys_named_apart :
    (∀ key ∈ ["loop", "loop_join", "loop", ""], NameSupply.IsStem key) ∧
      (NameSupply.empty.freshAll ["loop", "loop_join", "loop", ""]).1.Nodup ∧
      ∃ node ∈ (ofProgram ⟨"p", #[], .loop (.loop .done .done) .done⟩).nodes,
        node.name = "loop_join1" ∧
        (ofProgram ⟨"p", #[], .loop (.loop .done .done) .done⟩).nodeNamed? "loop_join1" =
          some node := by
  have hstems : ∀ key ∈ ["loop", "loop_join", "loop", ""], NameSupply.IsStem key := by decide
  have hname : "loop_join1" ∈
      (ofProgram ⟨"p", #[], .loop (.loop .done .done) .done⟩).nodes.toList.map Node.name := by
    rw [names_ofProgram]
    decide
  obtain ⟨node, hnode, heq⟩ := List.mem_map.mp hname
  have hnode := Array.mem_toList_iff.mp hnode
  obtain ⟨hnames, hnodes⟩ := node_names_unique
  exact ⟨hstems, hnames _ _ hstems, node, hnode, heq, heq ▸ (hnodes _).2 node hnode⟩

example : ¬ (NameSupply.empty.freshAll ("a1" :: List.replicate 11 "a")).1.Nodup := by decide

end Graph

end Tracewise
