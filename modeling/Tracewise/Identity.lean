/-! Identities of expression nodes, variables and graph nodes, and finite maps from the 32-bit ones,
kept as entries with strictly increasing keys. -/

namespace Tracewise

structure ExprId where
  val : UInt32
deriving DecidableEq

structure VarId where
  val : UInt32
deriving DecidableEq

abbrev NodeId := Nat

def ExprId.text (e : ExprId) : String := "#" ++ toString e.val.toNat

def VarId.text (v : VarId) : String := "v" ++ toString v.val.toNat

def NodeId.text (n : NodeId) : String := "n" ++ toString n

def findEntry {α : Type} (k : UInt32) : List (UInt32 × α) → Option α
  | [] => none
  | (j, a) :: rest => if k = j then some a else findEntry k rest

def insertEntry {α : Type} (k : UInt32) (a : α) : List (UInt32 × α) → List (UInt32 × α)
  | [] => [(k, a)]
  | (j, b) :: rest =>
    if k < j then (k, a) :: (j, b) :: rest
    else if k = j then (k, a) :: rest
    else (j, b) :: insertEntry k a rest

theorem mem_insertEntry {α : Type} (k : UInt32) (a : α) (l : List (UInt32 × α))
    (p : UInt32 × α) (h : p ∈ insertEntry k a l) : p = (k, a) ∨ p ∈ l := by
  induction l with
  | nil => simpa [insertEntry] using h
  | cons q rest ih =>
    simp only [insertEntry] at h
    split at h
    · simpa using h
    · split at h
      · rcases List.mem_cons.mp h with h | h
        · exact .inl h
        · exact .inr (List.mem_cons_of_mem _ h)
      · rcases List.mem_cons.mp h with h | h
        · exact .inr (h ▸ List.mem_cons_self)
        · exact (ih h).imp id (List.mem_cons_of_mem _)

theorem pairwise_insertEntry {α : Type} (k : UInt32) (a : α) (l : List (UInt32 × α))
    (h : l.Pairwise (fun p q => p.1 < q.1)) :
    (insertEntry k a l).Pairwise (fun p q => p.1 < q.1) := by
  induction l with
  | nil => simp [insertEntry]
  | cons q rest ih =>
    obtain ⟨hq, hrest⟩ := List.pairwise_cons.mp h
    simp only [insertEntry]
    split
    · rename_i hk
      refine List.pairwise_cons.mpr ⟨fun p hp => ?_, h⟩
      rcases List.mem_cons.mp hp with rfl | hp
      · exact hk
      · exact UInt32.lt_trans hk (hq p hp)
    · split
      · rename_i hk
        subst hk
        exact List.pairwise_cons.mpr ⟨hq, hrest⟩
      · rename_i hlt hne
        refine List.pairwise_cons.mpr ⟨fun p hp => ?_, ih hrest⟩
        rcases mem_insertEntry k a rest p hp with rfl | hp
        · exact UInt32.lt_of_le_of_ne (UInt32.not_lt.mp hlt) (Ne.symm hne)
        · exact hq p hp

structure IdMap (α : Type) where
  entries : List (UInt32 × α)
  sorted : entries.Pairwise (fun p q => p.1 < q.1)
deriving DecidableEq

namespace IdMap

variable {α : Type}

def empty : IdMap α := ⟨[], .nil⟩

def get? (m : IdMap α) (k : UInt32) : Option α := findEntry k m.entries

def insert (m : IdMap α) (k : UInt32) (a : α) : IdMap α :=
  ⟨insertEntry k a m.entries, pairwise_insertEntry k a m.entries m.sorted⟩

def size (m : IdMap α) : Nat := m.entries.length

def isEmpty (m : IdMap α) : Bool := m.entries.isEmpty

end IdMap

end Tracewise
