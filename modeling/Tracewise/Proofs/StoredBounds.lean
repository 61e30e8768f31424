import Tracewise.Proofs.Spans

/-! Intervals as they are stored: two words, of which nothing is asked. The operations give
canonical pairs for canonical pairs, those of the same operation on intervals. -/

namespace Tracewise

structure Bounds where
  low : Int64
  high : Int64
deriving DecidableEq

namespace Bounds

def empty : Bounds := ⟨1, 0⟩

def Canonical (a : Bounds) : Prop := a.low ≤ a.high ∨ a = empty

def interval (a : Bounds) : Interval := .between a.low a.high

def Stores (a : Bounds) (i : Interval) : Prop := a.Canonical ∧ a.interval = i

def isEmpty (a : Bounds) : Bool := a.high < a.low

def ends? (a : Bounds) : Option (Int64 × Int64) :=
  if a.isEmpty then none else some (a.low, a.high)

def between (low high : Int64) : Bounds := if high < low then empty else ⟨low, high⟩

def constant (n : Int64) : Bounds := ⟨n, n⟩

def join (a b : Bounds) : Bounds :=
  if a.isEmpty then b
  else if b.isEmpty then a
  else ⟨min a.low b.low, max a.high b.high⟩

def meet (a b : Bounds) : Bounds :=
  if a.isEmpty || b.isEmpty then empty
  else between (max a.low b.low) (min a.high b.high)

def onEnds (f : Int64 → Int64 → Int64 → Int64 → Bounds) (a b : Bounds) : Bounds :=
  match a.ends?, b.ends? with
  | some (l₁, h₁), some (l₂, h₂) => f l₁ h₁ l₂ h₂
  | _, _ => empty

def add : Bounds → Bounds → Bounds :=
  onEnds fun l₁ h₁ l₂ h₂ => between (Saturating.add l₁ l₂) (Saturating.add h₁ h₂)

def sub : Bounds → Bounds → Bounds :=
  onEnds fun l₁ h₁ l₂ h₂ => between (Saturating.sub l₁ h₂) (Saturating.sub h₁ l₂)

def mul : Bounds → Bounds → Bounds :=
  onEnds fun l₁ h₁ l₂ h₂ =>
    let corners := [Saturating.mul l₁ l₂, Saturating.mul l₁ h₂, Saturating.mul h₁ l₂,
      Saturating.mul h₁ h₂]
    between (corners.foldl min Int64.maxValue) (corners.foldl max Int64.minValue)

def neg (a : Bounds) : Bounds :=
  match a.ends? with
  | some (l, h) => between (Saturating.neg h) (Saturating.neg l)
  | none => empty

def removeEnd (a : Bounds) (n : Int64) : Bounds :=
  match a.ends? with
  | some (l, h) =>
    if l = n then between (Saturating.add l 1) h
    else if h = n then between l (Saturating.sub h 1)
    else a
  | none => a

def clamp (a : Bounds) (r : Range) : Bounds := a.meet (between r.min r.max)

def widen (a : Bounds) (r : Range) (b : Bounds) : Bounds :=
  match a.ends?, b.ends? with
  | some (l₁, h₁), some (l₂, h₂) =>
    between (if l₂ < l₁ then min r.min l₂ else l₁) (if h₁ < h₂ then max r.max h₂ else h₁)
  | _, _ => a.join b

end Bounds

def Interval.stored : Interval → Bounds
  | empty => .empty
  | range l h _ => ⟨l, h⟩

namespace Bounds

@[simp] lemma interval_stored (i : Interval) : i.stored.interval = i := by
  cases i with
  | empty => rfl
  | range l h le => exact dif_pos le

lemma canonical_iff {a : Bounds} : a.Canonical ↔ ∃ i : Interval, a = i.stored := by
  constructor
  · rintro (hle | rfl)
    · exact ⟨.range a.low a.high hle, rfl⟩
    · exact ⟨.empty, rfl⟩
  · rintro ⟨i, rfl⟩
    cases i with
    | empty => exact Or.inr rfl
    | range l h le => exact Or.inl le

lemma stores_iff {a : Bounds} {i : Interval} : a.Stores i ↔ a = i.stored := by
  constructor
  · rintro ⟨hcanonical, rfl⟩
    obtain ⟨i, rfl⟩ := canonical_iff.mp hcanonical
    rw [interval_stored]
  · rintro rfl
    exact ⟨canonical_iff.mpr ⟨i, rfl⟩, interval_stored i⟩

@[simp] lemma isEmpty_stored (i : Interval) : i.stored.isEmpty = i.isEmpty := by
  cases i with
  | empty => rfl
  | range l h le => exact decide_eq_false (Int64.not_lt.mpr le)

@[simp] lemma ends?_stored (i : Interval) : i.stored.ends? = i.bounds? := by
  rw [ends?, isEmpty_stored]
  cases i with
  | empty => rfl
  | range l h le => rfl

@[simp] lemma between_eq_stored (l h : Int64) : between l h = (Interval.between l h).stored := by
  rw [between, Interval.between]
  split
  · rename_i hlt
    rw [dif_neg (Int64.not_le.mpr hlt)]
    rfl
  · rename_i hle
    rw [dif_pos (Int64.not_lt.mp hle)]
    rfl

lemma constant_eq_stored (n : Int64) : constant n = (Interval.constant n).stored := by
  rw [Interval.constant, Interval.between, dif_pos (Int64.le_refl n)]
  rfl

section Operations

variable (i j : Interval)

lemma join_stored : i.stored.join j.stored = (i.join j).stored := by
  rw [join, isEmpty_stored, isEmpty_stored]
  cases i with
  | empty => rfl
  | range l₁ h₁ le₁ =>
    cases j with
    | empty => rfl
    | range l₂ h₂ le₂ =>
      have hle : min l₁ l₂ ≤ max h₁ h₂ := by grind
      rw [Interval.join, Interval.between, dif_pos hle]
      rfl

lemma meet_stored : i.stored.meet j.stored = (i.meet j).stored := by
  rw [meet, isEmpty_stored, isEmpty_stored]
  cases i with
  | empty => rfl
  | range l₁ h₁ le₁ =>
    cases j with
    | empty => rfl
    | range l₂ h₂ le₂ => exact between_eq_stored _ _

lemma onEnds_stored {f : Int64 → Int64 → Int64 → Int64 → Bounds}
    {g : Interval → Interval → Interval} (hleft : ∀ j, g .empty j = .empty)
    (hright : ∀ i, g i .empty = .empty)
    (hranges : ∀ l₁ h₁ le₁ l₂ h₂ le₂,
      f l₁ h₁ l₂ h₂ = (g (.range l₁ h₁ le₁) (.range l₂ h₂ le₂)).stored) :
    onEnds f i.stored j.stored = (g i j).stored := by
  rw [onEnds, ends?_stored, ends?_stored]
  cases i with
  | empty =>
    rw [hleft]
    rfl
  | range l₁ h₁ le₁ =>
    cases j with
    | empty =>
      rw [hright]
      rfl
    | range l₂ h₂ le₂ => exact hranges l₁ h₁ le₁ l₂ h₂ le₂

lemma add_stored : i.stored.add j.stored = (i.add j).stored :=
  onEnds_stored i j (fun _ => rfl) (fun i => by cases i <;> rfl)
    fun _ _ _ _ _ _ => between_eq_stored _ _

lemma sub_stored : i.stored.sub j.stored = (i.sub j).stored :=
  onEnds_stored i j (fun _ => rfl) (fun i => by cases i <;> rfl)
    fun _ _ _ _ _ _ => between_eq_stored _ _

lemma foldl_min (a b c d : Int64) :
    [a, b, c, d].foldl min Int64.maxValue = min (min a b) (min c d) := by
  have ha := a.toInt_lt
  apply Int64.toInt_inj.mp
  simp only [List.foldl_cons, List.foldl_nil, Saturating.toInt_min, Int64.toInt_maxValue]
  omega

lemma foldl_max (a b c d : Int64) :
    [a, b, c, d].foldl max Int64.minValue = max (max a b) (max c d) := by
  have ha := a.le_toInt
  apply Int64.toInt_inj.mp
  simp only [List.foldl_cons, List.foldl_nil, Saturating.toInt_max, Int64.toInt_minValue]
  omega

lemma mul_stored : i.stored.mul j.stored = (i.mul j).stored := by
  refine onEnds_stored i j (fun _ => rfl) (fun i => by cases i <;> rfl) ?_
  intro l₁ h₁ le₁ l₂ h₂ le₂
  simp only [foldl_min, foldl_max, between_eq_stored]
  rfl

lemma neg_stored : i.stored.neg = i.neg.stored := by
  rw [neg, ends?_stored]
  cases i with
  | empty => rfl
  | range l h le => exact between_eq_stored _ _

lemma removeEnd_stored (n : Int64) : i.stored.removeEnd n = (i.removeEnd n).stored := by
  rw [removeEnd, ends?_stored]
  cases i with
  | empty => rfl
  | range l h le =>
    simp only [Interval.bounds?, Interval.removeEnd, between_eq_stored]
    split
    · rfl
    · split <;> rfl

lemma clamp_stored (r : Range) : i.stored.clamp r = (r.clamp i).stored := by
  rw [clamp, between_eq_stored, meet_stored]
  rfl

lemma widen_stored (r : Range) : i.stored.widen r j.stored = (r.widen i j).stored := by
  rw [widen, ends?_stored, ends?_stored, join_stored]
  cases i with
  | empty => rfl
  | range l₁ h₁ le₁ =>
    cases j with
    | empty => rfl
    | range l₂ h₂ le₂ => exact between_eq_stored _ _

end Operations

end Bounds

end Tracewise
