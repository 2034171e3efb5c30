/-
  QuantumProgram — finite sets kept in order.

  Keys, parameter names and qubits are always shown in order and without
  repetition, so a set of them is a list that carries the proof that it is
  strictly increasing.  `mem_insert`, `mem_union`, `mem_ofList`, … say what
  each operation does to membership, and `ext` that a set is determined by its
  members: two sets with the same members are shown in the same way.
-/

namespace QuantumProgram

open Std

/-- A finite set, held as the strictly increasing list of its members. -/
structure SortedSet (α : Type) [Ord α] where
  toList : List α
  sorted : toList.Pairwise (fun a b => compare a b = .lt)

namespace SortedSet

variable {α β : Type} [Ord α] [Ord β]

/-! ## Insertion into an increasing list -/

/-- Put `a` at its place in an increasing list, unless it is there already. -/
def insertInto (a : α) : List α → List α
  | [] => [a]
  | b :: l =>
    match compare a b with
    | .lt => a :: b :: l
    | .eq => b :: l
    | .gt => b :: insertInto a l

theorem mem_insertInto [LawfulEqOrd α] {a c : α} {l : List α} :
    c ∈ insertInto a l ↔ c = a ∨ c ∈ l := by
  induction l with
  | nil => simp [insertInto]
  | cons b l ih =>
    simp only [insertInto]
    split
    · simp
    · next h => simp [LawfulEqCmp.compare_eq_iff_eq.1 h]
    · simp only [List.mem_cons, ih]; grind

theorem insertInto_sorted [TransOrd α] [LawfulEqOrd α] {a : α} {l : List α}
    (h : l.Pairwise (fun a b => compare a b = .lt)) :
    (insertInto a l).Pairwise (fun a b => compare a b = .lt) := by
  induction l with
  | nil => simp [insertInto]
  | cons b l ih =>
    have hb := List.pairwise_cons.1 h
    simp only [insertInto]
    split
    · next hlt =>
      refine List.pairwise_cons.2 ⟨fun c hc => ?_, h⟩
      rcases List.mem_cons.1 hc with rfl | hc
      · exact hlt
      · exact TransCmp.lt_trans hlt (hb.1 c hc)
    · exact h
    · next hgt =>
      refine List.pairwise_cons.2 ⟨fun c hc => ?_, ih hb.2⟩
      rcases mem_insertInto.1 hc with rfl | hc
      · exact OrientedCmp.gt_iff_lt.1 hgt
      · exact hb.1 c hc

/-! ## Operations -/

instance : Membership α (SortedSet α) := ⟨fun s a => a ∈ s.toList⟩

instance [DecidableEq α] : DecidableEq (SortedSet α) := fun s t =>
  decidable_of_iff (s.toList = t.toList) (by cases s; cases t; simp)

instance [DecidableEq α] (a : α) (s : SortedSet α) : Decidable (a ∈ s) :=
  inferInstanceAs (Decidable (a ∈ s.toList))

def empty : SortedSet α := ⟨[], .nil⟩

instance : EmptyCollection (SortedSet α) := ⟨empty⟩

def singleton (a : α) : SortedSet α := ⟨[a], by simp⟩

def isEmpty (s : SortedSet α) : Bool := s.toList.isEmpty

def size (s : SortedSet α) : Nat := s.toList.length

/-- Whether some member is equal to `a`. -/
def contains [DecidableEq α] (s : SortedSet α) (a : α) : Bool := decide (a ∈ s)

/-- The members that satisfy `p`. -/
def filter (s : SortedSet α) (p : α → Bool) : SortedSet α :=
  ⟨s.toList.filter p, s.sorted.sublist List.filter_sublist⟩

/-- Whether the two sets have no member in common. -/
def isDisjoint [DecidableEq α] (s t : SortedSet α) : Bool :=
  s.toList.all fun a => !t.contains a

section
variable [TransOrd α] [LawfulEqOrd α]

def insert (s : SortedSet α) (a : α) : SortedSet α :=
  ⟨insertInto a s.toList, insertInto_sorted s.sorted⟩

/-- The members of `s` with the elements of `l`. -/
def insertMany (s : SortedSet α) (l : List α) : SortedSet α := l.foldl insert s

def ofList (l : List α) : SortedSet α := insertMany empty l

def union (s t : SortedSet α) : SortedSet α := s.insertMany t.toList

instance : Union (SortedSet α) := ⟨union⟩

/-- The union of all sets of a list. -/
def unions (l : List (SortedSet α)) : SortedSet α := l.foldl union empty

end

/-- The images of the members. -/
def map [TransOrd β] [LawfulEqOrd β] (s : SortedSet α) (f : α → β) : SortedSet β :=
  ofList (s.toList.map f)

/-! ## Membership -/

@[simp] theorem mem_toList {a : α} {s : SortedSet α} : a ∈ s.toList ↔ a ∈ s := Iff.rfl

@[simp] theorem not_mem_empty {a : α} : ¬ a ∈ (∅ : SortedSet α) := List.not_mem_nil

@[simp] theorem mem_singleton {a b : α} : a ∈ singleton b ↔ a = b := List.mem_singleton

@[simp] theorem mem_filter {a : α} {s : SortedSet α} {p : α → Bool} :
    a ∈ s.filter p ↔ a ∈ s ∧ p a = true := List.mem_filter

@[simp] theorem contains_iff [DecidableEq α] {s : SortedSet α} {a : α} :
    s.contains a = true ↔ a ∈ s := decide_eq_true_iff

theorem isDisjoint_iff [DecidableEq α] {s t : SortedSet α} :
    s.isDisjoint t = true ↔ ∀ a ∈ s, a ∉ t := by
  simp [isDisjoint, contains]

theorem isEmpty_iff {s : SortedSet α} : s.isEmpty = true ↔ ∀ a, a ∉ s := by
  rw [isEmpty, List.isEmpty_iff, List.eq_nil_iff_forall_not_mem]; rfl

section
variable [TransOrd α] [LawfulEqOrd α]

@[simp] theorem mem_insert {a b : α} {s : SortedSet α} : a ∈ s.insert b ↔ a = b ∨ a ∈ s :=
  mem_insertInto

@[simp] theorem mem_insertMany {a : α} {s : SortedSet α} {l : List α} :
    a ∈ s.insertMany l ↔ a ∈ s ∨ a ∈ l := by
  induction l generalizing s with
  | nil => simp [insertMany]
  | cons b l ih =>
    have := ih (s := s.insert b)
    simp only [insertMany, List.foldl_cons] at this ⊢
    rw [this]; simp only [mem_insert, List.mem_cons]; grind

@[simp] theorem mem_ofList {a : α} {l : List α} : a ∈ ofList l ↔ a ∈ l := by
  rw [ofList, mem_insertMany]
  exact or_iff_right not_mem_empty

@[simp] theorem mem_union {a : α} {s t : SortedSet α} : a ∈ s ∪ t ↔ a ∈ s ∨ a ∈ t :=
  mem_insertMany

@[simp] theorem mem_unions {a : α} {l : List (SortedSet α)} :
    a ∈ unions l ↔ ∃ s ∈ l, a ∈ s := by
  suffices ∀ s : SortedSet α, a ∈ l.foldl union s ↔ a ∈ s ∨ ∃ t ∈ l, a ∈ t from
    (this empty).trans (or_iff_right not_mem_empty)
  induction l with
  | nil => simp
  | cons t l ih =>
    intro s
    rw [List.foldl_cons, ih]
    have : a ∈ union s t ↔ a ∈ s ∨ a ∈ t := mem_union
    simp [this, or_assoc]

end

@[simp] theorem mem_map [TransOrd β] [LawfulEqOrd β] {s : SortedSet α} {f : α → β} {b : β} :
    b ∈ s.map f ↔ ∃ a ∈ s, f a = b := by
  simp [map]

/-- Two strictly increasing lists with the same elements are equal. -/
theorem eq_of_mem_iff [TransOrd α] : ∀ {l m : List α},
    l.Pairwise (fun a b => compare a b = .lt) → m.Pairwise (fun a b => compare a b = .lt) →
    (∀ a, a ∈ l ↔ a ∈ m) → l = m
  | [], _, _, _, h => (List.eq_nil_iff_forall_not_mem.2 fun a ha => by simpa using (h a).2 ha).symm
  | _ :: _, [], _, _, h => absurd ((h _).1 List.mem_cons_self) List.not_mem_nil
  | a :: l, b :: m, hl, hm, h => by
    have hl' := List.pairwise_cons.1 hl
    have hm' := List.pairwise_cons.1 hm
    have irrefl : ∀ a : α, compare a a ≠ .lt := fun a => by simp
    have hab : a = b := by
      rcases List.mem_cons.1 ((h a).1 List.mem_cons_self) with e | ha
      · exact e
      rcases List.mem_cons.1 ((h b).2 List.mem_cons_self) with e | hb
      · exact e.symm
      · exact absurd (TransCmp.lt_trans (hm'.1 a ha) (hl'.1 b hb)) (irrefl b)
    subst hab
    congr 1
    refine eq_of_mem_iff hl'.2 hm'.2 fun c => ⟨fun hc => ?_, fun hc => ?_⟩
    · rcases List.mem_cons.1 ((h c).1 (List.mem_cons_of_mem _ hc)) with rfl | hc'
      · exact absurd (hl'.1 _ hc) (irrefl _)
      · exact hc'
    · rcases List.mem_cons.1 ((h c).2 (List.mem_cons_of_mem _ hc)) with rfl | hc'
      · exact absurd (hm'.1 _ hc) (irrefl _)
      · exact hc'

/-- **A set is determined by its members.** -/
theorem ext [TransOrd α] : ∀ {s t : SortedSet α}, (∀ a, a ∈ s ↔ a ∈ t) → s = t
  | ⟨_, hl⟩, ⟨_, hm⟩, h => by cases eq_of_mem_iff hl hm h; rfl

end SortedSet

end QuantumProgram
