/-
  QuantumProgram — what the index of last uses says.

  `earliest_record_le_iff`: noting an operation in moment `i` keeps a later one
  from all moments up to `i` exactly if the two are dependent.
-/
import QuantumProgram.Proofs.Dependence
import QuantumProgram.Program.Packing

namespace QuantumProgram

namespace PlacementIndex

section
variable {κ : Type} [Ord κ] [DecidableEq κ] {m : SortedMap κ ℕ} {k k' : κ} {i n : ℕ}

/-- The last use of `k`, if there is one, is before moment `n`. -/
def UsedBefore (m : SortedMap κ ℕ) (k : κ) (n : ℕ) : Prop := ∀ i, m.get? k = some i → i < n

variable [Std.TransOrd κ] [Std.LawfulEqOrd κ]

theorem usedBefore_bump :
    UsedBefore (bump m k i) k' n ↔ UsedBefore m k' n ∧ (k = k' → i < n) := by
  simp only [UsedBefore, bump, SortedMap.get?_insert, SortedMap.getD]
  by_cases h : k = k'
  · subst h
    cases m.get? k <;> simp
  · simp [h]

theorem usedBefore_foldl_bump {ks : List κ} :
    UsedBefore (ks.foldl (bump · · i) m) k n ↔ UsedBefore m k n ∧ (k ∈ ks → i < n) := by
  induction ks generalizing m with
  | nil => simp
  | cons k' ks ih =>
    rw [List.foldl_cons, ih, usedBefore_bump, List.mem_cons, and_assoc, ← or_imp, eq_comm]

end

theorem foldl_max_le {l : List ℕ} {a n : ℕ} : l.foldl max a ≤ n ↔ a ≤ n ∧ ∀ b ∈ l, b ≤ n := by
  induction l generalizing a with
  | nil => simp
  | cons b l ih => rw [List.foldl_cons, ih]; simp [and_assoc]

theorem filterMap_get?_lt {κ : Type} [Ord κ] [DecidableEq κ] {m : SortedMap κ ℕ} {ks : List κ}
    {n : ℕ} : (∀ i ∈ ks.filterMap m.get?, i < n) ↔ ∀ k ∈ ks, UsedBefore m k n := by
  simp only [List.mem_filterMap, UsedBefore]
  constructor
  · intro h k hk i hi
    exact h i ⟨k, hk, hi⟩
  · rintro h i ⟨k, hk, hi⟩
    exact h k hk i hi

variable {index : PlacementIndex} {op o : Operation} {i n : ℕ}

theorem earliest_le_iff :
    index.earliest op ≤ n ↔
      (∀ q ∈ op.qubits, UsedBefore index.qubits q n) ∧
        (∀ k ∈ op.controlKeys, UsedBefore index.measured k n) ∧
        (∀ k ∈ op.measurementKeys, UsedBefore index.measured k n) ∧
        ∀ k ∈ op.measurementKeys, UsedBefore index.read k n := by
  simp only [earliest, foldl_max_le, Nat.zero_le, true_and, List.forall_mem_map, Nat.succ_le_iff,
    predecessors, List.forall_mem_append, filterMap_get?_lt, SortedSet.mem_toList, and_assoc]

/-- **Noting an operation** keeps exactly the operations that are dependent on
    it from the moments up to its own. -/
theorem earliest_record_le_iff :
    (index.record o i).earliest op ≤ n ↔
      index.earliest op ≤ n ∧ (Dependent o op → i < n) := by
  simp only [earliest_le_iff, record, usedBefore_foldl_bump, SortedSet.mem_toList, Dependent]
  constructor
  · rintro ⟨hq, hr, hm, hw⟩
    refine ⟨⟨fun q h => (hq q h).1, fun k h => (hr k h).1, fun k h => (hm k h).1,
      fun k h => (hw k h).1⟩, ?_⟩
    rintro (⟨q, ho, h⟩ | ⟨k, ho, h | h⟩ | ⟨k, h, ho⟩)
    · exact (hq q h).2 ho
    · exact (hm k h).2 ho
    · exact (hr k h).2 ho
    · exact (hw k h).2 ho
  · rintro ⟨⟨hq, hr, hm, hw⟩, hd⟩
    refine ⟨?_, ?_, ?_, ?_⟩
    · intro q h
      exact ⟨hq q h, fun ho => hd (Or.inl ⟨q, ho, h⟩)⟩
    · intro k h
      exact ⟨hr k h, fun ho => hd (Or.inr (Or.inl ⟨k, ho, Or.inr h⟩))⟩
    · intro k h
      exact ⟨hm k h, fun ho => hd (Or.inr (Or.inl ⟨k, ho, Or.inl h⟩))⟩
    · intro k h
      exact ⟨hw k h, fun ho => hd (Or.inr (Or.inr ⟨k, h, ho⟩))⟩

@[simp] theorem earliest_empty : ({} : PlacementIndex).earliest op = 0 := by
  rw [← Nat.le_zero, earliest_le_iff]
  simp [UsedBefore]

end PlacementIndex

end QuantumProgram
