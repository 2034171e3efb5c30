/-
  QuantumProgram — the earliest packing as a schedule.

  A schedule gives each position of a list of operations a moment.  The
  earliest packing is a schedule that keeps dependent operations apart and in
  order, and no such schedule has an operation in an earlier moment
  (`ofOperations_earliest`).  The moment of a position is characterised by
  `slotAt_le_iff`.
-/
import QuantumProgram.Proofs.Packing

namespace QuantumProgram

/-- The moments hold each position of `ops` once: in the moment of its slot, and
    there in the order of the list. -/
structure IsSchedule (ops : List Operation) (slot : Fin ops.length → ℕ)
    (moments : List Moment) : Prop where
  slot_lt : ∀ i, slot i < moments.length
  operations_eq : ∀ a (ha : a < moments.length), moments[a].operations =
    ((List.finRange ops.length).filter (slot · = a)).map ops.get

namespace Packing

variable (ops : List Operation)

/-- The moment in which the operation at a position is placed. -/
def slotAt (i : ℕ) : ℕ := (packed (ops.take i)).2.earliest (ops.getD i default)

theorem take_succ_eq {k : ℕ} (hk : k < ops.length) :
    ops.take (k + 1) = ops.take k ++ [ops.getD k default] := by
  rw [List.take_succ_eq_append_getElem hk, List.getD_eq_getElem?_getD, List.getElem?_eq_getElem hk,
    Option.getD_some]

theorem opsAt_packed_take (a : ℕ) : ∀ k ≤ ops.length, opsAt (packed (ops.take k)).1 a =
    ((List.range k).filter (slotAt ops · = a)).map (ops.getD · default)
  | 0, _ => by simp [opsAt]
  | k + 1, hk => by
    rw [take_succ_eq ops hk, packed_concat,
      opsAt_place ((tracks_packed _).earliest_le_length _), opsAt_packed_take a k (by omega),
      List.range_succ, List.filter_append, List.map_append, ← slotAt]
    congr 1
    by_cases ha : a = slotAt ops k
    · simp [ha]
    · simp [ha, Ne.symm ha]

theorem opsAt_packed (a : ℕ) : opsAt (packed ops).1 a =
    ((List.range ops.length).filter (slotAt ops · = a)).map (ops.getD · default) := by
  simpa using opsAt_packed_take ops a ops.length le_rfl

/-- **A slot is the least number above the slots of all earlier operations that
    depend on the operation.** -/
theorem slotAt_le_iff {j n : ℕ} (hj : j < ops.length) :
    slotAt ops j ≤ n ↔
      ∀ i < j, Dependent (ops.getD i default) (ops.getD j default) → slotAt ops i < n := by
  rw [slotAt, tracks_packed (ops.take j) (ops.getD j default) n]
  simp only [opsAt_packed_take ops _ j (Nat.le_of_lt hj), List.mem_map, List.mem_filter,
    List.mem_range, decide_eq_true_eq]
  constructor
  · intro h i hi hd
    exact h _ _ ⟨i, ⟨hi, rfl⟩, rfl⟩ hd
  · rintro h _ _ ⟨i, ⟨hi, rfl⟩, rfl⟩ hd
    exact h i hi hd

theorem slotAt_lt_length {i : ℕ} (hi : i < ops.length) : slotAt ops i < (packed ops).1.length := by
  refine lt_length_of_mem_opsAt (o := ops.getD i default) ?_
  rw [opsAt_packed]
  exact List.mem_map_of_mem (List.mem_filter.2 ⟨List.mem_range.2 hi, by simp⟩)

theorem opsAt_packed_ne_nil {a : ℕ} (ha : a < (packed ops).1.length) :
    opsAt (packed ops).1 a ≠ [] := by
  induction ops using List.reverseRecOn with
  | nil => simp at ha
  | append_singleton ops op ih =>
    have hle := (tracks_packed ops).earliest_le_length op
    rw [packed_concat, length_place hle] at ha
    rw [packed_concat, opsAt_place hle]
    by_cases h : a < (packed ops).1.length
    · simp [ih h]
    · have hlast : a = (packed ops).2.earliest op := by omega
      simp [hlast]

end Packing

namespace Program

variable (ops : List Operation)

theorem isSchedule_ofOperations :
    IsSchedule ops (fun i => Packing.slotAt ops i) (ofOperations ops).moments := by
  refine ⟨fun i => Packing.slotAt_lt_length ops i.2, fun a ha => ?_⟩
  have hops := Packing.opsAt_packed ops a
  rw [← Packing.moments_ofOperations, Packing.opsAt_eq ha, ← List.map_coe_finRange_eq_range,
    List.filter_map, List.map_map] at hops
  refine hops.trans (List.map_congr_left fun i _ => ?_)
  simp

/-- An operation is placed after every earlier one that it depends on. -/
theorem slotAt_lt_of_dependent {i j : Fin ops.length} (hij : i < j)
    (hd : Dependent ops[i] ops[j]) : Packing.slotAt ops i < Packing.slotAt ops j :=
  (Packing.slotAt_le_iff ops j.2).1 le_rfl i hij (by simpa using hd)

/-- Along a chain of dependent operations a slot grows by one only. -/
theorem slotAt_le_of_increasing {time : Fin ops.length → ℕ}
    (ht : ∀ i j, i < j → Dependent ops[i] ops[j] → time i < time j) (j : Fin ops.length) :
    Packing.slotAt ops j ≤ time j := by
  induction j using WellFoundedLT.induction with
  | ind j ih =>
    refine (Packing.slotAt_le_iff ops j.2).2 fun i hi hd => ?_
    have hlt : i < ops.length := Nat.lt_trans hi j.2
    exact Nat.lt_of_le_of_lt (ih ⟨i, hlt⟩ hi) (ht ⟨i, hlt⟩ j hi (by simpa [hlt] using hd))

/-- **The earliest packing is the earliest schedule.**  Every operation is in
    one moment, no moment is empty, an operation comes after those before it
    that it depends on, and it comes as early as in any assignment of times
    that keeps this order; so no such assignment gets by with fewer moments. -/
theorem ofOperations_earliest :
    ∃ slot : Fin ops.length → ℕ, IsSchedule ops slot (ofOperations ops).moments ∧
      (∀ m ∈ (ofOperations ops).moments, m.operations ≠ []) ∧
      (∀ i j, i < j → Dependent ops[i] ops[j] → slot i < slot j) ∧
      ∀ time : Fin ops.length → ℕ, (∀ i j, i < j → Dependent ops[i] ops[j] → time i < time j) →
        (∀ i, slot i ≤ time i) ∧
          ∀ depth, (∀ i, time i < depth) → (ofOperations ops).moments.length ≤ depth := by
  refine ⟨fun i => Packing.slotAt ops i, isSchedule_ofOperations ops, fun m hm => ?_,
    fun i j => slotAt_lt_of_dependent ops, fun time ht => ?_⟩
  · obtain ⟨a, ha, rfl⟩ := List.mem_iff_getElem.1 hm
    rw [← Packing.opsAt_eq ha]
    exact Packing.opsAt_packed_ne_nil ops ha
  · refine ⟨slotAt_le_of_increasing ops ht, fun depth hdepth => ?_⟩
    by_contra hlt
    -- some operation stands in moment `depth`, whose time would have to be as large
    obtain ⟨o, ho⟩ := List.exists_mem_of_ne_nil _
      (Packing.opsAt_packed_ne_nil ops (Nat.lt_of_not_le hlt))
    rw [Packing.opsAt_packed] at ho
    obtain ⟨i, hi, -⟩ := List.mem_map.1 ho
    rw [List.mem_filter, List.mem_range, decide_eq_true_eq] at hi
    obtain ⟨hi, rfl⟩ := hi
    have hle := slotAt_le_of_increasing ops ht ⟨i, hi⟩
    exact absurd (hdepth ⟨i, hi⟩) (Nat.not_lt_of_le hle)

end Program

end QuantumProgram
