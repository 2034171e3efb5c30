/-
  QuantumProgram — packing operations as early as possible.

  The index that the packing keeps always speaks of the moments built so far
  (`Tracks`): the earliest place of an operation is right after the last moment
  with an operation that it depends on.  So an operation only goes in front of
  operations that it does not depend on, and the packed program is a
  rearrangement of the list (`rearranged_ofOperations`).
-/
import QuantumProgram.Proofs.Placement
import QuantumProgram.Proofs.Rearrangement

namespace QuantumProgram

namespace Packing

/-- The operations of moment `a`; past the end there are none. -/
def opsAt (moments : List Moment) (a : ℕ) : List Operation :=
  (moments[a]?.map Moment.operations).getD []

theorem lt_length_of_mem_opsAt {moments : List Moment} {a : ℕ} {o : Operation}
    (h : o ∈ opsAt moments a) : a < moments.length := by
  by_contra hle
  simp [opsAt, List.getElem?_eq_none (Nat.le_of_not_lt hle)] at h

theorem opsAt_eq {moments : List Moment} {a : ℕ} (h : a < moments.length) :
    opsAt moments a = moments[a].operations := by
  simp [opsAt, h]

theorem opsAt_append_singleton {moments : List Moment} {m : Moment} {a : ℕ} :
    opsAt (moments ++ [m]) a = if a = moments.length then m.operations else opsAt moments a := by
  unfold opsAt
  rcases Nat.lt_trichotomy a moments.length with h | h | h
  · rw [List.getElem?_append_left h, if_neg (Nat.ne_of_lt h)]
  · simp [h]
  · rw [if_neg (Nat.ne_of_gt h), List.getElem?_eq_none (by simp; omega),
      List.getElem?_eq_none (by omega)]

theorem opsAt_place {moments : List Moment} {op : Operation} {i : ℕ} (hi : i ≤ moments.length)
    (a : ℕ) : opsAt (place moments op i) a = opsAt moments a ++ if a = i then [op] else [] := by
  by_cases hlt : i < moments.length
  · rw [place, if_pos hlt, opsAt, opsAt]
    by_cases ha : a = i
    · subst ha
      simp [hlt, Moment.add]
    · simp [List.getElem?_modify_ne _ _ (Ne.symm ha), ha]
  · obtain rfl : i = moments.length := by omega
    rw [place, if_neg hlt, opsAt_append_singleton]
    split_ifs with ha
    · simp [ha, opsAt, Moment.add, Moment.empty]
    · simp

theorem length_place {moments : List Moment} {op : Operation} {i : ℕ} (hi : i ≤ moments.length) :
    (place moments op i).length = max moments.length (i + 1) := by
  unfold place
  split_ifs <;> simp <;> omega

/-- Placing an operation puts it in front of the later moments. -/
theorem operations_place (moments : List Moment) (op : Operation) (i : ℕ) :
    ∃ before after : List Operation,
    moments.flatMap Moment.operations = before ++ after ∧
      (place moments op i).flatMap Moment.operations = before ++ op :: after ∧
      ∀ o ∈ after, ∃ a, i < a ∧ o ∈ opsAt moments a := by
  unfold place
  split_ifs with hlt
  · refine ⟨(moments.take (i + 1)).flatMap Moment.operations,
      (moments.drop (i + 1)).flatMap Moment.operations, ?_, ?_, fun o ho => ?_⟩
    · rw [← List.flatMap_append, List.take_append_drop]
    · rw [List.modify_eq_take_cons_drop hlt, List.take_succ_eq_append_getElem hlt]
      simp only [Moment.add, List.flatMap_append, List.flatMap_cons, List.flatMap_nil,
        List.append_nil, List.append_assoc, List.singleton_append]
    · obtain ⟨m, hm, ho⟩ := List.mem_flatMap.1 ho
      obtain ⟨a, ha, rfl⟩ := List.mem_iff_getElem.1 hm
      rw [List.length_drop] at ha
      rw [List.getElem_drop] at ho
      exact ⟨i + 1 + a, by omega, by rwa [opsAt_eq (by omega)]⟩
  · exact ⟨moments.flatMap Moment.operations, [], by simp, by simp [Moment.add, Moment.empty],
      by simp⟩

/-! ## The index speaks of the moments -/

/-- The index finds for every operation the last moment with an operation that
    it depends on. -/
def Tracks (index : PlacementIndex) (moments : List Moment) : Prop :=
  ∀ op n, index.earliest op ≤ n ↔ ∀ a, ∀ o ∈ opsAt moments a, Dependent o op → a < n

theorem tracks_nil : Tracks {} [] := fun op n => by simp [opsAt]

namespace Tracks
variable {index : PlacementIndex} {moments : List Moment} (h : Tracks index moments)
include h

theorem earliest_le_length (op : Operation) : index.earliest op ≤ moments.length :=
  (h op _).2 fun _ _ ho _ => lt_length_of_mem_opsAt ho

/-- An operation depends on nothing from its earliest place on. -/
theorem not_dependent {op o : Operation} {a : ℕ} (ha : index.earliest op ≤ a)
    (ho : o ∈ opsAt moments a) : ¬ Dependent o op :=
  fun hd => Nat.lt_irrefl a ((h op a).1 ha a o ho hd)

theorem place {op : Operation} {i : ℕ} (hi : i ≤ moments.length) :
    Tracks (index.record op i) (Packing.place moments op i) := by
  intro op' n
  rw [PlacementIndex.earliest_record_le_iff, h op' n]
  simp only [opsAt_place hi, List.mem_append]
  constructor
  · rintro ⟨hold, hnew⟩ a o (ho | ho) hd
    · exact hold a o ho hd
    · split_ifs at ho with ha
      · obtain rfl := List.mem_singleton.1 ho
        exact ha ▸ hnew hd
      · simp at ho
  · intro hall
    refine ⟨fun a o ho => hall a o (Or.inl ho), fun hd => ?_⟩
    exact hall i op (by simp) hd

end Tracks

/-! ## Packing a list of operations -/

/-- The moments of packed operations, with the index. -/
def packed (ops : List Operation) : List Moment × PlacementIndex :=
  (ops.map Item.operation).foldl stepEarliest ([], {})

@[simp] theorem packed_nil : packed [] = ([], {}) := rfl

theorem packed_concat (ops : List Operation) (op : Operation) :
    packed (ops ++ [op]) =
      (place (packed ops).1 op ((packed ops).2.earliest op),
        (packed ops).2.record op ((packed ops).2.earliest op)) := by
  simp [packed, stepEarliest]

theorem moments_ofOperations (ops : List Operation) :
    (Program.ofOperations ops).moments = (packed ops).1 := rfl

theorem tracks_packed (ops : List Operation) : Tracks (packed ops).2 (packed ops).1 := by
  induction ops using List.reverseRecOn with
  | nil => exact tracks_nil
  | append_singleton ops op ih =>
    rw [packed_concat]
    exact ih.place (ih.earliest_le_length op)

/-- **Packing moves an operation only in front of operations that it does not
    depend on.** -/
theorem rearranged_ofOperations (ops : List Operation) :
    Rearranged (fun a b => ¬ Dependent a b) ops (Program.ofOperations ops).operations := by
  rw [Program.operations, moments_ofOperations]
  induction ops using List.reverseRecOn with
  | nil => exact .nil
  | append_singleton ops op ih =>
    have ht := tracks_packed ops
    obtain ⟨before, after, hold, hnew, hafter⟩ :=
      operations_place (packed ops).1 op ((packed ops).2.earliest op)
    rw [packed_concat, hnew]
    rw [hold] at ih
    refine ih.insert op fun o ho => ?_
    obtain ⟨a, ha, hoa⟩ := hafter o ho
    exact ht.not_dependent (Nat.le_of_lt ha) hoa

end Packing

end QuantumProgram
