/-
  QuantumProgram — what equal programs have in common.

  Equal operations may differ in the floats inside, but not in their names and
  qubits, nor in the keys that they write, nor in whether they have an inverse.
  This is all that the checks of calls and moments ask for, so equal calls and
  moments of equal operations have the same faults (`Call.fault?_eq_of_beq`,
  `Moment.firstOverlap?_eq_of_beq`).
-/
import QuantumProgram.Proofs.Alike
import QuantumProgram.Proofs.Equality

namespace QuantumProgram

/-! ## Gates -/

theorem StandardGate.name_eq_of_beq {g g' : StandardGate} (h : (g == g') = true) :
    g.name = g'.name := by
  have hindex := index_eq_of_beq h
  cases g <;> cases g' <;> first | rfl | simp [index] at hindex

/-- Equal gates have one name, and both have an inverse or neither. -/
theorem Gate.alike_of_beq {g g' : Gate} (h : (g == g') = true) :
    g.name = g'.name ∧ g.inverse?.isSome = g'.inverse?.isSome := by
  change Gate.beq g g' = true at h
  cases g with
  | standard g =>
    cases g' with
    | standard g' => exact ⟨StandardGate.name_eq_of_beq h, rfl⟩
    | custom g' => exact absurd h Bool.false_ne_true
  | custom g =>
    cases g' with
    | standard g' => exact absurd h Bool.false_ne_true
    | custom g' =>
      change CustomGate.beq g g' = true at h
      simp only [CustomGate.beq, Bool.and_eq_true, decide_eq_true_eq] at h
      obtain ⟨⟨⟨hname, -⟩, -⟩, hinverse⟩ := h
      refine ⟨hname, ?_⟩
      simp only [inverse?, CustomGate.inverse?, Option.isSome_map, hinverse]

/-! ## Operations -/

/-- **Equal operations have one name.** -/
theorem Operation.name_eq_of_beq {a b : Operation} (h : a.beq b = true) : a.name = b.name := by
  refine equalInduction (P := fun a b => a.name = b.name) ?gate (fun _ _ _ => rfl)
    (fun _ _ => rfl) (fun _ _ _ _ _ _ => rfl) ?guarded h
  case gate =>
    intro g g' qubits tags hgate
    exact (Gate.alike_of_beq hgate).1
  case guarded =>
    intro op op' conditions qubits tags ih
    rw [name, name, ih]

/-! ## Programs -/

namespace Program

variable {p q : Program}

theorem qubits_eq_of_forall₂
    (h : List.Forall₂ (fun a b => a.qubits = b.qubits) p.operations q.operations) :
    p.qubits = q.qubits := by
  rw [qubits, qubits, List.flatMap_def, List.flatMap_def, map_eq_map_iff_forall₂.2 h]

theorem isInvertible_eq_of_forall₂
    (h : List.Forall₂ (fun a b => a.inverse?.isSome = b.inverse?.isSome) p.operations
      q.operations) : p.isInvertible = q.isInvertible := by
  have hall (r : Program) : r.isInvertible = (r.operations.map (·.inverse?.isSome)).all id := by
    rw [isInvertible_eq, List.all_map]
    rfl
  rw [hall, hall, map_eq_map_iff_forall₂.2 h]

theorem forall₂_of_beq (h : (p == q) = true) :
    List.Forall₂ (fun a b => a.beq b = true) p.operations q.operations :=
  forall₂_of_sameMoments (fun _ _ _ hop => hop) (beq_iff.1 h).1

theorem qubits_eq_of_beq (h : (p == q) = true) : p.qubits = q.qubits :=
  qubits_eq_of_forall₂ ((forall₂_of_beq h).imp fun _ _ => Operation.qubits_eq_of_beq)

theorem measurementKeys_eq_of_beq (h : (p == q) = true) :
    p.measurementKeys = q.measurementKeys :=
  measurementKeys_eq_of_forall₂
    ((forall₂_of_beq h).imp fun _ _ => Operation.measurementKeys_eq_of_beq)

end Program

/-- **Equal operations both have an inverse, or neither has one.** -/
theorem Operation.inverse?_isSome_eq_of_beq {a b : Operation} (h : a.beq b = true) :
    a.inverse?.isSome = b.inverse?.isSome := by
  refine equalInduction (P := fun a b => a.inverse?.isSome = b.inverse?.isSome) ?gate
    (fun _ _ _ => rfl) (fun _ _ => rfl) ?call (fun _ _ _ _ _ _ => rfl) h
  case gate =>
    intro g g' qubits tags hgate
    simp only [inverse?, Option.isSome_map, (Gate.alike_of_beq hgate).2]
  case call =>
    intro c c' qubits tags hcall ih
    obtain ⟨p, s⟩ := c
    obtain ⟨q, s'⟩ := c'
    obtain ⟨hprogram, hsettings⟩ := Call.beq_iff.1 hcall
    have hsame : s' = { s with bindings := s'.bindings } := CallSettings.eq_of_beq hsettings
    rw [inverse?_call_isSome, inverse?_call_isSome, hsame]
    -- the inverses of the calls have to pass the same checks
    exact congrArg Option.isNone (Call.fault?_congr (Program.qubits_eq_of_beq hprogram)
      (Program.measurementKeys_eq_of_beq hprogram) (Program.isInvertible_eq_of_forall₂ ih)
      (Call.scaled ⟨p, s⟩ (-1)).settings s'.bindings)

/-! ## Making equal operations -/

theorem sameOperations_iff {ops ops' : List Operation} :
    sameOperations ops ops' = true ↔ List.Forall₂ (fun a b => a.beq b = true) ops ops' := by
  constructor
  · exact forall₂_of_sameOperations fun _ _ _ hop => hop
  · intro h
    induction h with
    | nil => rfl
    | cons hop _ ih => rw [sameOperations, hop, ih, Bool.and_self]

theorem sameMoments_iff {moments moments' : List Moment} :
    sameMoments moments moments' = true ↔
      List.Forall₂ (fun m m' => (m == m') = true) moments moments' := by
  induction moments generalizing moments' with
  | nil => cases moments' <;> simp [sameMoments]
  | cons m rest ih =>
    obtain ⟨ops⟩ := m
    cases moments' with
    | nil => simp [sameMoments]
    | cons m' rest' =>
      obtain ⟨ops'⟩ := m'
      rw [sameMoments, Bool.and_eq_true, ih, List.forall₂_cons]
      rfl

namespace Operation

theorem beq_withTags {a b : Operation} (h : a.beq b = true) (tags : List Tag) :
    (a.withTags tags).beq (b.withTags tags) = true := by
  obtain ⟨haction, hqubits, htags⟩ := beq_iff.1 h
  exact beq_iff.2 ⟨haction, hqubits, congrArg (· ++ tags) htags⟩

/-- **Calls of equal programs are equal**, also under conditions. -/
theorem beq_guarded_ofCall {p q : Program} (h : (p == q) = true) (s : CallSettings)
    (conditions : List Condition) :
    ((ofCall ⟨p, s⟩).withConditions conditions).beq
      ((ofCall ⟨q, s⟩).withConditions conditions) = true := by
  have hqubits : Call.qubits ⟨p, s⟩ = Call.qubits ⟨q, s⟩ :=
    Call.qubits_congr (Program.qubits_eq_of_beq h) s s.bindings
  have hcall : (ofCall ⟨p, s⟩).beq (ofCall ⟨q, s⟩) = true :=
    beq_iff.2 ⟨Action.beq_call_iff.2 (Call.beq_iff.2 ⟨h, beq_self_eq_true s⟩), hqubits, rfl⟩
  cases conditions with
  | nil => exact hcall
  | cons condition conditions =>
    have hguarded : (Action.guarded (ofCall ⟨p, s⟩) (condition :: conditions)).beq
        (.guarded (ofCall ⟨q, s⟩) (condition :: conditions)) = true := by
      rw [Action.beq, hcall, decide_eq_true rfl, Bool.and_self]
    exact beq_iff.2 ⟨hguarded, hqubits, rfl⟩

end Operation

/-! ## Faults -/

/-- **Calls of equal programs have the same faults.** -/
theorem Call.fault?_eq_of_beq {p q : Program} (h : (p == q) = true) (s : CallSettings) :
    fault? p.isInvertible ⟨p, s⟩ = fault? q.isInvertible ⟨q, s⟩ := by
  have hinverse : p.isInvertible = q.isInvertible := Program.isInvertible_eq_of_forall₂
    ((Program.forall₂_of_beq h).imp fun _ _ => Operation.inverse?_isSome_eq_of_beq)
  exact fault?_congr (Program.qubits_eq_of_beq h) (Program.measurementKeys_eq_of_beq h) hinverse s
    s.bindings

/-- **Equal operations meet others on the same qubit**, and have the same name for it. -/
theorem Moment.firstOverlap?_eq_of_beq {ops ops' : List Operation}
    (h : List.Forall₂ (fun a b => a.beq b = true) ops ops') (qubits : List Qubit) :
    (firstOverlap? qubits ops).map (fun found => (found.1.name, found.2)) =
      (firstOverlap? qubits ops').map fun found => (found.1.name, found.2) := by
  induction h with
  | nil => rfl
  | cons hop _ ih =>
    rw [firstOverlap?, firstOverlap?, Operation.qubits_eq_of_beq hop]
    split
    · simp only [Option.map_some, Operation.name_eq_of_beq hop]
    · exact ih

end QuantumProgram
