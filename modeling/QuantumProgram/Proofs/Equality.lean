/-
  QuantumProgram — equality of operations.

  Since equality is an equivalence, operations and programs are equal to
  themselves, floats of all values included (`Operation.beq_self`).  What equal
  operations have in common is shown by one induction over both
  (`Operation.equalInduction`); measurement keys, for one, do not depend on floats
  (`Operation.measurementKeys_eq_of_beq`).
-/
import QuantumProgram.Program.Interface
import QuantumProgram.Proofs.Hashing

namespace QuantumProgram

/-! ## Everything is equal to itself -/

instance : ReflBEq CallSettings := ⟨(CallSettings.lawful _).refl⟩

/-- **An operation is equal to itself.** -/
theorem Operation.beq_self (op : Operation) : op.beq op = true :=
  (Operation.lawful mixingDigest op).refl

theorem sameOperations_self (ops : List Operation) : sameOperations ops ops = true :=
  (Moment.lawful mixingDigest ⟨ops⟩).refl

instance : ReflBEq Program := ⟨(Program.lawful mixingDigest _).refl⟩

/-! ## Equal operations -/

/-- Two lists agree under functions if they do so place by place. -/
theorem map_eq_map_iff_forall₂ {α β γ : Type} {f : α → γ} {g : β → γ} {l : List α} {l' : List β} :
    l.map f = l'.map g ↔ List.Forall₂ (fun a b => f a = g b) l l' := by
  rw [← List.forall₂_eq_eq_eq, List.forall₂_map_left_iff, List.forall₂_map_right_iff]

/-- Equal gates are of one kind. -/
theorem StandardGate.index_eq_of_beq {g g' : StandardGate} (h : (g == g') = true) :
    g.index = g'.index := by
  change g.beq g' = true at h
  rw [beq_eq, Bool.and_eq_true] at h
  exact of_decide_eq_true h.1

section
variable {R : Operation → Operation → Prop}

theorem forall₂_of_sameOperations {ops ops' : List Operation}
    (hR : ∀ op ∈ ops, ∀ op', op.beq op' = true → R op op')
    (h : sameOperations ops ops' = true) : List.Forall₂ R ops ops' := by
  induction ops generalizing ops' with
  | nil =>
    cases ops' with
    | nil => exact .nil
    | cons op' rest' => exact absurd h (by simp [sameOperations])
  | cons op rest ih =>
    cases ops' with
    | nil => exact absurd h (by simp [sameOperations])
    | cons op' rest' =>
      obtain ⟨hop, hrest⟩ := List.forall_mem_cons.1 hR
      rw [sameOperations, Bool.and_eq_true] at h
      exact .cons (hop op' h.1) (ih hrest h.2)

theorem forall₂_of_sameMoments {moments moments' : List Moment}
    (hR : ∀ op ∈ moments.flatMap Moment.operations, ∀ op', op.beq op' = true → R op op')
    (h : sameMoments moments moments' = true) :
    List.Forall₂ R (moments.flatMap Moment.operations) (moments'.flatMap Moment.operations) := by
  induction moments generalizing moments' with
  | nil =>
    cases moments' with
    | nil => exact .nil
    | cons m' rest' => exact absurd h (by simp [sameMoments])
  | cons m rest ih =>
    obtain ⟨ops⟩ := m
    cases moments' with
    | nil => exact absurd h (by simp [sameMoments])
    | cons m' rest' =>
      obtain ⟨ops'⟩ := m'
      rw [List.flatMap_cons, List.forall_mem_append] at hR
      rw [sameMoments, Bool.and_eq_true] at h
      exact List.rel_append (forall₂_of_sameOperations hR.1 h.1) (ih hR.2 h.2)

end

/-- Equal settings differ at most in the floats that are bound. -/
theorem CallSettings.eq_of_beq {s s' : CallSettings} (h : (s == s') = true) :
    s' = { s with bindings := s'.bindings } := by
  simp only [BEq.beq, CallSettings.beq, Bool.and_eq_true, decide_eq_true_eq] at h
  obtain ⟨⟨⟨⟨⟨⟨hrepetitions, hids⟩, hqubits⟩, hkeys⟩, -⟩, huse⟩, huntil⟩ := h
  have hqubitMap : s.qubitMap = s'.qubitMap := by
    rw [← SortedMap.ofList_toList s.qubitMap, hqubits, SortedMap.ofList_toList]
  have hkeyMap : s.keyMap = s'.keyMap := by
    rw [← SortedMap.ofList_toList s.keyMap, hkeys, SortedMap.ofList_toList]
  rw [hrepetitions, hids, hqubitMap, hkeyMap, huse, huntil]

theorem Program.beq_iff {p q : Program} :
    (p == q) = true ↔ sameMoments p.moments q.moments = true ∧ p.tags = q.tags := by
  show (sameMoments p.moments q.moments && decide (p.tags = q.tags)) = true ↔ _
  rw [Bool.and_eq_true, decide_eq_true_eq]

theorem Call.beq_iff {c c' : Call} :
    (c == c') = true ↔ (c.program == c'.program) = true ∧ (c.settings == c'.settings) = true :=
  Bool.and_eq_true_iff

theorem Action.beq_call_iff {c c' : Call} :
    (call c).beq (.call c') = true ↔ (c == c') = true := by
  obtain ⟨⟨moments, tags⟩, settings⟩ := c
  obtain ⟨⟨moments', tags'⟩, settings'⟩ := c'
  rw [Action.beq, Bool.and_eq_true, Call.beq_iff]
  rfl

theorem Operation.beq_iff {a b : Operation} : a.beq b = true ↔
    a.action.beq b.action = true ∧ a.qubits = b.qubits ∧ a.tags = b.tags := by
  obtain ⟨action, qubits, tags⟩ := a
  obtain ⟨action', qubits', tags'⟩ := b
  rw [Operation.beq, Bool.and_eq_true, Bool.and_eq_true, decide_eq_true_eq, decide_eq_true_eq,
    and_assoc]

theorem Operation.qubits_eq_of_beq {a b : Operation} (h : a.beq b = true) : a.qubits = b.qubits :=
  (beq_iff.1 h).2.1

/-- **Induction over two equal operations.**  A property holds of them if it holds of
    equal gates, of measurements into one key and of resets, of equal calls whenever it
    holds of the operations of the called programs, and of guarded operations
    whenever it holds of what is guarded. -/
@[elab_as_elim]
theorem Operation.equalInduction {P : Operation → Operation → Prop}
    (gate : ∀ g g' qubits tags, (g == g') = true → P ⟨.gate g, qubits, tags⟩ ⟨.gate g', qubits, tags⟩)
    (measure : ∀ key qubits tags, P ⟨.measure key, qubits, tags⟩ ⟨.measure key, qubits, tags⟩)
    (reset : ∀ qubits tags, P ⟨.reset, qubits, tags⟩ ⟨.reset, qubits, tags⟩)
    (call : ∀ (c c' : Call) qubits tags, (c == c') = true →
      List.Forall₂ P c.program.operations c'.program.operations →
      P ⟨.call c, qubits, tags⟩ ⟨.call c', qubits, tags⟩)
    (guarded : ∀ op op' conditions qubits tags, P op op' →
      P ⟨.guarded op conditions, qubits, tags⟩ ⟨.guarded op' conditions, qubits, tags⟩)
    {a b : Operation} (h : a.beq b = true) : P a b := by
  induction a using Operation.nestingInduction generalizing b with
  | gate g qubits tags =>
    obtain ⟨action', qubits', tags'⟩ := b
    obtain ⟨haction, rfl, rfl⟩ := beq_iff.1 h
    cases action' with
    | gate g' => exact gate g g' _ _ haction
    | measure | reset | call | guarded => simp [Action.beq] at haction
  | measure key qubits tags =>
    obtain ⟨action', qubits', tags'⟩ := b
    obtain ⟨haction, rfl, rfl⟩ := beq_iff.1 h
    cases action' with
    | measure key' =>
      obtain rfl : key = key' := of_decide_eq_true haction
      exact measure key _ _
    | gate | reset | call | guarded => simp [Action.beq] at haction
  | reset qubits tags =>
    obtain ⟨action', qubits', tags'⟩ := b
    obtain ⟨haction, rfl, rfl⟩ := beq_iff.1 h
    cases action' with
    | reset => exact reset _ _
    | gate | measure | call | guarded => simp [Action.beq] at haction
  | call c qubits tags ih =>
    -- the comparison goes into a call only once its parts are given
    obtain ⟨⟨moments, programTags⟩, settings⟩ := c
    obtain ⟨action', qubits', tags'⟩ := b
    obtain ⟨haction, rfl, rfl⟩ := beq_iff.1 h
    cases action' with
    | call c' =>
      have hcall := Action.beq_call_iff.1 haction
      have hmoments := (Program.beq_iff.1 (Call.beq_iff.1 hcall).1).1
      exact call _ c' _ _ hcall
        (forall₂_of_sameMoments (fun op hop op' hsame => ih op hop hsame) hmoments)
    | gate | measure | reset | guarded => simp [Action.beq] at haction
  | guarded op conditions qubits tags ih =>
    obtain ⟨action', qubits', tags'⟩ := b
    obtain ⟨haction, rfl, rfl⟩ := beq_iff.1 h
    cases action' with
    | guarded op' conditions' =>
      rw [Action.beq, Bool.and_eq_true, decide_eq_true_eq] at haction
      obtain ⟨hinner, rfl⟩ := haction
      exact guarded op op' conditions _ _ (ih hinner)
    | gate | measure | reset | call => simp [Action.beq] at haction

/-! ## Equal operations write the same keys -/

/-- What a call measures depends on its settings up to equality. -/
theorem Call.measurementKeys_congr {c c' : Call} (h : (c.settings == c'.settings) = true)
    (hprogram : c.program.measurementKeys = c'.program.measurementKeys) :
    c.measurementKeys = c'.measurementKeys := by
  rw [measurementKeys, measurementKeys, CallSettings.eq_of_beq h, hprogram]
  rfl

theorem Program.measurementKeys_eq_of_forall₂ {p q : Program}
    (h : List.Forall₂ (fun a b => a.measurementKeys = b.measurementKeys) p.operations
      q.operations) : p.measurementKeys = q.measurementKeys := by
  rw [measurementKeys, measurementKeys, map_eq_map_iff_forall₂.2 h]

/-- **Equal operations write the same keys.** -/
theorem Operation.measurementKeys_eq_of_beq {a b : Operation} (h : a.beq b = true) :
    a.measurementKeys = b.measurementKeys := by
  refine equalInduction (P := fun a b => a.measurementKeys = b.measurementKeys)
    (fun _ _ _ _ _ => rfl) (fun _ _ _ => rfl) (fun _ _ => rfl) ?call ?guarded h
  case call =>
    intro c c' qubits tags hcall ih
    rw [measurementKeys_call, measurementKeys_call]
    exact Call.measurementKeys_congr (Call.beq_iff.1 hcall).2
      (Program.measurementKeys_eq_of_forall₂ ih)
  case guarded =>
    intro op op' conditions qubits tags ih
    exact ih

end QuantumProgram
