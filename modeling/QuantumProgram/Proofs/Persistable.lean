/-
  QuantumProgram — which programs can be written.

  The search for a tag without a persisted form goes through all tags inside a
  program (`Program.firstAttachment?_eq`).  If it finds none the program is
  written (`Program.exists_toJson`).
-/
import QuantumProgram.Persisted.Program
import QuantumProgram.Proofs.Outcomes
import QuantumProgram.Proofs.Parts

namespace QuantumProgram

/-! ## The search for tags without a persisted form -/

theorem firstAttached?_append (tags tags' : List Tag) :
    firstAttached? (tags ++ tags') = (firstAttached? tags <|> firstAttached? tags') := by
  rw [firstAttached?, List.find?_append, firstAttached?]
  cases List.find? (fun t => !t.isPersistable) tags <;> rfl

theorem firstAttached?_eq_none_iff {tags : List Tag} :
    firstAttached? tags = none ↔ ∀ t ∈ tags, t.isPersistable = true := by
  simp [firstAttached?]

theorem operationsFirstAttachment?_eq {ops : List Operation}
    (h : ∀ op ∈ ops, op.firstAttachment? = firstAttached? op.tagsWithin) :
    operationsFirstAttachment? ops = firstAttached? (ops.flatMap Operation.tagsWithin) := by
  induction ops with
  | nil => rfl
  | cons op rest ih =>
    obtain ⟨hop, hrest⟩ := List.forall_mem_cons.1 h
    rw [operationsFirstAttachment?, hop, ih hrest, List.flatMap_cons, firstAttached?_append]

theorem momentsFirstAttachment?_eq {moments : List Moment}
    (h : ∀ op ∈ moments.flatMap Moment.operations,
      op.firstAttachment? = firstAttached? op.tagsWithin) :
    momentsFirstAttachment? moments =
      firstAttached? ((moments.flatMap Moment.operations).flatMap Operation.tagsWithin) := by
  induction moments with
  | nil => rfl
  | cons m rest ih =>
    obtain ⟨ops⟩ := m
    rw [List.flatMap_cons, List.forall_mem_append] at h
    rw [momentsFirstAttachment?, operationsFirstAttachment?_eq h.1, ih h.2, List.flatMap_cons,
      List.flatMap_append, firstAttached?_append]

theorem Program.firstAttachment?_eq_of {p : Program}
    (h : ∀ op ∈ p.operations, op.firstAttachment? = firstAttached? op.tagsWithin) :
    p.firstAttachment? = firstAttached? p.tagsWithin := by
  rw [firstAttachment?, momentsFirstAttachment?_eq h, tagsWithin, firstAttached?_append,
    flatMap_parts]
  rfl

theorem Action.firstAttachment?_call (c : Call) :
    (Action.call c).firstAttachment? = c.program.firstAttachment? := by
  obtain ⟨⟨moments, tags⟩, settings⟩ := c
  rw [Action.firstAttachment?, Program.firstAttachment?]

theorem Operation.firstAttachment?_eq (op : Operation) :
    op.firstAttachment? = firstAttached? op.tagsWithin := by
  induction op using Operation.nestingInduction with
  | gate g qubits tags =>
    rw [tagsWithin_gate, Operation.firstAttachment?, Action.firstAttachment?]
    cases firstAttached? tags <;> rfl
  | measure key qubits tags =>
    rw [tagsWithin_measure, Operation.firstAttachment?, Action.firstAttachment?]
    cases firstAttached? tags <;> rfl
  | reset qubits tags =>
    rw [tagsWithin_reset, Operation.firstAttachment?, Action.firstAttachment?]
    cases firstAttached? tags <;> rfl
  | call c qubits tags ih =>
    rw [Operation.firstAttachment?, Action.firstAttachment?_call,
      Program.firstAttachment?_eq_of ih, tagsWithin_call, firstAttached?_append]
  | guarded op conditions qubits tags ih =>
    rw [Operation.firstAttachment?, Action.firstAttachment?, ih, tagsWithin_guarded,
      firstAttached?_append]

/-- **The search finds the first tag without a persisted form**, among all tags
    inside the program. -/
theorem Program.firstAttachment?_eq (p : Program) :
    p.firstAttachment? = firstAttached? p.tagsWithin :=
  firstAttachment?_eq_of fun op _ => op.firstAttachment?_eq

/-! ## Writing, operation by operation -/

theorem operationsToJson_eq (ops : List Operation) :
    operationsToJson ops = ops.mapM Operation.toJson := by
  induction ops with
  | nil => rfl
  | cons op rest ih =>
    rw [operationsToJson, List.mapM_cons, ih]

theorem momentsToJson_eq (moments : List Moment) :
    momentsToJson moments = moments.mapM Moment.toJson := by
  induction moments with
  | nil => rfl
  | cons m rest ih =>
    obtain ⟨ops⟩ := m
    rw [momentsToJson, List.mapM_cons, ih, Moment.toJson, bind_assoc]
    simp only [pure_bind]

theorem Moment.toJson_eq_ok_iff {m : Moment} {v : Json} : m.toJson = .ok v ↔
    ∃ vs, List.Forall₂ (fun op v => op.toJson = .ok v) m.operations vs ∧ .array vs = v := by
  simp only [toJson, bind_eq_ok_iff, operationsToJson_eq, mapM_eq_ok_iff, pure_eq_ok_iff]

theorem Tag.listToJson_eq_ok_iff {tags : List Tag} {v : Json} : listToJson tags = .ok v ↔
    ∃ vs, List.Forall₂ (fun t v => t.toJson = .ok v) tags vs ∧ .array vs = v := by
  simp only [listToJson, bind_eq_ok_iff, mapM_eq_ok_iff, pure_eq_ok_iff]

theorem Program.toJson_eq_ok_iff {p : Program} {v : Json} : p.toJson = .ok v ↔
    ∃ vs, List.Forall₂ (fun m v => m.toJson = .ok v) p.moments vs ∧
      ∃ tags, Tag.listToJson p.tags = .ok tags ∧
        .object [("moments", .array vs), ("tags", tags)] = v := by
  simp only [toJson, taggedToJson, bind_eq_ok_iff, momentsToJson_eq, mapM_eq_ok_iff,
    pure_eq_ok_iff]

theorem Action.toJson_call (c : Call) : (Action.call c).toJson = (do
    let program ← c.program.toJson
    return .variant "SubProgram" (.object (("program", program) :: c.settings.members))) := by
  obtain ⟨⟨moments, tags⟩, settings⟩ := c
  rw [Action.toJson, Program.toJson, bind_assoc]

theorem Action.toJson_call_eq_ok_iff {c : Call} {v : Json} : (Action.call c).toJson = .ok v ↔
    ∃ program, c.program.toJson = .ok program ∧
      .variant "SubProgram" (.object (("program", program) :: c.settings.members)) = v := by
  simp only [toJson_call, bind_eq_ok_iff, pure_eq_ok_iff]

theorem Action.toJson_guarded_eq_ok_iff {op : Operation} {conditions : List Condition} {v : Json} :
    (Action.guarded op conditions).toJson = .ok v ↔ ∃ operation, op.toJson = .ok operation ∧
      .variant "Controlled" (.object
        [("operation", operation), ("conditions", .ofList Condition.toJson conditions)]) = v := by
  simp only [toJson, bind_eq_ok_iff, pure_eq_ok_iff]

theorem Operation.toJson_eq_ok_iff {action : Action} {qubits : List Qubit} {tags : List Tag}
    {v : Json} : (Operation.mk action qubits tags).toJson = .ok v ↔
      ∃ kind, action.toJson = .ok kind ∧ ∃ written, Tag.listToJson tags = .ok written ∧
        .object ([("kind", kind), ("qubits", .ofList Qubit.toJson qubits)]
          ++ if tags.isEmpty then [] else [("tags", written)]) = v := by
  simp only [toJson, bind_eq_ok_iff, pure_eq_ok_iff]

/-! ## Everything without such tags is written -/

theorem Tag.exists_toJson {t : Tag} (h : t.isPersistable = true) : ∃ v, t.toJson = .ok v := by
  cases t with
  | name text => exact ⟨_, rfl⟩
  | int value => exact ⟨_, rfl⟩
  | attached value => exact absurd h (by simp [isPersistable])

theorem Tag.exists_listToJson {tags : List Tag} (h : ∀ t ∈ tags, t.isPersistable = true) :
    ∃ v, listToJson tags = .ok v := by
  obtain ⟨vs, hvs⟩ := exists_forall₂ fun t ht => exists_toJson (h t ht)
  exact ⟨_, listToJson_eq_ok_iff.2 ⟨vs, hvs, rfl⟩⟩

theorem Program.exists_toJson_of {p : Program}
    (hops : ∀ op ∈ p.operations, ∃ v, op.toJson = .ok v)
    (htags : ∀ t ∈ p.tags, t.isPersistable = true) : ∃ v, p.toJson = .ok v := by
  have hmoments : ∀ m ∈ p.moments, ∃ v, m.toJson = .ok v := by
    intro m hm
    obtain ⟨vs, hvs⟩ := exists_forall₂ fun op hop => hops op (List.mem_flatMap.2 ⟨m, hm, hop⟩)
    exact ⟨_, Moment.toJson_eq_ok_iff.2 ⟨vs, hvs, rfl⟩⟩
  obtain ⟨vs, hvs⟩ := exists_forall₂ hmoments
  obtain ⟨tags, htags⟩ := Tag.exists_listToJson htags
  exact ⟨_, toJson_eq_ok_iff.2 ⟨vs, hvs, tags, htags, rfl⟩⟩

theorem Operation.exists_toJson_of {action : Action} {qubits : List Qubit} {tags : List Tag}
    (haction : ∃ v, action.toJson = .ok v) (htags : ∀ t ∈ tags, t.isPersistable = true) :
    ∃ v, (Operation.mk action qubits tags).toJson = .ok v := by
  obtain ⟨kind, hkind⟩ := haction
  obtain ⟨written, hwritten⟩ := Tag.exists_listToJson htags
  exact ⟨_, toJson_eq_ok_iff.2 ⟨kind, hkind, written, hwritten, rfl⟩⟩

theorem Operation.exists_toJson {op : Operation}
    (h : ∀ t ∈ op.tagsWithin, t.isPersistable = true) : ∃ v, op.toJson = .ok v := by
  induction op using Operation.nestingInduction with
  | gate g qubits tags =>
    rw [tagsWithin_gate] at h
    exact exists_toJson_of ⟨_, rfl⟩ h
  | measure key qubits tags =>
    rw [tagsWithin_measure] at h
    exact exists_toJson_of ⟨_, rfl⟩ h
  | reset qubits tags =>
    rw [tagsWithin_reset] at h
    exact exists_toJson_of ⟨_, rfl⟩ h
  | call c qubits tags ih =>
    rw [tagsWithin_call, List.forall_mem_append, Program.tagsWithin, List.forall_mem_append,
      Program.flatMap_parts] at h
    obtain ⟨htags, hprogramTags, hinside⟩ := h
    refine exists_toJson_of ?_ htags
    obtain ⟨program, hprogram⟩ := Program.exists_toJson_of (p := c.program) (fun op hop =>
      ih op hop fun t ht => hinside t (List.mem_flatMap.2 ⟨op, hop, ht⟩)) hprogramTags
    exact ⟨_, Action.toJson_call_eq_ok_iff.2 ⟨program, hprogram, rfl⟩⟩
  | guarded op conditions qubits tags ih =>
    rw [tagsWithin_guarded, List.forall_mem_append] at h
    obtain ⟨operation, hoperation⟩ := ih h.2
    exact exists_toJson_of
      ⟨_, Action.toJson_guarded_eq_ok_iff.2 ⟨operation, hoperation, rfl⟩⟩ h.1

/-- **A program whose tags have a persisted form is written.** -/
theorem Program.exists_toJson {p : Program} (h : ∀ t ∈ p.tagsWithin, t.isPersistable = true) :
    ∃ v, p.toJson = .ok v := by
  rw [tagsWithin, List.forall_mem_append, flatMap_parts] at h
  refine exists_toJson_of (fun op hop => Operation.exists_toJson fun t ht => ?_) h.1
  exact h.2 t (List.mem_flatMap.2 ⟨op, hop, ht⟩)

end QuantumProgram
