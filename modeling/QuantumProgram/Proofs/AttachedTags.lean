/-
  QuantumProgram — programs that are not persisted.

  A program is refused for its attached tags only, those of the operations that it
  guards or calls included.  The search looks at the own tags of an operation
  before those inside it, the writer after them: both come to the same tags
  (`Operation.tagsAsWritten_perm`), in different orders, so that nothing is left
  for the writer to refuse after the search.
-/
import QuantumProgram.Proofs.Loading

namespace QuantumProgram

/-! ## Tags at any depth -/

/-- The tag is one of the operation's own, or of what it guards, or of the program
    that it calls, at any depth. -/
inductive Operation.Bears : Operation → Tag → Prop
  | own {op : Operation} {t : Tag} (h : t ∈ op.tags) : Bears op t
  | guarded {op : Operation} {conditions : List Condition} {qubits : List Qubit}
    {tags : List Tag} {t : Tag} (h : Bears op t) : Bears ⟨.guarded op conditions, qubits, tags⟩ t
  | program {c : Call} {qubits : List Qubit} {tags : List Tag} {t : Tag}
    (h : t ∈ c.program.tags) : Bears ⟨.call c, qubits, tags⟩ t
  | called {c : Call} {qubits : List Qubit} {tags : List Tag} {t : Tag} {op : Operation}
    (hop : op ∈ c.program.operations) (h : Bears op t) : Bears ⟨.call c, qubits, tags⟩ t

/-- The tag is one of the program's own, or of an operation in it, at any depth. -/
def Program.Bears (p : Program) (t : Tag) : Prop :=
  t ∈ p.tags ∨ ∃ op ∈ p.operations, op.Bears t

theorem Program.tagsWithin_eq (p : Program) :
    p.tagsWithin = p.tags ++ p.operations.flatMap Operation.tagsWithin := by
  rw [tagsWithin, flatMap_parts]
  rfl

theorem Operation.tagsWithin_eq (op : Operation) : op.tagsWithin = op.tags ++
    match op.action with
    | .call c => c.program.tagsWithin
    | .guarded inner _ => inner.tagsWithin
    | .gate _ | .measure _ | .reset => [] := by
  obtain ⟨g | key | _ | c | ⟨inner, conditions⟩, qubits, tags⟩ := op
  · rw [tagsWithin_gate, List.append_nil]
  · rw [tagsWithin_measure, List.append_nil]
  · rw [tagsWithin_reset, List.append_nil]
  · exact tagsWithin_call c qubits tags
  · exact tagsWithin_guarded inner conditions qubits tags

theorem Operation.mem_tagsWithin_iff {op : Operation} {t : Tag} :
    t ∈ op.tagsWithin ↔ op.Bears t := by
  constructor
  · intro h
    -- by what the operation does: the list and `Bears` have the same cases
    induction op using Operation.nestingInduction with
    | gate g qubits tags => exact .own (by rwa [tagsWithin_gate] at h)
    | measure key qubits tags => exact .own (by rwa [tagsWithin_measure] at h)
    | reset qubits tags => exact .own (by rwa [tagsWithin_reset] at h)
    | call c qubits tags ih =>
      rw [tagsWithin_call, Program.tagsWithin_eq, List.mem_append, List.mem_append,
        List.mem_flatMap] at h
      rcases h with h | h | ⟨op, hop, h⟩
      · exact .own h
      · exact .program h
      · exact .called hop (ih op hop h)
    | guarded op conditions qubits tags ih =>
      rw [tagsWithin_guarded, List.mem_append] at h
      rcases h with h | h
      · exact .own h
      · exact .guarded (ih h)
  · intro h
    induction h with
    | own h =>
      rw [tagsWithin_eq]
      exact List.mem_append_left _ h
    | guarded _ ih =>
      rw [tagsWithin_guarded]
      exact List.mem_append_right _ ih
    | program h =>
      rw [tagsWithin_call, Program.tagsWithin_eq]
      exact List.mem_append_right _ (List.mem_append_left _ h)
    | called hop _ ih =>
      rw [tagsWithin_call, Program.tagsWithin_eq]
      exact List.mem_append_right _ (List.mem_append_right _ (List.mem_flatMap.2 ⟨_, hop, ih⟩))

theorem Program.mem_tagsWithin_iff {p : Program} {t : Tag} : t ∈ p.tagsWithin ↔ p.Bears t := by
  simp only [tagsWithin_eq, List.mem_append, List.mem_flatMap, Operation.mem_tagsWithin_iff, Bears]

/-! ## The order in which tags are written -/

mutual

/-- The tags of an operation as the writer comes to them: its own after those
    inside it. -/
def Operation.tagsAsWritten : Operation → List Tag
  | ⟨.gate _, _, tags⟩ => tags
  | ⟨.measure _, _, tags⟩ => tags
  | ⟨.reset, _, tags⟩ => tags
  | ⟨.call ⟨⟨moments, programTags⟩, _⟩, _, tags⟩ =>
    momentTagsAsWritten moments ++ programTags ++ tags
  | ⟨.guarded op _, _, tags⟩ => op.tagsAsWritten ++ tags
termination_by structural op => op

def momentTagsAsWritten : List Moment → List Tag
  | [] => []
  | ⟨ops⟩ :: rest => operationTagsAsWritten ops ++ momentTagsAsWritten rest
termination_by structural ms => ms

def operationTagsAsWritten : List Operation → List Tag
  | [] => []
  | op :: rest => op.tagsAsWritten ++ operationTagsAsWritten rest
termination_by structural ops => ops

end

/-- The tags of a program as the writer comes to them. -/
def Program.tagsAsWritten (p : Program) : List Tag :=
  p.operations.flatMap Operation.tagsAsWritten ++ p.tags

theorem operationTagsAsWritten_eq (ops : List Operation) :
    operationTagsAsWritten ops = ops.flatMap Operation.tagsAsWritten := by
  induction ops with
  | nil => rfl
  | cons op rest ih => rw [operationTagsAsWritten, ih, List.flatMap_cons]

theorem momentTagsAsWritten_eq (moments : List Moment) :
    momentTagsAsWritten moments =
      (moments.flatMap Moment.operations).flatMap Operation.tagsAsWritten := by
  induction moments with
  | nil => rfl
  | cons m rest ih =>
    obtain ⟨ops⟩ := m
    rw [momentTagsAsWritten, ih, operationTagsAsWritten_eq, List.flatMap_cons, List.flatMap_append]

theorem Operation.tagsAsWritten_call (c : Call) (qubits : List Qubit) (tags : List Tag) :
    (Operation.mk (.call c) qubits tags).tagsAsWritten = c.program.tagsAsWritten ++ tags := by
  obtain ⟨⟨moments, programTags⟩, settings⟩ := c
  rw [Operation.tagsAsWritten, momentTagsAsWritten_eq, Program.tagsAsWritten, Program.operations]

theorem Program.tagsAsWritten_perm_of {p : Program}
    (h : ∀ op ∈ p.operations, op.tagsAsWritten.Perm op.tagsWithin) :
    p.tagsAsWritten.Perm p.tagsWithin := by
  rw [tagsWithin_eq]
  exact List.perm_append_comm.trans ((List.Perm.flatMap_left _ h).append_left _)

/-- **The writer comes to the tags that the search looks at.** -/
theorem Operation.tagsAsWritten_perm (op : Operation) :
    op.tagsAsWritten.Perm op.tagsWithin := by
  induction op using Operation.nestingInduction with
  | gate g qubits tags => rw [tagsWithin_gate, tagsAsWritten]
  | measure key qubits tags => rw [tagsWithin_measure, tagsAsWritten]
  | reset qubits tags => rw [tagsWithin_reset, tagsAsWritten]
  | call c qubits tags ih =>
    rw [tagsWithin_call, tagsAsWritten_call]
    exact List.perm_append_comm.trans ((Program.tagsAsWritten_perm_of ih).append_left _)
  | guarded op conditions qubits tags ih =>
    rw [tagsWithin_guarded, tagsAsWritten]
    exact List.perm_append_comm.trans (ih.append_left _)

theorem Program.tagsAsWritten_perm (p : Program) : p.tagsAsWritten.Perm p.tagsWithin :=
  tagsAsWritten_perm_of fun op _ => op.tagsAsWritten_perm

/-! ## What the writer refuses -/

/-- What is attached as a tag. -/
def Tag.attachments : Tag → List Attachment
  | attached a => [a]
  | name _ | int _ => []

theorem Tag.failsWith_toJson (t : Tag) : FailsWith t.toJson t.attachments := by
  cases t with
  | name text => exact failsWith_ok _
  | int value => exact failsWith_ok _
  | attached a => simp [FailsWith, toJson, attachments]

theorem Tag.failsWith_listToJson (tags : List Tag) :
    FailsWith (listToJson tags) (tags.flatMap attachments) := by
  rw [← List.append_nil (tags.flatMap attachments)]
  exact (FailsWith.mapM fun t _ => t.failsWith_toJson).bind fun vs _ => failsWith_ok _

theorem Program.failsWith_toJson_of {p : Program}
    (h : ∀ op ∈ p.operations, FailsWith op.toJson (op.tagsAsWritten.flatMap Tag.attachments)) :
    FailsWith p.toJson (p.tagsAsWritten.flatMap Tag.attachments) := by
  have hmoment : ∀ m ∈ p.moments, FailsWith m.toJson
      (m.operations.flatMap fun op => op.tagsAsWritten.flatMap Tag.attachments) := by
    intro m hm
    rw [Moment.toJson, operationsToJson_eq, ← List.append_nil (m.operations.flatMap _)]
    exact (FailsWith.mapM fun op hop => h op (List.mem_flatMap.2 ⟨m, hm, hop⟩)).bind
      fun vs _ => failsWith_ok _
  rw [tagsAsWritten, List.flatMap_append, operations, List.flatMap_assoc, List.flatMap_assoc,
    toJson, momentsToJson_eq]
  refine (FailsWith.mapM hmoment).bind fun moments _ => ?_
  rw [taggedToJson, ← List.append_nil (p.tags.flatMap _)]
  exact (Tag.failsWith_listToJson p.tags).bind fun tags _ => failsWith_ok _

theorem Operation.failsWith_toJson_of {action : Action} {qubits : List Qubit} {tags : List Tag}
    {inside : List Attachment} (h : FailsWith action.toJson inside) :
    FailsWith (Operation.mk action qubits tags).toJson (inside ++ tags.flatMap Tag.attachments) := by
  rw [Operation.toJson, ← List.append_nil (tags.flatMap _)]
  exact h.bind fun kind _ => (Tag.failsWith_listToJson tags).bind fun written _ => failsWith_ok _

theorem Operation.failsWith_toJson (op : Operation) :
    FailsWith op.toJson (op.tagsAsWritten.flatMap Tag.attachments) := by
  induction op using Operation.nestingInduction with
  | gate g qubits tags =>
    have hgate : FailsWith (Action.gate g).toJson [] := failsWith_ok _
    exact failsWith_toJson_of hgate
  | measure key qubits tags =>
    have hmeasure : FailsWith (Action.measure key).toJson [] := failsWith_ok _
    exact failsWith_toJson_of hmeasure
  | reset qubits tags =>
    have hreset : FailsWith Action.reset.toJson [] := failsWith_ok _
    exact failsWith_toJson_of hreset
  | call c qubits tags ih =>
    rw [tagsAsWritten_call, List.flatMap_append]
    refine failsWith_toJson_of ?_
    rw [Action.toJson_call, ← List.append_nil (c.program.tagsAsWritten.flatMap _)]
    exact (Program.failsWith_toJson_of ih).bind fun program _ => failsWith_ok _
  | guarded op conditions qubits tags ih =>
    rw [tagsAsWritten, List.flatMap_append]
    refine failsWith_toJson_of ?_
    rw [Action.toJson, ← List.append_nil (op.tagsAsWritten.flatMap _)]
    exact ih.bind fun operation _ => failsWith_ok _

/-- **The writer refuses the first attached tag in its own order.** -/
theorem Program.failsWith_toJson (p : Program) :
    FailsWith p.toJson (p.tagsAsWritten.flatMap Tag.attachments) :=
  failsWith_toJson_of fun op _ => op.failsWith_toJson

/-! ## What is refused before anything is written -/

theorem Tag.isPersistable_eq_false_iff {t : Tag} :
    t.isPersistable = false ↔ ∃ a, t = .attached a := by
  cases t <;> simp [isPersistable]

namespace Program

variable {p : Program}

theorem exists_persist? (h : p.firstAttachment? = none) :
    ∃ v, p.toJson = .ok v ∧ p.persist? = .ok v.render := by
  have htags : ∀ t ∈ p.tagsWithin, t.isPersistable = true := by
    rwa [firstAttachment?_eq, firstAttached?_eq_none_iff] at h
  obtain ⟨v, hv⟩ := exists_toJson htags
  exact ⟨v, hv, persistIn?_eq_ok_iff.2 ⟨htags, v, hv, rfl⟩⟩

/-- Only the search refuses a program. -/
theorem persist?_eq_error_iff {e : PersistError} : p.persist? = .error e ↔
    ∃ t, p.firstAttachment? = some t ∧ e = .attachedTag t := by
  cases h : p.firstAttachment? with
  | some u => simp [persist?, persistIn?, h, eq_comm]
  | none =>
    obtain ⟨v, -, hv⟩ := exists_persist? h
    simp [hv]

theorem firstAttachment?_eq_none_iff :
    p.firstAttachment? = none ↔ ∀ a, ¬ p.Bears (.attached a) := by
  rw [firstAttachment?_eq, firstAttached?_eq_none_iff]
  simp only [mem_tagsWithin_iff]
  constructor
  · intro h a ha
    exact absurd (h _ ha) (by simp [Tag.isPersistable])
  · intro h t ht
    by_contra hnot
    obtain ⟨a, rfl⟩ := Tag.isPersistable_eq_false_iff.1 (Bool.eq_false_of_not_eq_true hnot)
    exact h a ht

/-- The search finds the first tag inside the program that has no persisted form. -/
theorem firstAttachment?_eq_some_iff {t : Tag} : p.firstAttachment? = some t ↔
    ∃ a before after, t = .attached a ∧ p.tagsWithin = before ++ .attached a :: after ∧
      ∀ u ∈ before, u.isPersistable = true := by
  rw [firstAttachment?_eq, firstAttached?, List.find?_eq_some_iff_append]
  constructor
  · rintro ⟨ht, before, after, heq, hbefore⟩
    obtain ⟨a, rfl⟩ := Tag.isPersistable_eq_false_iff.1 (by simpa using ht)
    exact ⟨a, before, after, rfl, heq, fun u hu => by simpa using hbefore u hu⟩
  · rintro ⟨a, before, after, rfl, heq, hbefore⟩
    exact ⟨rfl, before, after, heq, fun u hu => by simp [hbefore u hu]⟩

/-- **A program is refused for its attached tags, and for nothing else.**  It is
    refused exactly if it has one, on itself, on an operation, or inside what an
    operation guards or calls.  The first such tag is named, the program's tags
    before those of its operations and the own tags of an operation before those
    inside it.  Every other program is written: the writer refuses the same tags,
    in an order of its own, and never comes to refuse one. -/
theorem persist?_refuses_attached (p : Program) :
    ((∃ e, p.persist? = .error e) ↔ ∃ a, p.Bears (.attached a)) ∧
    (∀ e, p.persist? = .error e ↔ ∃ a before after, e = .attachedTag (.attached a) ∧
      p.tagsWithin = before ++ .attached a :: after ∧ ∀ u ∈ before, u.isPersistable = true) ∧
    (p.tagsWithin = p.tags ++ p.operations.flatMap Operation.tagsWithin ∧
      ∀ op : Operation, op.tagsWithin = op.tags ++
        match op.action with
        | .call c => c.program.tagsWithin
        | .guarded inner _ => inner.tagsWithin
        | .gate _ | .measure _ | .reset => []) ∧
    ((∀ a, ¬ p.Bears (.attached a)) → ∃ v, p.toJson = .ok v ∧ p.persist? = .ok v.render) ∧
    (∀ a, p.persist? ≠ .error (.unwritable a)) ∧
    (∀ a, p.toJson = .error a ↔ (p.tagsAsWritten.flatMap Tag.attachments).head? = some a) ∧
    p.tagsAsWritten.Perm p.tagsWithin := by
  refine ⟨?_, fun e => ?_, ⟨p.tagsWithin_eq, Operation.tagsWithin_eq⟩, fun h => ?_, fun a h => ?_,
    p.failsWith_toJson, p.tagsAsWritten_perm⟩
  · have hsearch : (∃ e, p.persist? = .error e) ↔ p.firstAttachment? ≠ none := by
      simp only [persist?_eq_error_iff, Option.ne_none_iff_exists']
      rw [exists_comm]
      simp
    rw [hsearch, ne_eq, firstAttachment?_eq_none_iff]
    exact not_forall_not
  · simp only [persist?_eq_error_iff, firstAttachment?_eq_some_iff]
    constructor
    · rintro ⟨_, ⟨a, before, after, rfl, heq, hbefore⟩, rfl⟩
      exact ⟨a, before, after, rfl, heq, hbefore⟩
    · rintro ⟨a, before, after, rfl, heq, hbefore⟩
      exact ⟨_, ⟨a, before, after, rfl, heq, hbefore⟩, rfl⟩
  · exact exists_persist? (firstAttachment?_eq_none_iff.2 h)
  · obtain ⟨t, -, heq⟩ := persist?_eq_error_iff.1 h
    exact absurd heq nofun

/-- The note on a guarded operation is named by the search, and the one on the
    operation inside by the writer. -/
example :
    let p : Program := ⟨[⟨[⟨.guarded ⟨.reset, [.line 0], [.attached (.note "inside")]⟩ [.key "m"],
      [.line 0], [.attached (.note "outside")]⟩]⟩], []⟩
    p.persist? = .error (.attachedTag (.attached (.note "outside"))) ∧
      p.toJson = .error (.note "inside") :=
  ⟨rfl, rfl⟩

end Program

end QuantumProgram
