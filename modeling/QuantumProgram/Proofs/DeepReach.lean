/-
  QuantumProgram — how far the sort reaches in a deep context.

  From a program the sort enters its plain calls without an ignored tag, from
  their programs the plain calls there, and so on.  Every call that is entered
  gets the program that the sort alone makes of its own; everything else stays
  as it is (`Pass.sort_deep_reaches`).  In particular a guarded call stays, with
  or without an ignored tag, though its program may not be sorted
  (`Pass.sort_misses_guarded_call`).
-/
import QuantumProgram.Proofs.Built

namespace QuantumProgram

/-! ## Operations that are reached -/

/-- The operation is a plain call without an ignored tag. -/
def Operation.Enters (ignored : List Tag) (op : Operation) (c : Call) : Prop :=
  op.call? = some c ∧ op.hasAnyTag ignored = false

/-- The operation is one of the program, or of the program of a call that is
    entered from it. -/
inductive Program.Reaches (ignored : List Tag) (p : Program) : Operation → Prop
  | here {op} (hop : op ∈ p.operations) : Reaches ignored p op
  | inside {op c inner} (hop : Reaches ignored p op) (henters : op.Enters ignored c)
      (hinner : inner ∈ c.program.operations) : Reaches ignored p inner

theorem Operation.WellFormed.entered {ignored : List Tag} {op : Operation} {c : Call}
    (h : op.WellFormed) (henters : op.Enters ignored c) :
    op = ⟨.call c, c.qubits, op.tags⟩ ∧ c.WellFormed := by
  obtain ⟨hcall, -⟩ := henters
  cases h with
  | gate | measure | reset | guarded => cases hcall
  | call program valid =>
    obtain rfl := Option.some.inj hcall
    exact ⟨rfl, program, valid⟩

theorem Program.Reaches.wellFormed {ignored : List Tag} {p : Program} {op : Operation}
    (hp : p.WellFormed) (h : p.Reaches ignored op) : op.WellFormed := by
  induction h with
  | here hop => exact hp.operations _ hop
  | inside _ henters hinner ih => exact (ih.entered henters).2.program.operations _ hinner

/-! ## Images of operations that are reached -/

section
variable {commutes : Commutation} {ignored : List Tag}

/-- A call that is entered gets another program and keeps everything else. -/
theorem Operation.WellFormed.deepSorted_eq_of_enters {op : Operation} {c : Call}
    (h : op.WellFormed) (henters : op.Enters ignored c) :
    op.deepSorted commutes ignored =
      ⟨.call ⟨c.program.deepSorted commutes ignored, c.settings⟩, op.qubits, op.tags⟩ := by
  have hlike : (op.deepSorted commutes ignored).Alike op := deepSorted_alike h
  obtain ⟨hop, -⟩ := h.entered henters
  have hsorted : op.deepSorted commutes ignored = (Operation.ofCall
      ⟨c.program.deepSorted commutes ignored, c.settings⟩).withTags op.tags := by
    rw [hop, deepSorted_call, if_neg]
    exact Bool.not_eq_true _ ▸ henters.2
  rw [← hlike.qubits, hsorted]
  rfl

/-- What is not entered stays. -/
theorem Operation.deepSorted_eq_self {op : Operation} (h : ∀ c, ¬ op.Enters ignored c) :
    op.deepSorted commutes ignored = op := by
  obtain ⟨action, qubits, tags⟩ := op
  cases action with
  | gate | measure | reset | guarded => rw [deepSorted]
  | call c =>
    rw [deepSorted_call, if_pos]
    by_contra htags
    exact h c ⟨rfl, Bool.not_eq_true _ ▸ htags⟩

/-- A call is entered exactly if its image is, with the sorted program. -/
theorem Operation.WellFormed.deepSorted_enters_iff {op : Operation} (h : op.WellFormed) {d : Call} :
    (op.deepSorted commutes ignored).Enters ignored d ↔
      ∃ c, op.Enters ignored c ∧ d = ⟨c.program.deepSorted commutes ignored, c.settings⟩ := by
  constructor
  · intro henters
    by_cases hop : ∃ c, op.Enters ignored c
    · obtain ⟨c, hc⟩ := hop
      rw [h.deepSorted_eq_of_enters hc] at henters
      exact ⟨c, hc, (Option.some.inj henters.1).symm⟩
    · rw [deepSorted_eq_self (not_exists.1 hop)] at henters
      exact absurd ⟨d, henters⟩ hop
  · rintro ⟨c, hc, rfl⟩
    rw [h.deepSorted_eq_of_enters hc]
    exact ⟨rfl, hc.2⟩

theorem Program.mem_operations_deepSorted {p : Program} {op : Operation} :
    op ∈ (p.deepSorted commutes ignored).operations ↔
      ∃ o ∈ p.operations, o.deepSorted commutes ignored = op := by
  rw [p.operations_deepSorted_perm.mem_iff, List.mem_map]

/-- **What the sorted program reaches** are the images of what the program
    reaches. -/
theorem Program.reaches_deepSorted_iff {p : Program} (hp : p.WellFormed) {op : Operation} :
    (p.deepSorted commutes ignored).Reaches ignored op ↔
      ∃ o, p.Reaches ignored o ∧ o.deepSorted commutes ignored = op := by
  constructor
  · intro h
    induction h with
    | here hop =>
      obtain ⟨o, ho, himage⟩ := mem_operations_deepSorted.1 hop
      exact ⟨o, .here ho, himage⟩
    | inside _ henters hinner ih =>
      obtain ⟨o, ho, rfl⟩ := ih
      obtain ⟨c, hc, rfl⟩ := (ho.wellFormed hp).deepSorted_enters_iff.1 henters
      obtain ⟨o', ho', himage⟩ := mem_operations_deepSorted.1 hinner
      exact ⟨o', .inside ho hc ho', himage⟩
  · rintro ⟨o, ho, rfl⟩
    induction ho with
    | here hop => exact .here (mem_operations_deepSorted.2 ⟨_, hop, rfl⟩)
    | inside hop henters hinner ih =>
      exact .inside ih ((hop.wellFormed hp).deepSorted_enters_iff.2 ⟨_, henters, rfl⟩)
        (mem_operations_deepSorted.2 ⟨_, hinner, rfl⟩)

end

namespace Pass

/-- **The sort reaches every plain call.**  In a deep context the sort returns a
    program with an image of each operation, and so on in every call that is
    entered: the image has the program that the same sort makes of the called
    program.  What is not entered, since it has an ignored tag or is no plain
    call, is its own image. -/
theorem sort_deep_reaches {p : Program} (hp : Built (.program p)) (commutes : Commutation)
    {context : PassContext} (hdeep : context.deep = true) :
    ∃ q context' image, ((sort commutes).apply p).run.run context = (.ok q, context') ∧
      q.tags = p.tags ∧ q.operations.Perm (p.operations.map image) ∧
      (∀ op, q.Reaches context.ignoredTags op ↔
        ∃ o, p.Reaches context.ignoredTags o ∧ image o = op) ∧
      ∀ op, p.Reaches context.ignoredTags op →
        (∀ c, op.Enters context.ignoredTags c → ∃ r context'',
          ((sort commutes).apply c.program).run.run context = (.ok r, context'') ∧
          image op = ⟨.call ⟨r, c.settings⟩, op.qubits, op.tags⟩) ∧
        ((∀ c, ¬ op.Enters context.ignoredTags c) → image op = op) := by
  have hp' : p.WellFormed := hp.wellFormed
  have happly (r : Program) (hr : r.WellFormed) : ∃ context',
      ((sort commutes).apply r).run.run context =
        (.ok (r.deepSorted commutes context.ignoredTags), context') := by
    have h := apply_sort commutes hr context
    rwa [if_pos hdeep] at h
  obtain ⟨context', hrun⟩ := happly p hp'
  refine ⟨_, context', _, hrun, Program.tags_sorted _, p.operations_deepSorted_perm,
    fun op => Program.reaches_deepSorted_iff hp', fun op hop => ⟨fun c henters => ?_, ?_⟩⟩
  · have hwf : op.WellFormed := hop.wellFormed hp'
    obtain ⟨context'', hrun'⟩ := happly c.program (hwf.entered henters).2.program
    exact ⟨_, context'', hrun', hwf.deepSorted_eq_of_enters henters⟩
  · exact Operation.deepSorted_eq_self

/-! ## A guarded call -/

/-- Two gates that commute, the one with the higher line first. -/
def unsortedPair : Program :=
  ⟨[⟨[⟨.gate (.standard .cz), [.line 2, .line 1], []⟩]⟩,
    ⟨[⟨.gate (.standard .cz), [.line 0, .line 1], []⟩]⟩], []⟩

/-- A program that only calls the two gates, under conditions. -/
def callingPair (conditions : List Condition) : Program :=
  ⟨[⟨[(Operation.ofCall ⟨unsortedPair, {}⟩).withConditions conditions]⟩], []⟩

theorem built_unsortedPair : Built (.program unsortedPair) := by
  have hcz (a b : Qubit) (h : [a, b].Nodup) :
      Built (.moment ⟨[⟨.gate (.standard .cz), [a, b], []⟩]⟩) :=
    .ofOperations (List.forall_mem_singleton.2
      (.gate (Operation.ofGate_eq_ok_iff.2 ⟨rfl, h, rfl⟩))) rfl
  exact .ofMoments (List.forall_mem_cons.2 ⟨hcz _ _ (by decide),
    List.forall_mem_singleton.2 (hcz _ _ (by decide))⟩) []

theorem built_callingPair (conditions : List Condition) :
    Built (.program (callingPair conditions)) := by
  have hcall : Built (.call ⟨unsortedPair, {}⟩) :=
    .build (d := { program := unsortedPair }) built_unsortedPair rfl
  have hmoment : Built
      (.moment ⟨[(Operation.ofCall ⟨unsortedPair, {}⟩).withConditions conditions]⟩) :=
    .ofOperations (List.forall_mem_singleton.2 (hcall.call.withConditions conditions))
      (Moment.ofOperations_eq_ok (List.pairwise_singleton _ _))
  exact .ofMoments (List.forall_mem_singleton.2 hmoment) []

/-- Without conditions the call is entered. -/
theorem sort_deep_reaches_callingPair :
    Built (.program (callingPair [])) ∧ ∃ q context' r context'',
      ((sort ruleCommutes).apply (callingPair [])).run.run { deep := true } = (.ok q, context') ∧
      ((sort ruleCommutes).apply unsortedPair).run.run { deep := true } = (.ok r, context'') ∧
      q.Reaches [] ⟨.call ⟨r, {}⟩, [.line 0, .line 1, .line 2], []⟩ := by
  have hdeep : ({ deep := true } : PassContext).deep = true := rfl
  obtain ⟨q, context', image, hrun, -, -, hreaches, himages⟩ :=
    sort_deep_reaches (built_callingPair []) ruleCommutes hdeep
  have hop : (callingPair []).Reaches [] (.ofCall ⟨unsortedPair, {}⟩) := .here List.mem_cons_self
  obtain ⟨r, context'', hrun', himage⟩ := (himages _ hop).1 _ ⟨rfl, rfl⟩
  exact ⟨built_callingPair [], q, context', r, context'', hrun, hrun',
    (hreaches _).2 ⟨_, hop, himage⟩⟩

/-- Under a condition it stays as it is, though the sort changes its program. -/
theorem sort_misses_guarded_call :
    Built (.program (callingPair [.key "m"])) ∧
    (∃ q context', ((sort ruleCommutes).apply (callingPair [.key "m"])).run.run { deep := true } =
      (.ok q, context') ∧ q.operations = (callingPair [.key "m"]).operations) ∧
    ∃ r context', ((sort ruleCommutes).apply unsortedPair).run.run { deep := true } =
      (.ok r, context') ∧
      r.operations.map Operation.qubits ≠ unsortedPair.operations.map Operation.qubits :=
  ⟨built_callingPair _, ⟨_, _, rfl, rfl⟩, _, _, rfl, by decide⟩

end Pass

end QuantumProgram
