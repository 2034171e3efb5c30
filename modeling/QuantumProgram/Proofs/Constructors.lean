/-
  QuantumProgram — operations that the constructors make, and those that are
  read.

  The constructors give a reset one qubit, put a guard with conditions on the
  qubits of what it guards, and extend the conditions of a guarded operation
  without tags instead of guarding it again.  Together with the checks of
  `WellFormed` this is all that they see to (`Operation.constructed_iff`).
  Reading sees to the checks only: all well-formed operations are read, so that
  one that is read could have been constructed if and only if the rules hold in
  it, and a moment that is read may hold gates on one qubit under guards on
  different ones.
-/
import QuantumProgram.Proofs.RoundTrip

namespace QuantumProgram

namespace Operation

/-! ## The rules of the constructors -/

/-- A reset acts on one qubit.  A guard has conditions, acts on the qubits of
    what it guards, and guards no guarded operation without tags. -/
def Regular (op : Operation) : Prop :=
  match op.action with
  | .reset => op.qubits.length = 1
  | .guarded inner conditions => conditions ≠ [] ∧ op.qubits = inner.qubits ∧
      ∀ op' conditions', inner.action = .guarded op' conditions' → inner.tags ≠ []
  | _ => True

/-- The rules hold of the operation and of all operations inside it. -/
def RegularWithin (op : Operation) : Prop := ∀ part ∈ op.parts, part.Regular

section
variable {qubits : List Qubit} {tags : List Tag}

theorem regularWithin_gate {g : Gate} : RegularWithin ⟨.gate g, qubits, tags⟩ :=
  List.forall_mem_singleton.2 trivial

theorem regularWithin_measure {key : String} : RegularWithin ⟨.measure key, qubits, tags⟩ :=
  List.forall_mem_singleton.2 trivial

theorem regularWithin_reset : RegularWithin ⟨.reset, qubits, tags⟩ ↔ qubits.length = 1 :=
  List.forall_mem_singleton

theorem regularWithin_call {c : Call} : RegularWithin ⟨.call c, qubits, tags⟩ ↔
    ∀ op ∈ c.program.operations, op.RegularWithin := by
  rw [RegularWithin, parts_call, List.forall_mem_cons, Program.parts, List.forall_mem_flatMap]
  exact and_iff_right trivial

theorem regularWithin_guarded {inner : Operation} {conditions : List Condition} :
    RegularWithin ⟨.guarded inner conditions, qubits, tags⟩ ↔
      (conditions ≠ [] ∧ qubits = inner.qubits ∧
        ∀ op' conditions', inner.action = .guarded op' conditions' → inner.tags ≠ []) ∧
      inner.RegularWithin := by
  rw [RegularWithin, parts, List.forall_mem_cons]
  rfl

/-- The rules do not speak of the tags of the operation itself. -/
theorem RegularWithin.retagged {action : Action} {tags : List Tag}
    (h : RegularWithin ⟨action, qubits, tags⟩) (tags' : List Tag) :
    RegularWithin ⟨action, qubits, tags'⟩ := by
  cases action with
  | gate g => exact regularWithin_gate
  | measure key => exact regularWithin_measure
  | reset => exact regularWithin_reset.2 (regularWithin_reset.1 h)
  | call c => exact regularWithin_call.2 (regularWithin_call.1 h)
  | guarded inner conditions => exact regularWithin_guarded.2 (regularWithin_guarded.1 h)

end

/-! ## Constructed operations -/

/-- An operation that is made by the constructors and changed by the functions
    that change operations; a call is of a program of such operations. -/
inductive Constructed : Operation → Prop
  | gate {g qubits op} (h : ofGate g qubits = .ok op) : Constructed op
  | measure {key qubits op} (h : measure key qubits = .ok op) : Constructed op
  | reset (q) : Constructed (reset q)
  | call {d : CallDraft} {c}
      (moments : ∀ m ∈ d.program.moments, Moment.ofOperations m.operations = .ok m)
      (operations : ∀ op ∈ d.program.operations, Constructed op) (h : d.build = .ok c) :
      Constructed (ofCall c)
  | withTags {op} (hop : Constructed op) (tags) : Constructed (op.withTags tags)
  | untagged {op} (hop : Constructed op) : Constructed op.untagged
  | withConditions {op} (hop : Constructed op) (conditions) :
      Constructed (op.withConditions conditions)
  | inverse {op op'} (hop : Constructed op) (h : op.inverse? = some op') : Constructed op'

/-- Guards are put around an operation that is no guarded one without tags. -/
theorem withConditions_eq {op : Operation} {conditions : List Condition} (h : conditions ≠ [])
    (hop : ∀ op' conditions', op.action = .guarded op' conditions' → op.tags ≠ []) :
    op.withConditions conditions = ⟨.guarded op conditions, op.qubits, []⟩ := by
  have hempty : ¬ conditions.isEmpty = true := by rwa [List.isEmpty_iff]
  unfold withConditions
  rw [if_neg hempty]
  split
  · next inner existing qubits => exact absurd rfl (hop inner existing rfl)
  · rfl

theorem RegularWithin.withConditions {op : Operation} (h : op.RegularWithin)
    (conditions : List Condition) : (op.withConditions conditions).RegularWithin := by
  unfold Operation.withConditions
  split_ifs with hempty
  · exact h
  · have hconditions : conditions ≠ [] := by rwa [List.isEmpty_iff] at hempty
    split
    · next inner existing qubits =>
      obtain ⟨⟨_, hqubits, hflat⟩, hinner⟩ := regularWithin_guarded.1 h
      exact regularWithin_guarded.2
        ⟨⟨List.append_ne_nil_of_right_ne_nil _ hconditions, hqubits, hflat⟩, hinner⟩
    · next hother =>
      refine regularWithin_guarded.2 ⟨⟨hconditions, rfl, fun inner existing haction => ?_⟩, h⟩
      obtain ⟨action, qubits, tags⟩ := op
      rintro rfl
      obtain rfl : action = .guarded inner existing := haction
      exact hother inner existing qubits rfl

theorem RegularWithin.inverse? {op op' : Operation} (h : op.RegularWithin)
    (hinv : op.inverse? = some op') : op'.RegularWithin := by
  obtain ⟨action, qubits, tags⟩ := op
  cases action with
  | gate g =>
    obtain ⟨g', -, rfl⟩ := Option.map_eq_some_iff.1 hinv
    exact regularWithin_gate
  | call c =>
    rw [inverse?_call] at hinv
    split at hinv
    · obtain rfl := Option.some.inj hinv
      have hops : ∀ op ∈ c.program.operations, op.RegularWithin := regularWithin_call.1 h
      exact regularWithin_call.2 hops
    · exact absurd hinv (by simp)
  | measure key => exact absurd hinv (by simp [Operation.inverse?])
  | reset => exact absurd hinv (by simp [Operation.inverse?])
  | guarded inner conditions => exact absurd hinv (by simp [Operation.inverse?])

theorem Constructed.wellFormed {op : Operation} (h : op.Constructed) : op.WellFormed := by
  induction h with
  | gate h => exact wellFormed_ofGate h
  | measure h => exact wellFormed_measure h
  | reset q => exact wellFormed_reset q
  | @call d c hmoments _ h hops =>
    have hprogram : d.program.WellFormed :=
      ⟨fun m hm => (Moment.ofOperations_eq_ok_iff.1 (hmoments m hm)).1, hops⟩
    exact wellFormed_ofCall (.checked (c := d.call) hprogram h)
  | withTags _ tags hop => exact hop.withTags tags
  | untagged _ hop => exact hop.untagged
  | withConditions _ conditions hop => exact hop.withConditions conditions
  | inverse _ h hop => exact hop.inverse? h

theorem Constructed.regularWithin {op : Operation} (h : op.Constructed) : op.RegularWithin := by
  induction h with
  | gate h =>
    obtain ⟨-, -, rfl⟩ := ofGate_eq_ok_iff.1 h
    exact regularWithin_gate
  | measure h =>
    obtain ⟨-, rfl⟩ := measure_eq_ok_iff.1 h
    exact regularWithin_measure
  | reset q => exact regularWithin_reset.2 rfl
  | @call d c _ _ h hops =>
    obtain ⟨-, rfl⟩ := Call.checked_eq_ok_iff.1 h
    exact regularWithin_call.2 hops
  | @withTags op _ tags hop =>
    obtain ⟨action, qubits, existing⟩ := op
    exact hop.retagged _
  | @untagged op _ hop =>
    obtain ⟨action, qubits, existing⟩ := op
    exact hop.retagged _
  | withConditions _ conditions hop => exact hop.withConditions conditions
  | inverse _ h hop => exact hop.inverse? h

/-- An operation that passes the checks and keeps the rules is constructed from
    the inside out. -/
theorem WellFormed.constructed {op : Operation} (h : op.WellFormed) (hrules : op.RegularWithin) :
    op.Constructed := by
  induction op using Operation.nestingInduction with
  | gate g qubits tags =>
    cases h with
    | gate count distinct =>
      exact .withTags (.gate (ofGate_eq_ok_iff.2 ⟨count, distinct, rfl⟩)) tags
  | measure key qubits tags =>
    cases h with
    | measure distinct => exact .withTags (.measure (measure_eq_ok_iff.2 ⟨distinct, rfl⟩)) tags
  | reset qubits tags =>
    obtain ⟨q, rfl⟩ := List.length_eq_one_iff.1 (regularWithin_reset.1 hrules)
    exact .withTags (.reset q) tags
  | call c qubits tags ih =>
    have hc : c.WellFormed := h.callee
    have hops := regularWithin_call.1 hrules
    cases h with
    | call =>
      refine .withTags (.call (d := c.draft) (fun m hm => ?_) (fun op hop => ?_)
        (Call.build_draft hc)) tags
      · obtain ⟨ops⟩ := m
        exact Moment.ofOperations_eq_ok (hc.program.apart _ hm)
      · exact ih op hop (hc.program.operations op hop) (hops op hop)
  | guarded inner conditions qubits tags ih =>
    obtain ⟨⟨hconditions, rfl, hflat⟩, hinner⟩ := regularWithin_guarded.1 hrules
    have hconstructed := (ih h.guardedInner hinner).withConditions conditions |>.withTags tags
    rwa [withConditions_eq hconditions hflat] at hconstructed

/-- **The constructors make the well-formed operations that keep their rules.** -/
theorem constructed_iff {op : Operation} : op.Constructed ↔ op.WellFormed ∧ op.RegularWithin :=
  ⟨fun h => ⟨h.wellFormed, h.regularWithin⟩, fun h => h.1.constructed h.2⟩

/-! ## The qubits that are acted on -/

/-- The qubits that an operation acts on if its conditions hold. -/
def actedOn : Operation → List Qubit
  | ⟨.guarded inner _, _, _⟩ => inner.actedOn
  | ⟨_, qubits, _⟩ => qubits
termination_by structural op => op

theorem RegularWithin.actedOn_eq {op : Operation} (h : op.RegularWithin) :
    op.actedOn = op.qubits := by
  induction op using Operation.nestingInduction with
  | gate | measure | reset | call => rfl
  | guarded inner conditions qubits tags ih =>
    obtain ⟨⟨_, rfl, _⟩, hinner⟩ := regularWithin_guarded.1 h
    exact ih hinner

/-! ## Inside an operation -/

/-- The parts of a well-formed operation are well-formed. -/
theorem WellFormed.parts {op : Operation} (h : op.WellFormed) :
    ∀ part ∈ op.parts, part.WellFormed :=
  forall_parts (fun _ _ _ hcall => hcall.callee.program.operations)
    (fun _ _ _ _ hguarded => hguarded.guardedInner) h

/-- The moments of the program that an operation calls. -/
def calledMoments (op : Operation) : List Moment :=
  match op.action with
  | .call c => c.program.moments
  | _ => []

theorem WellFormed.calledMoments {op : Operation} (h : op.WellFormed) :
    ∀ m ∈ op.calledMoments, m.WellFormed := by
  cases h with
  | call program _ => exact Program.wellFormed_iff.1 program
  | gate | measure | reset | guarded => exact fun m hm => absurd hm List.not_mem_nil

theorem RegularWithin.calledMoments {op : Operation} (h : op.RegularWithin) :
    ∀ m ∈ op.calledMoments, ∀ inside ∈ m.operations, inside.RegularWithin := by
  obtain ⟨action, qubits, tags⟩ := op
  cases action with
  | call c =>
    intro m hm inside hinside
    exact regularWithin_call.1 h inside (List.mem_flatMap.2 ⟨m, hm, hinside⟩)
  | gate | measure | reset | guarded => exact fun m hm => absurd hm List.not_mem_nil

/-- All moments of the programs called in an operation, at any depth. -/
def momentsWithin (op : Operation) : List Moment := op.parts.flatMap calledMoments

end Operation

/-- All moments of a program at any depth. -/
def Program.momentsWithin (p : Program) : List Moment :=
  p.moments ++ p.operations.flatMap Operation.momentsWithin

/-- The operations of a moment share no qubit that they act on. -/
def Moment.Separate (m : Moment) : Prop :=
  m.operations.Pairwise fun a b => ∀ q ∈ a.actedOn, q ∉ b.actedOn

instance (m : Moment) : Decidable m.Separate :=
  inferInstanceAs (Decidable (m.operations.Pairwise fun a b => ∀ q ∈ a.actedOn, q ∉ b.actedOn))

/-- Where the rules hold, the qubits of the operations are those that they act on. -/
theorem Moment.WellFormed.separate {m : Moment} (h : m.WellFormed)
    (hrules : ∀ op ∈ m.operations, op.RegularWithin) : m.Separate := by
  refine h.apart.imp_of_mem fun {a b} ha hb hab => ?_
  rw [(hrules a ha).actedOn_eq, (hrules b hb).actedOn_eq]
  exact hab

theorem Operation.WellFormed.separate {op : Operation} (h : op.WellFormed)
    (hrules : op.RegularWithin) : ∀ m ∈ op.momentsWithin, m.Separate := by
  intro m hm
  obtain ⟨part, hpart, hm⟩ := List.mem_flatMap.1 hm
  have hpartRules : part.RegularWithin := fun inside hinside =>
    hrules inside (parts_subset hpart hinside)
  exact ((h.parts part hpart).calledMoments m hm).separate (hpartRules.calledMoments m hm)

theorem Program.WellFormed.separate {p : Program} (h : p.WellFormed)
    (hrules : ∀ op ∈ p.operations, op.RegularWithin) : ∀ m ∈ p.momentsWithin, m.Separate := by
  intro m hm
  obtain hm | hm := List.mem_append.1 hm
  · refine (wellFormed_iff.1 h m hm).separate fun op hop => ?_
    exact hrules op (List.mem_flatMap.2 ⟨m, hm, hop⟩)
  · obtain ⟨op, hop, hm⟩ := List.mem_flatMap.1 hm
    exact (h.operations op hop).separate (hrules op hop) m hm

/-! ## Reading -/

open Decoder (Reads)

theorem Operation.reads {op : Operation} (h : op.WellFormed)
    (hfloats : ∀ x ∈ op.floatsWithin, x.isFinite = true) {v : Json} (hv : op.toJson = .ok v) :
    Reads decoder op v :=
  .recursive (reads_unfolded h hfloats hv)

/-- A well-formed operation that can be written is read back, as programs are
    (`Program.reads`). -/
theorem Operation.exists_ofJson {op : Operation} (h : op.WellFormed)
    (htags : ∀ t ∈ op.tagsWithin, t.isPersistable = true)
    (hfloats : ∀ x ∈ op.floatsWithin, x.isFinite = true) :
    ∃ v, op.toJson = .ok v ∧ decoder.ofJson v = .ok op := by
  obtain ⟨v, hv⟩ := exists_toJson htags
  exact ⟨v, hv, (reads h hfloats hv).ofJson_eq⟩

theorem Moment.exists_ofJson {m : Moment} (h : m.WellFormed)
    (htags : ∀ op ∈ m.operations, ∀ t ∈ op.tagsWithin, t.isPersistable = true)
    (hfloats : ∀ op ∈ m.operations, ∀ x ∈ op.floatsWithin, x.isFinite = true) :
    ∃ v, m.toJson = .ok v ∧ decoder.ofJson v = .ok m := by
  obtain ⟨vs, hvs⟩ := exists_forall₂ fun op hop => Operation.exists_toJson (htags op hop)
  have hv : m.toJson = .ok (.array vs) := toJson_eq_ok_iff.2 ⟨vs, hvs, rfl⟩
  refine ⟨_, hv, (reads_of h hv fun op hop w hw _ => ?_).ofJson_eq⟩
  exact Operation.reads (h.operations op hop) (hfloats op hop) hw

/-- **What is read could have been constructed if and only if the rules hold in it.**
    Reading checks that an operation is well-formed, which leaves the rules open, and
    reads all well-formed operations that can be written.  Where the rules hold, the
    moments are disjoint also in the qubits that are acted on. -/
theorem decoded_constructed_iff (source : Source) (room : ℕ) (d : Document) :
    (∀ op, Operation.decoder source room d = .ok op → op.WellFormed ∧
      (op.Constructed ↔ ∀ part ∈ op.parts, part.Regular) ∧
      (op.Constructed → ∀ m ∈ op.momentsWithin, m.Separate)) ∧
    (∀ p, Program.decoder source room d = .ok p → p.WellFormed ∧
      ((∀ op ∈ p.operations, op.Constructed) ↔ ∀ part ∈ p.parts, part.Regular) ∧
      ((∀ op ∈ p.operations, op.Constructed) → ∀ m ∈ p.momentsWithin, m.Separate)) ∧
    ∀ op : Operation, op.WellFormed → (∀ t ∈ op.tagsWithin, t.isPersistable = true) →
      (∀ x ∈ op.floatsWithin, x.isFinite = true) →
      ∃ v, op.toJson = .ok v ∧ Operation.decoder.ofJson v = .ok op := by
  refine ⟨fun op h => ?_, fun p h => ?_, fun op => Operation.exists_ofJson⟩
  · have hop : op.WellFormed := Operation.wellFormed_of_gives ⟨source, room, d, h⟩
    exact ⟨hop, Operation.constructed_iff.trans (and_iff_right hop),
      fun hconstructed => hop.separate hconstructed.regularWithin⟩
  · have hp : p.WellFormed :=
      Program.wellFormed_of_gives_decoderOf (fun _ => Operation.wellFormed_of_gives)
        ⟨source, room, d, h⟩
    refine ⟨hp, ?_, fun hconstructed => ?_⟩
    · rw [Program.parts, List.forall_mem_flatMap]
      exact forall₂_congr fun op hop =>
        Operation.constructed_iff.trans (and_iff_right (hp.operations op hop))
    · exact hp.separate fun op hop => (hconstructed op hop).regularWithin

/-- An X gate on line 7 under a guard that has qubits of its own. -/
def guardedX (qubits : List Qubit) (conditions : List Condition) : Operation :=
  ⟨.guarded ⟨.gate (.standard .x), [.line 7], []⟩ conditions, qubits, []⟩

theorem wellFormed_guardedX {qubits : List Qubit} (h : qubits.Nodup) (conditions : List Condition) :
    (guardedX qubits conditions).WellFormed :=
  .guarded (.gate rfl (List.nodup_singleton _)) h

/-- Two gates on line 7, guarded on lines 0 and 1. -/
def crossed : Moment := ⟨[guardedX [.line 0] [.key "m"], guardedX [.line 1] [.key "m"]]⟩

/-- Read are a reset on two qubits; a guard without conditions, one on another
    qubit, one around another guard; and a moment of two gates on one qubit. -/
theorem decoder_reads_irregular :
    (Operation.decoder.ofJson (.object [("kind", .string "Reset"),
        ("qubits", .array [.variant "Line" (.int 0), .variant "Line" (.int 1)])]) =
          .ok ⟨.reset, [.line 0, .line 1], []⟩ ∧
      ¬ Operation.Constructed ⟨.reset, [.line 0, .line 1], []⟩) ∧
    (∀ op ∈ [guardedX [.line 7] [], guardedX [.line 0] [.key "m"],
        ⟨.guarded (guardedX [.line 7] [.key "m"]) [.key "n"], [.line 7], []⟩],
      (∃ v, op.toJson = .ok v ∧ Operation.decoder.ofJson v = .ok op) ∧ ¬ op.Constructed) ∧
    (∃ v, crossed.toJson = .ok v ∧ Moment.decoder.ofJson v = .ok crossed) ∧
    ¬ crossed.Separate := by
  have hdistinct (q : Qubit) : [q].Nodup := List.nodup_singleton q
  refine ⟨⟨?_, fun h => ?_⟩, ?_, ?_, by decide⟩
  · obtain ⟨v, hv, hread⟩ :
        ∃ v, Operation.toJson ⟨.reset, [.line 0, .line 1], []⟩ = .ok v ∧ _ :=
      Operation.exists_ofJson (.reset (by decide)) (by decide) (by decide)
    obtain rfl := Except.ok.inj hv
    exact hread
  · exact absurd (Operation.regularWithin_reset.1 h.regularWithin) (by decide)
  · simp only [List.forall_mem_cons, List.not_mem_nil, false_imp_iff, forall_const, and_true]
    refine ⟨⟨?_, fun h => ?_⟩, ⟨?_, fun h => ?_⟩, ?_, fun h => ?_⟩
    · exact Operation.exists_ofJson (wellFormed_guardedX (hdistinct _) _) (by decide) (by decide)
    · exact (Operation.regularWithin_guarded.1 h.regularWithin).1.1 rfl
    · exact Operation.exists_ofJson (wellFormed_guardedX (hdistinct _) _) (by decide) (by decide)
    · exact absurd (Operation.regularWithin_guarded.1 h.regularWithin).1.2.1 (by decide)
    · exact Operation.exists_ofJson (.guarded (wellFormed_guardedX (hdistinct _) _) (hdistinct _))
        (by decide) (by decide)
    · exact (Operation.regularWithin_guarded.1 h.regularWithin).1.2.2 _ _ rfl rfl
  · refine Moment.exists_ofJson ⟨by decide, ?_⟩ (by decide) (by decide)
    exact List.forall_mem_cons.2 ⟨wellFormed_guardedX (hdistinct _) _,
      List.forall_mem_singleton.2 (wellFormed_guardedX (hdistinct _) _)⟩

end QuantumProgram
