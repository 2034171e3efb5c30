/-
  QuantumProgram — values that can be built.

  `Built` holds of what the functions of the library make, in any order and to
  any depth; a value that is taken out of another one counts as well.  All of
  these values are well-formed (`Built.wellFormed`): one step keeps it, by one
  lemma for each function, and so does a whole run, by induction.
-/
import QuantumProgram.Proofs.Preservation

namespace QuantumProgram

/-- An operation, a moment, a call or a program. -/
inductive Value where
  | operation (operation : Operation)
  | moment (moment : Moment)
  | call (call : Call)
  | program (program : Program)

/-- The value satisfies the checks, to any depth. -/
def Value.WellFormed : Value → Prop
  | operation op => op.WellFormed
  | moment m => m.WellFormed
  | call c => c.WellFormed
  | program p => p.WellFormed

/-- The operation or the moment that is added with an item. -/
def Item.value : Item → Value
  | operation op => .operation op
  | moment m => .moment m

open Decoder (Gives)

/-- **Values that can be built.**  A program and its frozen form are one value,
    so that freezing and unfreezing are no steps; a sort is applied in a context
    that may be deep or not. -/
inductive Built : Value → Prop
  -- operations
  | gate {g qubits op} (h : Operation.ofGate g qubits = .ok op) : Built (.operation op)
  | measure {key qubits op} (h : Operation.measure key qubits = .ok op) : Built (.operation op)
  | reset (q) : Built (.operation (.reset q))
  | call {c} (hc : Built (.call c)) : Built (.operation (.ofCall c))
  | withTags {op} (hop : Built (.operation op)) (tags) : Built (.operation (op.withTags tags))
  | untagged {op} (hop : Built (.operation op)) : Built (.operation op.untagged)
  | withConditions {op} (hop : Built (.operation op)) (conditions) :
      Built (.operation (op.withConditions conditions))
  | inverse {op op'} (hop : Built (.operation op)) (h : op.inverse? = some op') :
      Built (.operation op')
  | guarded {op conditions qubits tags}
      (hop : Built (.operation ⟨.guarded op conditions, qubits, tags⟩)) : Built (.operation op)
  | operationOf {m op} (hm : Built (.moment m)) (hop : op ∈ m.operations) : Built (.operation op)
  | decodedOperation {op} (h : Gives Operation.decoder op) : Built (.operation op)
  | recordedOperation {table : ConstantTable} {r : OperationRecord} {op}
      (htable : ∀ p, .program p ∈ table.entries → Built (.program p))
      (h : r.decode table = .ok op) : Built (.operation op)
  | recordedCall {table : ConstantTable} {r : CallRecord} {op}
      (htable : ∀ p, .program p ∈ table.entries → Built (.program p))
      (h : r.decode table = .ok op) : Built (.operation op)
  -- moments
  | emptyMoment : Built (.moment .empty)
  | ofOperations {ops m} (hops : ∀ op ∈ ops, Built (.operation op))
      (h : Moment.ofOperations ops = .ok m) : Built (.moment m)
  | push {m op m'} (hm : Built (.moment m)) (hop : Built (.operation op)) (h : m.push op = .ok m') :
      Built (.moment m')
  | momentOf {p m} (hp : Built (.program p)) (hm : m ∈ p.moments) : Built (.moment m)
  | decodedMoment {m} (h : Gives Moment.decoder m) : Built (.moment m)
  -- calls
  | build {d : CallDraft} {c} (hp : Built (.program d.program)) (h : d.build = .ok c) :
      Built (.call c)
  | repeatedCall {c factor c'} (hc : Built (.call c)) (h : c.repeated factor = .ok c') :
      Built (.call c')
  | inverseCall {c c'} (hc : Built (.call c)) (h : c.inverse? = some c') : Built (.call c')
  | withProgram {c p c'} (hc : Built (.call c)) (hp : Built (.program p))
      (h : c.withProgram p = .ok c') : Built (.call c')
  | callOf {c qubits tags} (hop : Built (.operation ⟨.call c, qubits, tags⟩)) : Built (.call c)
  | decodedCall {c} (h : Gives (.validated CallDraft.build (CallDraft.decoder Program.decoder)) c) :
      Built (.call c)
  -- programs
  | emptyProgram : Built (.program .empty)
  | ofMoments {moments} (hmoments : ∀ m ∈ moments, Built (.moment m)) (tags) :
      Built (.program ⟨moments, tags⟩)
  | extend {p} (hp : Built (.program p)) {items : List Item}
      (hitems : ∀ item ∈ items, Built item.value) (strategy) :
      Built (.program (p.extend items strategy))
  | append {p} (hp : Built (.program p)) {item : Item} (hitem : Built item.value) :
      Built (.program (p.append item))
  | concat {p q} (hp : Built (.program p)) (hq : Built (.program q)) : Built (.program (p.concat q))
  | repeatedProgram {p} (hp : Built (.program p)) (n) : Built (.program (p.repeated n))
  | inverseProgram {p q} (hp : Built (.program p)) (h : p.inverse? = some q) : Built (.program q)
  | pow {p exponent q} (hp : Built (.program p)) (h : p.pow? exponent = some q) : Built (.program q)
  | withTagsProgram {p} (hp : Built (.program p)) (tags) : Built (.program (p.withTags tags))
  | untaggedProgram {p} (hp : Built (.program p)) : Built (.program p.untagged)
  | programOf {c} (hc : Built (.call c)) : Built (.program c.program)
  | decodedProgram {p} (h : Gives Program.decoder p) : Built (.program p)
  | recordedProgram {table : ConstantTable} {r : ProgramRecord} {p}
      (htable : ∀ p, .program p ∈ table.entries → Built (.program p))
      (h : r.decode table = .ok p) : Built (.program p)
  | sorted {commutes p context q context'} (hp : Built (.program p))
      (h : ((Pass.sort commutes).apply p).run.run context = (.ok q, context')) :
      Built (.program q)

theorem Item.wellFormed_iff {item : Item} : item.WellFormed ↔ item.value.WellFormed := by
  cases item <;> rfl

/-- **Whatever can be built is well-formed.** -/
theorem Built.wellFormed {v : Value} (h : Built v) : v.WellFormed := by
  induction h with
  | gate h => exact Operation.wellFormed_ofGate h
  | measure h => exact Operation.wellFormed_measure h
  | reset q => exact Operation.wellFormed_reset q
  | call _ hc => exact Operation.wellFormed_ofCall hc
  | withTags _ tags hop => exact hop.withTags tags
  | untagged _ hop => exact hop.untagged
  | withConditions _ conditions hop => exact hop.withConditions conditions
  | inverse _ h hop => exact hop.inverse? h
  | guarded _ hop => exact hop.guardedInner
  | operationOf _ hmem hm => exact hm.operations _ hmem
  | decodedOperation h => exact Operation.wellFormed_of_gives h
  | recordedOperation _ h htable => exact OperationRecord.wellFormed_decode htable h
  | recordedCall _ h htable => exact CallRecord.wellFormed_decode htable h
  | emptyMoment => exact Moment.wellFormed_empty
  | ofOperations _ h hops => exact .ofOperations hops h
  | push _ _ h hm hop => exact hm.push hop h
  | momentOf _ hmem hp => exact Program.wellFormed_iff.1 hp _ hmem
  | decodedMoment h =>
    exact Moment.wellFormed_of_gives_decoderOf (fun _ => Operation.wellFormed_of_gives) h
  | @build d _ _ h hp => exact .checked (c := d.call) hp h
  | repeatedCall _ h hc => exact hc.repeated h
  | inverseCall _ h hc => exact hc.inverse? h
  | withProgram _ _ h _ hp => exact .withProgram hp h
  | callOf _ hop => exact hop.callee
  | decodedCall h => exact Call.wellFormed_of_gives (fun _ => Operation.wellFormed_of_gives) h
  | emptyProgram => exact Program.wellFormed_empty
  | ofMoments _ _ hmoments => exact Program.wellFormed_iff.2 hmoments
  | extend _ _ strategy hp hitems =>
    exact hp.extend (fun item hitem => Item.wellFormed_iff.2 (hitems item hitem)) strategy
  | append _ _ hp hitem =>
    exact hp.extend (List.forall_mem_singleton.2 (Item.wellFormed_iff.2 hitem)) .earliest
  | concat _ _ hp hq => exact hp.concat hq
  | repeatedProgram _ n hp => exact hp.repeated n
  | inverseProgram _ h hp => exact hp.inverse? h
  | pow _ h hp => exact hp.pow? h
  | withTagsProgram _ _ hp => exact hp.retagged _
  | untaggedProgram _ hp => exact hp.retagged _
  | programOf _ hc => exact hc.program
  | decodedProgram h =>
    exact Program.wellFormed_of_gives_decoderOf (fun _ => Operation.wellFormed_of_gives) h
  | recordedProgram _ h htable => exact ProgramRecord.wellFormed_decode htable h
  | sorted _ h hp => exact Pass.wellFormed_of_apply_sort hp h

/-- **What holds of everything that can be built.**  The qubits of an operation
    are different, as many as its gate needs, and those of its call; the
    operations of a moment act on different qubits.  Since what is taken out of a
    value counts as built, this is so to any depth.  The packing and the
    inversion, which make moments without a check, would pass it. -/
theorem built_invariant :
    (∀ op, Built (.operation op) → op.qubits.Nodup ∧
      (∀ g, op.action = .gate g → op.qubits.length = g.arity) ∧
      ∀ c, op.action = .call c → op.qubits = c.qubits) ∧
    (∀ m, Built (.moment m) → m.operations.Pairwise Operation.Apart) ∧
    (∀ (p : Program) items strategy,
      p.extendChecked items strategy = .ok (p.extend items strategy)) ∧
    ∀ m ops, Built (.moment m) → inverseOperations? m.operations = some ops →
      Moment.ofOperations ops = .ok ⟨ops⟩ := by
  refine ⟨fun op hop => ?_, fun m hm => ?_, Program.extendChecked_eq, fun m ops hm hinv => ?_⟩
  · have hwf : op.WellFormed := hop.wellFormed
    refine ⟨hwf.nodup, fun g hg => ?_, fun c hc => ?_⟩
    · cases hwf with
      | gate count _ => exact Action.gate.inj hg ▸ count
      | measure => cases hg
      | reset => cases hg
      | call => cases hg
      | guarded => cases hg
    · cases hwf with
      | gate => cases hc
      | measure => cases hc
      | reset => cases hc
      | call => exact Action.call.inj hc ▸ rfl
      | guarded => cases hc
  · have hwf : m.WellFormed := hm.wellFormed
    exact hwf.apart
  · have hwf : m.WellFormed := hm.wellFormed
    exact hwf.ofOperations_inverses hinv

end QuantumProgram
