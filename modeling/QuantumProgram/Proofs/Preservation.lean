/-
  QuantumProgram — what is made of well-formed values is well-formed.

  One lemma for each way to make an operation, a call or a program: changing
  and inverting it, sorting it, and reading it from a document
  (`Operation.wellFormed_of_gives`) or from a record
  (`OperationRecord.wellFormed_decode`).
-/
import QuantumProgram.Persisted.Program
import QuantumProgram.Proofs.Decoding
import QuantumProgram.Proofs.DeepSort
import QuantumProgram.Proofs.Inversion
import QuantumProgram.Proofs.Resolution

namespace QuantumProgram

/-! ## Calls -/

namespace Call

variable {c c' : Call}

theorem nodup_of_fault? {invertible : Bool} (h : c.fault? invertible = none) :
    c.qubits.Nodup := by
  obtain ⟨-, -, -, hqubits⟩ := fault?_eq_none_iff.1 h
  rw [qubitsFault?, Option.map_eq_none_iff, firstRepeated?_eq_none_iff] at hqubits
  exact hqubits.1

theorem WellFormed.checked (hp : c.program.WellFormed) (h : c.checked = .ok c') :
    c'.WellFormed := by
  obtain ⟨hvalid, rfl⟩ := checked_eq_ok_iff.1 h
  exact ⟨hp, hvalid⟩

theorem WellFormed.repeated {factor : Int64} (hc : c.WellFormed) (h : c.repeated factor = .ok c') :
    c'.WellFormed := by
  obtain ⟨-, hvalid, rfl⟩ := repeated_eq_ok_iff.1 h
  exact ⟨hc.program, hvalid⟩

theorem WellFormed.inverse? (hc : c.WellFormed) (h : c.inverse? = some c') : c'.WellFormed := by
  rw [Call.inverse?] at h
  cases hrepeated : c.repeated (-1) with
  | error e => exact absurd h (by simp [hrepeated, Except.toOption])
  | ok d =>
    rw [hrepeated] at h
    exact Option.some.inj h ▸ hc.repeated hrepeated

theorem WellFormed.withProgram {p : Program} (hp : p.WellFormed) (h : c.withProgram p = .ok c') :
    c'.WellFormed :=
  .checked (c := { c with program := p }) hp h

end Call

/-! ## Operations -/

namespace Operation

variable {op : Operation}

theorem WellFormed.nodup (h : op.WellFormed) : op.qubits.Nodup := by
  cases h with
  | gate _ distinct => exact distinct
  | measure distinct => exact distinct
  | reset distinct => exact distinct
  | call _ valid => exact Call.nodup_of_fault? valid
  | guarded _ distinct => exact distinct

theorem WellFormed.retagged {action : Action} {qubits : List Qubit} {tags : List Tag}
    (h : (Operation.mk action qubits tags).WellFormed) (tags' : List Tag) :
    (Operation.mk action qubits tags').WellFormed := by
  cases h with
  | gate count distinct => exact .gate count distinct
  | measure distinct => exact .measure distinct
  | reset distinct => exact .reset distinct
  | call program valid => exact .call program valid
  | guarded inner distinct => exact .guarded inner distinct

theorem WellFormed.withTags (h : op.WellFormed) (tags : List Tag) :
    (op.withTags tags).WellFormed := by
  cases op
  exact h.retagged _

theorem WellFormed.untagged (h : op.WellFormed) : op.untagged.WellFormed := by
  cases op
  exact h.retagged _

theorem WellFormed.withConditions (h : op.WellFormed) (conditions : List Condition) :
    (op.withConditions conditions).WellFormed := by
  unfold Operation.withConditions
  split_ifs
  · exact h
  · split
    · cases h with
      | guarded inner distinct => exact .guarded inner distinct
    · exact .guarded h h.nodup

theorem wellFormed_ofGate {g : Gate} {qubits : List Qubit} (h : ofGate g qubits = .ok op) :
    op.WellFormed := by
  obtain ⟨hcount, hdistinct, rfl⟩ := ofGate_eq_ok_iff.1 h
  exact .gate hcount hdistinct

theorem wellFormed_measure {key : String} {qubits : List Qubit} (h : measure key qubits = .ok op) :
    op.WellFormed := by
  obtain ⟨hdistinct, rfl⟩ := measure_eq_ok_iff.1 h
  exact .measure hdistinct

theorem wellFormed_reset (q : Qubit) : (reset q).WellFormed := .reset (List.nodup_singleton q)

theorem wellFormed_ofCall {c : Call} (h : c.WellFormed) : (ofCall c).WellFormed :=
  .call h.program h.valid

/-- The parts of a guarded operation or a call. -/
theorem WellFormed.guardedInner {conditions : List Condition} {qubits : List Qubit}
    {tags : List Tag} (h : (Operation.mk (.guarded op conditions) qubits tags).WellFormed) :
    op.WellFormed := by
  cases h with | guarded inner _ => exact inner

theorem WellFormed.callee {c : Call} {qubits : List Qubit} {tags : List Tag}
    (h : (Operation.mk (.call c) qubits tags).WellFormed) : c.WellFormed := by
  cases h with | call program valid => exact ⟨program, valid⟩

end Operation

/-! ## Programs -/

namespace Program

theorem wellFormed_empty : empty.WellFormed :=
  wellFormed_iff.2 fun _ h => absurd h List.not_mem_nil

namespace WellFormed

variable {p q : Program} (hp : p.WellFormed)
include hp

theorem retagged (tags : List Tag) : (Program.mk p.moments tags).WellFormed :=
  wellFormed_iff.2 fun m hm => wellFormed_iff.1 hp m hm

theorem concat (hq : q.WellFormed) : (p.concat q).WellFormed :=
  wellFormed_iff.2 (List.forall_mem_append.2 ⟨wellFormed_iff.1 hp, wellFormed_iff.1 hq⟩)

theorem repeated (n : Int64) : (p.repeated n).WellFormed := by
  refine wellFormed_iff.2 fun m hm => ?_
  obtain ⟨moments, hmoments, hm⟩ := List.mem_flatten.1 hm
  exact wellFormed_iff.1 hp m (List.eq_of_mem_replicate hmoments ▸ hm)

theorem pow? {exponent : Int64} (h : p.pow? exponent = some q) : q.WellFormed := by
  rw [Program.pow?] at h
  split_ifs at h
  · exact Option.some.inj h ▸ hp
  · exact hp.inverse? h

end WellFormed

theorem wellFormed_ofOperations {ops : List Operation} (h : ∀ op ∈ ops, op.WellFormed) :
    (ofOperations ops).WellFormed := by
  refine wellFormed_empty.extend (fun item hitem => ?_) .earliest
  obtain ⟨op, hop, rfl⟩ := List.mem_map.1 hitem
  exact h op hop

end Program

/-! ## The sort -/

section
variable {commutes : Commutation} {ignored : List Tag}

theorem Program.WellFormed.sorted {p : Program} (hp : p.WellFormed) :
    (p.sorted commutes).WellFormed := by
  refine (wellFormed_ofOperations fun op hop => hp.operations op ?_).retagged _
  exact (Sorting.rearranged_sortOperations commutes p.operations).perm.mem_iff.1 hop

theorem Program.WellFormed.deepSorted_of {p : Program} (hp : p.WellFormed)
    (h : ∀ op ∈ p.operations, (op.deepSorted commutes ignored).WellFormed) :
    (p.deepSorted commutes ignored).WellFormed := by
  refine sorted (wellFormed_iff.2 fun m' hm' => ?_)
  obtain ⟨m, hm, rfl⟩ := List.mem_map.1 hm'
  have hwf := wellFormed_iff.1 hp m hm
  refine ⟨Pass.pairwise_apart_deepSorted hwf.operations hwf.apart, ?_⟩
  exact List.forall_mem_map.2 fun op hop => h op (List.mem_flatMap.2 ⟨m, hm, hop⟩)

theorem Operation.WellFormed.deepSorted {op : Operation} (h : op.WellFormed) :
    (op.deepSorted commutes ignored).WellFormed := by
  induction op using Operation.nestingInduction with
  | gate => exact h
  | measure => exact h
  | reset => exact h
  | guarded => exact h
  | call c qubits tags ih =>
    rw [Operation.deepSorted_call]
    split_ifs
    · exact h
    · cases h with
      | call hp hvalid =>
        obtain ⟨p, s⟩ := c
        have hlike : (p.deepSorted commutes ignored).Alike p :=
          Program.deepSorted_alike fun op hop => Operation.deepSorted_alike (hp.operations op hop)
        exact .call (hp.deepSorted_of fun op hop => ih op hop (hp.operations op hop))
          ((hlike.fault?_eq s).trans hvalid)

theorem Program.WellFormed.deepSorted {p : Program} (hp : p.WellFormed) :
    (p.deepSorted commutes ignored).WellFormed :=
  hp.deepSorted_of fun op hop => (hp.operations op hop).deepSorted

theorem Pass.wellFormed_of_apply_sort {p q : Program} (hp : p.WellFormed)
    {context context' : PassContext}
    (h : ((sort commutes).apply p).run.run context = (.ok q, context')) : q.WellFormed := by
  obtain ⟨context'', heq⟩ := apply_sort commutes hp context
  obtain rfl := Except.ok.inj (Prod.mk.inj (h.symm.trans heq)).1
  split_ifs
  · exact hp.deepSorted
  · exact hp.sorted

end

/-! ## Reading documents -/

section
open Decoder

/-- An action whose parts could be built. -/
def Action.WellFormed : Action → Prop
  | .gate _ => True
  | .measure _ => True
  | .reset => True
  | .call c => c.WellFormed
  | .guarded op _ => op.WellFormed

theorem Operation.wellFormed_ofParts {action : Action} {qubits : List Qubit} {tags : List Tag}
    {op : Operation} (ha : action.WellFormed) (h : ofParts action qubits tags = .ok op) :
    op.WellFormed := by
  cases action with
  | gate g =>
    obtain ⟨op', hop', heq⟩ := bind_eq_ok_iff.1 h
    exact Except.ok.inj heq ▸ (wellFormed_ofGate hop').withTags tags
  | call c => exact Except.ok.inj h ▸ (wellFormed_ofCall ha).withTags tags
  | measure key =>
    obtain ⟨_, hdistinct, heq⟩ := bind_eq_ok_iff.1 h
    exact Except.ok.inj heq ▸ .measure (checkDistinct_eq_ok_iff.1 hdistinct)
  | reset =>
    obtain ⟨_, hdistinct, heq⟩ := bind_eq_ok_iff.1 h
    exact Except.ok.inj heq ▸ .reset (checkDistinct_eq_ok_iff.1 hdistinct)
  | guarded inner conditions =>
    obtain ⟨_, hdistinct, heq⟩ := bind_eq_ok_iff.1 h
    exact Except.ok.inj heq ▸ .guarded ha (checkDistinct_eq_ok_iff.1 hdistinct)

section
variable {operation : Decoder Operation} (hoperation : ∀ op, Gives operation op → op.WellFormed)
include hoperation

theorem Moment.wellFormed_of_gives_decoderOf {m : Moment}
    (h : Gives (Moment.decoderOf operation) m) : m.WellFormed := by
  obtain ⟨ops, hops, hm⟩ := h.of_validated
  exact .ofOperations (fun op hop => hoperation op (hops.of_list op hop)) hm

theorem Program.wellFormed_of_gives_decoderOf {p : Program}
    (h : Gives (Program.decoderOf operation) p) : p.WellFormed := by
  obtain ⟨⟨moments, tags, _⟩, hfields, rfl⟩ := h.of_record
  have hmoments := hfields.required.of_list
  exact wellFormed_iff.2 fun m hm =>
    Moment.wellFormed_of_gives_decoderOf hoperation (hmoments m hm)

/-- A decoded draft has a decoded program. -/
theorem CallDraft.wellFormed_of_gives {d : CallDraft}
    (h : Gives (CallDraft.decoder (Program.decoderOf operation)) d) : d.program.WellFormed := by
  obtain ⟨⟨program, others⟩, hfields, rfl⟩ := h.of_record
  exact Program.wellFormed_of_gives_decoderOf hoperation hfields.required

theorem Call.wellFormed_of_gives {c : Call}
    (h : Gives (.validated CallDraft.build (CallDraft.decoder (Program.decoderOf operation))) c) :
    c.WellFormed := by
  obtain ⟨d, hd, hbuild⟩ := h.of_validated
  exact .checked (c := d.call) (CallDraft.wellFormed_of_gives hoperation hd) hbuild

theorem Action.wellFormed_of_gives_decoderOf {action : Action}
    (h : Gives (Action.decoderOf operation) action) : action.WellFormed := by
  obtain ⟨c, hc, hgives⟩ := h.of_variants
  simp only [List.mem_cons, List.not_mem_nil, or_false] at hc
  obtain rfl | rfl | rfl | rfl | rfl := hc
  · obtain ⟨g, -, rfl⟩ := Gives.of_map hgives
    trivial
  · obtain ⟨⟨key, _⟩, -, rfl⟩ := Gives.of_caseFields hgives
    trivial
  · obtain rfl : action = .reset := hgives
    trivial
  · obtain ⟨c, hc, rfl⟩ := Gives.of_map hgives
    exact Call.wellFormed_of_gives hoperation hc
  · obtain ⟨⟨op, conditions, _⟩, hfields, rfl⟩ := Gives.of_caseFields hgives
    exact hoperation op hfields.required

end

/-- **Whatever is read as an operation is well-formed.** -/
theorem Operation.wellFormed_of_gives {op : Operation} (h : Gives Operation.decoder op) :
    op.WellFormed := by
  refine Gives.of_recursive (fun operation hoperation op hop => ?_) h
  obtain ⟨t, ht, hparts⟩ := hop.of_validated
  obtain ⟨⟨action, qubits, tags, _⟩, hfields, rfl⟩ := ht.of_record
  have haction := Action.wellFormed_of_gives_decoderOf hoperation hfields.required
  exact wellFormed_ofParts haction hparts

end

/-! ## Decoding records -/

/-- A table of programs that could be built. -/
def ConstantTable.WellFormed (t : ConstantTable) : Prop :=
  ∀ p, .program p ∈ t.entries → p.WellFormed

section
variable {table : ConstantTable} (htable : table.WellFormed)
include htable

theorem CallRecord.wellFormed_decode {r : CallRecord} {op : Operation}
    (h : r.decode table = .ok op) : op.WellFormed := by
  simp only [decode, bind_eq_ok_iff, RecordResult.ofBuild, mapError_eq_ok_iff] at h
  obtain ⟨p, hp, bindings, -, repeatUntil, -, c, hc, guards, -, heq⟩ := h
  have hp' := htable p (List.mem_of_getElem? (ConstantTable.program_eq_ok_iff.1 hp))
  have hcall : c.WellFormed := .checked (c := (r.draft p bindings repeatUntil).call) hp' hc
  exact Except.ok.inj heq ▸ (Operation.wellFormed_ofCall hcall).withConditions guards

theorem OperationRecord.wellFormed_decode {r : OperationRecord} {op : Operation}
    (h : r.decode table = .ok op) : op.WellFormed := by
  obtain ⟨op', hop', heq⟩ := bind_eq_ok_iff.1 h
  obtain rfl := Except.ok.inj heq
  refine Operation.WellFormed.withTags ?_ r.tags
  cases haction : r.action with
  | gate g =>
    rw [haction, ActionRecord.decode, GateRecord.decode] at hop'
    obtain ⟨g', -, hop'⟩ := bind_eq_ok_iff.1 hop'
    exact Operation.wellFormed_ofGate (mapError_eq_ok_iff.1 hop')
  | measure key qubits =>
    rw [haction] at hop'
    exact Operation.wellFormed_measure (mapError_eq_ok_iff.1 hop')
  | reset q =>
    rw [haction] at hop'
    exact Except.ok.inj hop' ▸ Operation.wellFormed_reset _
  | call c =>
    rw [haction] at hop'
    exact c.wellFormed_decode htable hop'

theorem ProgramRecord.wellFormed_decode {r : ProgramRecord} {p : Program}
    (h : r.decode table = .ok p) : p.WellFormed := by
  refine Program.wellFormed_iff.2 fun m hm => ?_
  obtain ⟨records, -, hrecords⟩ := exists_of_forall₂ (decode_eq_ok_iff.1 h).1.flip hm
  obtain ⟨hops, hapart⟩ := decodeMoment_eq_ok_iff.1 hrecords
  refine ⟨hapart, fun op hop => ?_⟩
  obtain ⟨o, -, ho⟩ := exists_of_forall₂ hops.flip hop
  exact o.wellFormed_decode htable ho

end

end QuantumProgram
