/-
  QuantumProgram — the sort keeps every interface.

  A program corresponds to another if their operations do, one to one: each
  looks the same from outside, and calls at every depth keep their settings
  while their programs correspond again.  The sort does not fail on a program
  that could be built, and what it returns corresponds to the program
  (`Pass.sort_keeps`).
-/
import QuantumProgram.Proofs.Built

namespace QuantumProgram

mutual

/-- The operation is kept, or is a call with its settings of a program that
    corresponds. -/
inductive Operation.Kept : Operation → Operation → Prop
  | same (op : Operation) : Operation.Kept op op
  | call {p q : Program} (s : CallSettings) (qubits : List Qubit) (tags : List Tag)
      (h : Program.Kept p q) : Operation.Kept ⟨.call ⟨p, s⟩, qubits, tags⟩ ⟨.call ⟨q, s⟩, qubits, tags⟩

/-- The operations of `q` are those of `p`, each kept and with its interface, in
    whatever order. -/
inductive Program.Kept : Program → Program → Prop
  | intro {p q : Program} (f : Operation → Operation)
      (perm : q.operations.Perm (p.operations.map f)) (tags : q.tags = p.tags)
      (alike : ∀ op ∈ p.operations, (f op).Alike op)
      (kept : ∀ op ∈ p.operations, Operation.Kept op (f op)) : Program.Kept p q

end

/-! ## Correspondence is transitive -/

theorem Operation.Alike.trans {a b c : Operation} (h : a.Alike b) (h' : b.Alike c) : a.Alike c :=
  ⟨h.qubits.trans h'.qubits, h.tags.trans h'.tags, h.interface.trans h'.interface,
    h.invertible.trans h'.invertible⟩

theorem Program.Kept.refl (p : Program) : p.Kept p :=
  .intro id (by rw [List.map_id]) rfl (fun _ _ => .refl _) fun _ _ => .same _

theorem Program.Kept.trans_of {p q r : Program}
    (htrans : ∀ op ∈ p.operations, ∀ b c, Operation.Kept op b → Operation.Kept b c →
      Operation.Kept op c) (h : p.Kept q) (h' : q.Kept r) : p.Kept r := by
  obtain ⟨f, hperm, htags, halike, hkept⟩ := h
  obtain ⟨g, hperm', htags', halike', hkept'⟩ := h'
  have hmem : ∀ op ∈ p.operations, f op ∈ q.operations := fun op hop =>
    hperm.mem_iff.2 (List.mem_map_of_mem hop)
  refine .intro (g ∘ f) ?_ (htags'.trans htags) (fun op hop => ?_) fun op hop => ?_
  · rw [← List.map_map]
    exact hperm'.trans (hperm.map g)
  · exact (halike' _ (hmem op hop)).trans (halike op hop)
  · exact htrans op hop _ _ (hkept op hop) (hkept' _ (hmem op hop))

theorem Operation.Kept.trans {a b c : Operation} (h : a.Kept b) (h' : b.Kept c) : a.Kept c := by
  induction a using Operation.nestingInduction generalizing b c with
  | gate | measure | reset | guarded => cases h; exact h'
  | call d qubits tags ih =>
    cases h with
    | same => exact h'
    | call s _ _ hpq =>
      cases h' with
      | same => exact .call s _ _ hpq
      | call _ _ _ hqr =>
        exact .call s _ _ (Program.Kept.trans_of (fun op hop b c => ih op hop) hpq hqr)

theorem Program.Kept.trans {p q r : Program} (h : p.Kept q) (h' : q.Kept r) : p.Kept r :=
  .trans_of (fun _ _ _ _ => Operation.Kept.trans) h h'

/-! ## What the sort keeps -/

section
variable {commutes : Commutation} {ignored : List Tag}

theorem Program.kept_sorted (p : Program) : p.Kept (p.sorted commutes) :=
  .intro id (by rw [List.map_id]; exact p.operations_sorted_perm) p.tags_sorted
    (fun _ _ => .refl _) fun _ _ => .same _

theorem Program.kept_deepSorted_of {p : Program} (hp : p.WellFormed)
    (h : ∀ op ∈ p.operations, op.Kept (op.deepSorted commutes ignored)) :
    p.Kept (p.deepSorted commutes ignored) :=
  .intro _ p.operations_deepSorted_perm (tags_sorted _)
    (fun op hop => Operation.deepSorted_alike (hp.operations op hop)) h

theorem Operation.kept_deepSorted {op : Operation} (h : op.WellFormed) :
    op.Kept (op.deepSorted commutes ignored) := by
  induction op using Operation.nestingInduction with
  | gate | measure | reset | guarded => exact .same _
  | call c qubits tags ih =>
    rw [Operation.deepSorted_call]
    split_ifs
    · exact .same _
    · cases h with
      | call hp _ =>
        obtain ⟨p, s⟩ := c
        have hlike : (p.deepSorted commutes ignored).Alike p :=
          Program.deepSorted_alike fun op hop => Operation.deepSorted_alike (hp.operations op hop)
        rw [Operation.withTags_ofCall, hlike.call_qubits]
        exact .call s _ _
          (Program.kept_deepSorted_of hp fun op hop => ih op hop (hp.operations op hop))

theorem Program.kept_deepSorted {p : Program} (hp : p.WellFormed) :
    p.Kept (p.deepSorted commutes ignored) :=
  kept_deepSorted_of hp fun op hop => Operation.kept_deepSorted (hp.operations op hop)

end

namespace Pass

theorem apply_sort_keeps (commutes : Commutation) {p : Program} (hp : p.WellFormed)
    (context : PassContext) : ∃ q context',
      ((sort commutes).apply p).run.run context = (.ok q, context') ∧ p.Kept q := by
  obtain ⟨context', hrun⟩ := apply_sort commutes hp context
  refine ⟨_, context', hrun, ?_⟩
  split_ifs
  · exact Program.kept_deepSorted hp
  · exact p.kept_sorted

/-- Sorts by whatever predicates may follow each other. -/
theorem run_sorts_keeps : ∀ (predicates : List Commutation) {p : Program}, p.WellFormed →
    ∀ context : PassContext, ∃ q context',
      Pipeline.run p context (predicates.map sort) = ⟨q, context', none⟩ ∧ p.Kept q
  | [], p, _, context => ⟨p, context, rfl, .refl p⟩
  | commutes :: rest, p, hp, context => by
    obtain ⟨q, context', hrun, hkept⟩ := apply_sort_keeps commutes hp context
    obtain ⟨r, context'', hrest, hkept'⟩ :=
      run_sorts_keeps rest (wellFormed_of_apply_sort hp hrun) context'
    refine ⟨r, context'', ?_, hkept.trans hkept'⟩
    have hruns : (sort commutes).shouldRun p context = true := rfl
    rw [List.map_cons, Pipeline.run, if_pos hruns, hrun]
    exact hrest

/-- **The sort never fails and keeps every interface**, whatever predicate is
    used and in whatever context, alone and in a pipeline. -/
theorem sort_keeps {p : Program} (hp : Built (.program p)) (context : PassContext) :
    (∀ commutes, ∃ q context',
      ((sort commutes).apply p).run.run context = (.ok q, context') ∧ p.Kept q) ∧
    ∀ predicates : List Commutation, ∃ q context',
      Pipeline.run p context (predicates.map sort) = ⟨q, context', none⟩ ∧ p.Kept q :=
  ⟨fun commutes => apply_sort_keeps commutes hp.wellFormed context,
    fun predicates => run_sorts_keeps predicates hp.wellFormed context⟩

/-- A loop of a measurement and a gate, until the measured value is not zero.
    The sort puts the gate in front. -/
def measuringLoop : CallDraft where
  program := ⟨[⟨[⟨.measure "m", [.line 2], []⟩,
    ⟨.gate (.standard .cz), [.line 1, .line 0], []⟩]⟩], []⟩
  repeatUntil := some (.key "m")

theorem built_measuringLoop : Built (.program ⟨[⟨[.ofCall measuringLoop.call]⟩], []⟩) := by
  have hmeasure : Built (.operation ⟨.measure "m", [.line 2], []⟩) :=
    .measure (Operation.measure_eq_ok_iff.2 ⟨by decide, rfl⟩)
  have hgate : Built (.operation ⟨.gate (.standard .cz), [.line 1, .line 0], []⟩) :=
    .gate (Operation.ofGate_eq_ok_iff.2 ⟨rfl, by decide, rfl⟩)
  have hops : ∀ op ∈ measuringLoop.program.operations, Built (.operation op) :=
    List.forall_mem_cons.2 ⟨hmeasure, List.forall_mem_singleton.2 hgate⟩
  have hbody : Built (.program measuringLoop.program) :=
    .ofMoments (List.forall_mem_singleton.2
      (.ofOperations hops (Moment.ofOperations_eq_ok (by decide)))) []
  exact .ofMoments (List.forall_mem_singleton.2 (.ofOperations
    (List.forall_mem_singleton.2 (.call (.build hbody rfl))) rfl)) []

theorem sort_keeps_measuringLoop : ∃ q context',
    ((sort ruleCommutes).apply ⟨[⟨[.ofCall measuringLoop.call]⟩], []⟩).run.run { deep := true } =
        (.ok q, context') ∧
      Program.Kept ⟨[⟨[.ofCall measuringLoop.call]⟩], []⟩ q :=
  (sort_keeps built_measuringLoop _).1 _

end Pass

end QuantumProgram
