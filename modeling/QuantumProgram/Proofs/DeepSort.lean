/-
  QuantumProgram — the sort in a deep context.

  `deepSorted` is what the sort does to the programs of calls, without the
  checks on the way.  On well-formed programs the checks let everything through:
  an operation and its deep sort are alike (`deepSorted_alike`), so that the pass
  returns exactly `Program.deepSorted` (`apply_sort`).
-/
import QuantumProgram.Proofs.WellFormed

namespace QuantumProgram

/-! ## The deep sort without checks -/

section
variable (commutes : Commutation) (ignored : List Tag)

mutual

/-- The operation with the program of a plain call sorted, from the inside out.
    Operations with an ignored tag stay. -/
def Operation.deepSorted : Operation → Operation
  | ⟨.call ⟨⟨moments, programTags⟩, settings⟩, qubits, tags⟩ =>
    if tags.any (ignored.contains ·) then
      ⟨.call ⟨⟨moments, programTags⟩, settings⟩, qubits, tags⟩
    else
      (Operation.ofCall
        ⟨Program.sorted commutes ⟨deepSortedMoments moments, programTags⟩, settings⟩).withTags tags
  | ⟨.gate g, qubits, tags⟩ => ⟨.gate g, qubits, tags⟩
  | ⟨.measure key, qubits, tags⟩ => ⟨.measure key, qubits, tags⟩
  | ⟨.reset, qubits, tags⟩ => ⟨.reset, qubits, tags⟩
  | ⟨.guarded op conditions, qubits, tags⟩ => ⟨.guarded op conditions, qubits, tags⟩
termination_by structural op => op

def deepSortedMoments : List Moment → List Moment
  | [] => []
  | ⟨ops⟩ :: rest => ⟨deepSortedOperations ops⟩ :: deepSortedMoments rest
termination_by structural moments => moments

def deepSortedOperations : List Operation → List Operation
  | [] => []
  | op :: rest => op.deepSorted :: deepSortedOperations rest
termination_by structural ops => ops

end

theorem deepSortedOperations_eq : ∀ ops : List Operation,
    deepSortedOperations commutes ignored ops = ops.map (Operation.deepSorted commutes ignored)
  | [] => rfl
  | op :: rest => by rw [deepSortedOperations, deepSortedOperations_eq rest, List.map_cons]

theorem deepSortedMoments_eq : ∀ moments : List Moment,
    deepSortedMoments commutes ignored moments =
      moments.map fun m => ⟨m.operations.map (Operation.deepSorted commutes ignored)⟩
  | [] => rfl
  | ⟨ops⟩ :: rest => by
    rw [deepSortedMoments, deepSortedMoments_eq rest, deepSortedOperations_eq, List.map_cons]

/-- The program with all operations sorted deeply and then sorted itself. -/
def Program.deepSorted (p : Program) : Program :=
  Program.sorted commutes
    ⟨p.moments.map fun m => ⟨m.operations.map (Operation.deepSorted commutes ignored)⟩, p.tags⟩

theorem Operation.deepSorted_call (c : Call) (qubits : List Qubit) (tags : List Tag) :
    Operation.deepSorted commutes ignored ⟨.call c, qubits, tags⟩ =
      if tags.any (ignored.contains ·) then ⟨.call c, qubits, tags⟩
      else (Operation.ofCall ⟨c.program.deepSorted commutes ignored, c.settings⟩).withTags tags := by
  obtain ⟨⟨moments, programTags⟩, settings⟩ := c
  rw [Operation.deepSorted, deepSortedMoments_eq, Program.deepSorted]

end

variable {commutes : Commutation} {ignored : List Tag}

/-- The sort keeps the operations. -/
theorem Program.operations_sorted_perm (p : Program) :
    (p.sorted commutes).operations.Perm p.operations :=
  (Packing.rearranged_ofOperations _).perm.trans
    (Sorting.rearranged_sortOperations commutes p.operations).perm

/-- Operations that are changed moment after moment are changed in time order. -/
theorem Program.operations_mapMoments (f : Operation → Operation) (p : Program) :
    operations ⟨p.moments.map fun m => ⟨m.operations.map f⟩, p.tags⟩ = p.operations.map f := by
  simp only [operations, List.flatMap_map, List.map_flatMap]

/-- The deep sort keeps the operations, each sorted deeply. -/
theorem Program.operations_deepSorted_perm (p : Program) :
    (p.deepSorted commutes ignored).operations.Perm
      (p.operations.map (Operation.deepSorted commutes ignored)) :=
  p.operations_mapMoments _ ▸ Program.operations_sorted_perm _

theorem Operation.withTags_ofCall (c : Call) (tags : List Tag) :
    (Operation.ofCall c).withTags tags = ⟨.call c, c.qubits, tags⟩ := rfl

/-- The deep sort of a program is like the program if that holds of its
    operations. -/
theorem Program.deepSorted_alike {p : Program}
    (h : ∀ op ∈ p.operations, (op.deepSorted commutes ignored).Alike op) :
    (p.deepSorted commutes ignored).Alike p :=
  .of_perm h p.operations_deepSorted_perm

/-- **The deep sort of an operation is like the operation.** -/
theorem Operation.deepSorted_alike {op : Operation} (h : op.WellFormed) :
    (op.deepSorted commutes ignored).Alike op := by
  induction op using Operation.nestingInduction with
  | gate | measure | reset | guarded => exact .refl _
  | call c qubits tags ih =>
    rw [Operation.deepSorted_call]
    split_ifs
    · exact .refl _
    cases h with
    | call hp _ =>
      obtain ⟨p, s⟩ := c
      have hlike := Program.deepSorted_alike fun op hop => ih op hop (hp.operations op hop)
      rw [Operation.withTags_ofCall, hlike.call_qubits]
      exact .call hlike _ _ _

namespace Pass

/-! ## Computations that return -/

/-- In every context with the given ignored tags the computation returns `a`
    and leaves the ignored tags as they are. -/
def Returns {α : Type} (ignored : List Tag) (x : PassM α) (a : α) : Prop :=
  ∀ context : PassContext, context.ignoredTags = ignored →
    ∃ context', x.run.run context = (.ok a, context') ∧ context'.ignoredTags = ignored

namespace Returns
variable {α β : Type} {x : PassM α} {a : α}

theorem pure (a : α) : Returns ignored (Pure.pure a) a := fun context h => ⟨context, rfl, h⟩

theorem bind {f : α → PassM β} {b : β} (hx : Returns ignored x a) (hf : Returns ignored (f a) b) :
    Returns ignored (x >>= f) b := by
  intro context h
  obtain ⟨context', hrun, h'⟩ := hx context h
  obtain ⟨context'', hrun', h''⟩ := hf context' h'
  refine ⟨context'', ?_, h''⟩
  rw [ExceptT.run_bind, StateT.run_bind, hrun]
  exact hrun'

theorem get_bind {f : PassContext → PassM β} {b : β}
    (hf : ∀ context, context.ignoredTags = ignored → Returns ignored (f context) b) :
    Returns ignored (get >>= f) b := fun context h => hf context h context h

theorem ofBuild {mk : BuildError → PassError} {e : Except BuildError α} (h : e = .ok a) :
    Returns ignored (Pass.ofBuild mk e) a := h ▸ pure a

end Returns

theorem returns_applyToOperations {pass : Pass} {f : Operation → Operation} :
    ∀ {ops : List Operation}, (∀ op ∈ ops, Returns ignored (applyToOperation pass op) (f op)) →
      Returns ignored (applyToOperations pass ops) (ops.map f)
  | [], _ => .pure []
  | op :: rest, h => by
    rw [applyToOperations]
    exact (h op List.mem_cons_self).bind
      ((returns_applyToOperations fun o ho => h o (List.mem_cons_of_mem _ ho)).bind (.pure _))

theorem returns_applyToMoments {pass : Pass} {f : Operation → Operation} :
    ∀ {moments : List Moment},
      (∀ op ∈ moments.flatMap Moment.operations, Returns ignored (applyToOperation pass op) (f op)) →
      (∀ m ∈ moments, (m.operations.map f).Pairwise Operation.Apart) →
      Returns ignored (applyToMoments pass moments) (moments.map fun m => ⟨m.operations.map f⟩)
  | [], _, _ => .pure []
  | ⟨ops⟩ :: rest, h, hapart => by
    have hops := returns_applyToOperations fun op hop => h op (List.mem_append_left _ hop)
    have hrest := returns_applyToMoments (fun op hop => h op (List.mem_append_right _ hop))
      fun m hm => hapart m (List.mem_cons_of_mem _ hm)
    rw [applyToMoments]
    exact hops.bind ((Returns.ofBuild (Moment.ofOperations_eq_ok
      (hapart _ List.mem_cons_self))).bind (hrest.bind (.pure _)))

theorem returns_run_sort (p : Program) :
    Returns ignored ((sort commutes).run p) (p.sorted commutes) := fun context h =>
  ⟨_, run_sort commutes p context, h⟩

/-- The operations of a moment stay apart when they are sorted deeply. -/
theorem pairwise_apart_deepSorted {ops : List Operation} (hops : ∀ op ∈ ops, op.WellFormed)
    (h : ops.Pairwise Operation.Apart) :
    (ops.map (Operation.deepSorted commutes ignored)).Pairwise Operation.Apart := by
  refine List.pairwise_map.2 (h.imp_of_mem fun {a b} ha hb hab => ?_)
  rw [Operation.Apart, (Operation.deepSorted_alike (hops a ha)).qubits,
    (Operation.deepSorted_alike (hops b hb)).qubits]
  exact hab

/-- On the moments of a well-formed program the checks of the pass let
    everything through if they do so on the operations. -/
theorem returns_applyToMoments_sort {p : Program} (hp : p.WellFormed)
    (h : ∀ op ∈ p.operations, Returns ignored (applyToOperation (sort commutes) op)
      (op.deepSorted commutes ignored)) :
    Returns ignored (applyToMoments (sort commutes) p.moments)
      (p.moments.map fun m => ⟨m.operations.map (Operation.deepSorted commutes ignored)⟩) := by
  refine returns_applyToMoments h fun m hm => ?_
  have hops : ∀ op ∈ m.operations, op.WellFormed := fun op hop =>
    hp.operations op (List.mem_flatMap.2 ⟨m, hm, hop⟩)
  exact pairwise_apart_deepSorted hops (hp.apart m hm)

theorem applyToOperation_call (pass : Pass) (c : Call) (qubits : List Qubit) (tags : List Tag) :
    applyToOperation pass ⟨.call c, qubits, tags⟩ = (do
      if (← get).ignores ⟨.call c, qubits, tags⟩ then return ⟨.call c, qubits, tags⟩
      let moments ← applyToMoments pass c.program.moments
      let inner ← pass.run ⟨moments, c.program.tags⟩
      let call ← ofBuild (fun e => .failed pass.name e.message) (c.withProgram inner)
      return (Operation.ofCall call).withTags tags) := by
  obtain ⟨⟨moments, programTags⟩, settings⟩ := c
  rw [applyToOperation]

/-- **The checks let the sorted programs of calls through.** -/
theorem returns_applyToOperation_sort {op : Operation} (h : op.WellFormed) :
    Returns ignored (applyToOperation (sort commutes) op) (op.deepSorted commutes ignored) := by
  induction op using Operation.nestingInduction with
  | gate | measure | reset | guarded => rw [applyToOperation]; exact .pure _
  | call c qubits tags ih =>
    cases h with
    | call hp hvalid =>
      obtain ⟨p, s⟩ := c
      have hlike : (p.deepSorted commutes ignored).Alike p :=
        Program.deepSorted_alike fun op hop => Operation.deepSorted_alike (hp.operations op hop)
      have hcall : Call.withProgram ⟨p, s⟩ (p.deepSorted commutes ignored) =
          .ok ⟨p.deepSorted commutes ignored, s⟩ :=
        Call.checked_eq_ok ((hlike.fault?_eq s).trans hvalid)
      rw [applyToOperation_call, Operation.deepSorted_call]
      refine Returns.get_bind fun context hcontext => ?_
      have hignores : context.ignores ⟨.call ⟨p, s⟩, Call.qubits ⟨p, s⟩, tags⟩ =
          tags.any (ignored.contains ·) := by
        rw [PassContext.ignores, hcontext, Operation.hasAnyTag]
      rw [hignores]
      split_ifs
      · exact .pure _
      · exact (returns_applyToMoments_sort hp fun op hop => ih op hop (hp.operations op hop)).bind
          ((returns_run_sort _).bind ((Returns.ofBuild hcall).bind (.pure _)))

/-- **On a well-formed program the sort returns the sorted program**, in a deep
    context the deeply sorted one. -/
theorem apply_sort (commutes : Commutation) {p : Program} (hp : p.WellFormed)
    (context : PassContext) : ∃ context', ((sort commutes).apply p).run.run context =
      (.ok (if context.deep then p.deepSorted commutes context.ignoredTags
        else p.sorted commutes), context') := by
  have hmoments : Returns context.ignoredTags (applyToMoments (sort commutes) p.moments) _ :=
    returns_applyToMoments_sort hp fun op hop =>
      returns_applyToOperation_sort (hp.operations op hop)
  have hdeep : Returns context.ignoredTags (do
      let moments ← applyToMoments (sort commutes) p.moments
      (sort commutes).run ⟨moments, p.tags⟩) (p.deepSorted commutes context.ignoredTags) :=
    hmoments.bind (returns_run_sort _)
  have happly : ((sort commutes).apply p).run.run context = (if context.deep then do
      let moments ← applyToMoments (sort commutes) p.moments
      (sort commutes).run ⟨moments, p.tags⟩
    else (sort commutes).run p).run.run context := rfl
  rw [happly]
  split_ifs
  · obtain ⟨context', hrun, -⟩ := hdeep context rfl
    exact ⟨context', hrun⟩
  · exact ⟨_, run_sort commutes p context⟩

end Pass

end QuantumProgram
