/-
  QuantumProgram — the sort keeps the meaning of programs.

  A meaning is a map of operations into a monoid under which operations that
  the structural rules let swap commute; a program means the product over its
  operations in time order.  The sort keeps this product, and in a deep context
  it does so if a call is seen through the product over its program only
  (`sort_preserves_product`).
-/
import QuantumProgram.Proofs.OutsideReads
import QuantumProgram.Proofs.Preservation

namespace QuantumProgram

variable {M : Type*} [Monoid M] {φ : Operation → M}

/-- The product over the operations of a program in time order. -/
def Program.product (φ : Operation → M) (p : Program) : M := (p.operations.map φ).prod

/-- Of the program of a valid call only the product over its operations counts,
    besides the settings of the call and the qubits and tags of the operation. -/
def CallsByProduct (φ : Operation → M) : Prop :=
  ∀ (p q : Program) (s : CallSettings) (tags : List Tag),
    Call.WellFormed ⟨p, s⟩ → Call.WellFormed ⟨q, s⟩ →
    Call.qubits ⟨p, s⟩ = Call.qubits ⟨q, s⟩ → p.product φ = q.product φ →
      φ ((Operation.ofCall ⟨p, s⟩).withTags tags) = φ ((Operation.ofCall ⟨q, s⟩).withTags tags)

/-- Both rearrangements of the sort keep the product: its swaps are proved by
    the rules, and the packing swaps only operations that are not dependent. -/
theorem product_sorted {p : Program} (commute : ∀ a ∈ p.operations, ∀ b ∈ p.operations,
    ruleCommutes a b = some true → φ a * φ b = φ b * φ a) :
    (p.sorted ruleCommutes).product φ = p.product φ := by
  have hsort := Sorting.rearranged_sortOperations ruleCommutes p.operations
  have hmem : ∀ {a}, a ∈ sortOperations ruleCommutes p.operations ↔ a ∈ p.operations :=
    hsort.perm.mem_iff
  have hpack := (Packing.rearranged_ofOperations (sortOperations ruleCommutes p.operations)).prod_eq
    fun a ha b hb h => commute a (hmem.1 ha) b (hmem.1 hb) (ruleCommutes_of_not_dependent h)
  refine hpack.trans (hsort.prod_eq fun a ha b hb h => commute a ha b hb ?_)
  rw [Sorting.passes, Bool.and_eq_true, decide_eq_true_eq] at h
  exact h.2

section
variable {ignored : List Tag} (commute : ∀ a b : Operation, a.WellFormed → b.WellFormed →
  ruleCommutes a b = some true → φ a * φ b = φ b * φ a)
include commute

/-- The deep sort of a program keeps the product if it keeps the meaning of the
    operations. -/
theorem product_deepSorted {p : Program} (hp : p.WellFormed)
    (h : ∀ op ∈ p.operations, φ (op.deepSorted ruleCommutes ignored) = φ op) :
    (p.deepSorted ruleCommutes ignored).product φ = p.product φ := by
  have hops : ∀ op ∈ Program.operations ⟨p.moments.map fun m =>
      ⟨m.operations.map (Operation.deepSorted ruleCommutes ignored)⟩, p.tags⟩, op.WellFormed := by
    rw [Program.operations_mapMoments, List.forall_mem_map]
    exact fun op hop => (hp.operations op hop).deepSorted
  rw [Program.deepSorted, product_sorted fun a ha b hb => commute a b (hops a ha) (hops b hb),
    Program.product, Program.product, Program.operations_mapMoments, List.map_map]
  exact congrArg List.prod (List.map_congr_left h)

/-- **The deep sort of an operation has the meaning of the operation.** -/
theorem map_deepSorted (calls : CallsByProduct φ) {op : Operation} (h : op.WellFormed) :
    φ (op.deepSorted ruleCommutes ignored) = φ op := by
  induction op using Operation.nestingInduction with
  | gate | measure | reset | guarded => rfl
  | call c qubits tags ih =>
    rw [Operation.deepSorted_call]
    split_ifs
    · rfl
    cases h with
    | call hp hvalid =>
      obtain ⟨p, s⟩ := c
      have hlike : (p.deepSorted ruleCommutes ignored).Alike p :=
        Program.deepSorted_alike fun op hop => Operation.deepSorted_alike (hp.operations op hop)
      have hcall : Call.WellFormed ⟨p.deepSorted ruleCommutes ignored, s⟩ :=
        ⟨hp.deepSorted, (hlike.fault?_eq s).trans hvalid⟩
      exact calls _ p s tags hcall ⟨hp, hvalid⟩ (hlike.call_qubits s)
        (product_deepSorted commute hp fun op hop => ih op hop (hp.operations op hop))

end

namespace Pass

/-- **The sort keeps the meaning of every program.**  Of a program that is sorted
    alone only the meanings of its own operations have to commute; in a deep
    context the programs of calls are sorted as well. -/
theorem sort_preserves_product :
    (∀ (p : Program) (context : PassContext),
      (∀ a ∈ p.operations, ∀ b ∈ p.operations,
        ruleCommutes a b = some true → φ a * φ b = φ b * φ a) →
      ∃ q context', ((sort ruleCommutes).run p).run.run context = (.ok q, context') ∧
        q.product φ = p.product φ) ∧
    ((∀ a b : Operation, a.WellFormed → b.WellFormed →
        ruleCommutes a b = some true → φ a * φ b = φ b * φ a) →
      CallsByProduct φ → ∀ (p : Program) (context : PassContext), p.WellFormed → ∃ q context',
      ((sort ruleCommutes).apply p).run.run context = (.ok q, context') ∧
        q.product φ = p.product φ) := by
  constructor
  · exact fun p context commute => ⟨_, _, run_sort _ p context, product_sorted commute⟩
  · intro commute calls p context hp
    obtain ⟨context', hrun⟩ := apply_sort ruleCommutes hp context
    refine ⟨_, context', hrun, ?_⟩
    split_ifs
    · exact product_deepSorted commute hp fun op hop =>
        map_deepSorted commute calls (hp.operations op hop)
    · exact product_sorted fun a ha b hb =>
        commute a b (hp.operations a ha) (hp.operations b hb)

/-! The order of the measurements into one key is such a meaning. -/

/-- The query for the measurements into the key, as a word with the qubits of each.
    A call repeats the word of its program under the new names of the qubits; one
    that renames keys or marks them writes other keys. -/
def measuredWords (key : String) : Query (FreeMonoid (List Qubit)) where
  gate _ := 1
  measure k qubits := if k = key then .of qubits else 1
  reset := 1
  call c words :=
    if c.settings.keyMap.toList = [] ∧ c.settings.effectiveIds = none then
      FreeMonoid.map (List.map c.settings.renameQubit) (words.prod ^ c.runs)
    else 1
  guarded word _ := word

def measuredWord (key : String) (op : Operation) : FreeMonoid (List Qubit) :=
  op.ask (measuredWords key)

theorem measuredWord_call (key : String) (c : Call) (qubits : List Qubit) (tags : List Tag) :
    measuredWord key ⟨.call c, qubits, tags⟩ =
      if c.settings.keyMap.toList = [] ∧ c.settings.effectiveIds = none then
        FreeMonoid.map (List.map c.settings.renameQubit)
          (c.program.product (measuredWord key) ^ c.runs)
      else 1 := Operation.ask_call _ c qubits tags

/-- A call that neither renames keys nor marks them writes those of its program. -/
theorem mem_measurementKeys_of_plain {c : Call} {key : String} {op : Operation}
    (hkeys : c.settings.keyMap.toList = []) (hids : c.settings.effectiveIds = none)
    (hop : op ∈ c.program.operations) (h : key ∈ op.measurementKeys) :
    key ∈ c.measurementKeys := by
  refine (Call.mem_measurementKeys_of_effectiveIds_eq_none hids).2
    ⟨key, Program.mem_measurementKeys.2 ⟨op, hop, h⟩, ?_⟩
  rw [CallSettings.renameKey, SortedMap.getD, SortedMap.get?, hkeys]
  rfl

theorem measuredWord_eq_one {key : String} {op : Operation} (h : key ∉ op.measurementKeys) :
    measuredWord key op = 1 := by
  induction op using Operation.nestingInduction with
  | gate | reset => rfl
  | measure k qubits tags =>
    refine if_neg fun hk => h ?_
    subst hk
    exact SortedSet.mem_singleton.2 rfl
  | call c qubits tags ih =>
    rw [Operation.measurementKeys_call] at h
    rw [measuredWord_call]
    split_ifs with hplain
    · have hword : c.program.product (measuredWord key) = 1 :=
        List.prod_eq_one (List.forall_mem_map.2 fun op hop =>
          ih op hop fun hkey => h (mem_measurementKeys_of_plain hplain.1 hplain.2 hop hkey))
      rw [hword, one_pow, map_one]
    · rfl
  | guarded op conditions qubits tags ih => exact ih h

theorem measuredWord_commute (key : String) (a b : Operation) (h : ruleCommutes a b = some true) :
    measuredWord key a * measuredWord key b = measuredWord key b * measuredWord key a := by
  by_cases ha : key ∈ a.measurementKeys
  · by_cases hb : key ∈ b.measurementKeys
    · have hconflict : keysConflict a b = true :=
        keysConflict_eq_true_iff.2 (Or.inl ⟨key, ha, Or.inl hb⟩)
      simp [ruleCommutes, hconflict] at h
    · rw [measuredWord_eq_one hb, mul_one, one_mul]
  · rw [measuredWord_eq_one ha, mul_one, one_mul]

theorem callsByProduct_measuredWord (key : String) : CallsByProduct (measuredWord key) := by
  intro p q s tags _ _ _ hproduct
  rw [Operation.withTags_ofCall, Operation.withTags_ofCall, measuredWord_call, measuredWord_call,
    hproduct]
  rfl

/-- Two measurements into one key with a call between them that measures into it
    twice, and whose program the sort puts into another order. -/
def measuredAround : Program :=
  let flip (a b : Int64) : Operation := ⟨.gate (.standard .cz), [.line a, .line b], []⟩
  let call : Call :=
    ⟨⟨[⟨[flip 2 1, ⟨.measure "m", [.line 5], []⟩]⟩, ⟨[flip 0 1]⟩], []⟩, { repetitions := 2 }⟩
  ⟨[⟨[⟨.measure "m", [.line 4], []⟩]⟩, ⟨[.ofCall call]⟩, ⟨[⟨.measure "m", [.line 3], []⟩]⟩], []⟩

theorem measuredAround_wellFormed : measuredAround.WellFormed := by
  refine .intro (by decide) (List.forall_mem_cons.2 ⟨.measure (by decide),
    List.forall_mem_cons.2 ⟨.call (.intro (by decide) ?_) rfl,
      List.forall_mem_singleton.2 (.measure (by decide))⟩⟩)
  exact List.forall_mem_cons.2 ⟨.gate rfl (by decide), List.forall_mem_cons.2
    ⟨.measure (by decide), List.forall_mem_singleton.2 (.gate rfl (by decide))⟩⟩

/-- The deep sort changes the program of the call, which still measures after the
    first measurement and before the last. -/
theorem sort_preserves_measuredWord : ∃ q context',
    ((sort ruleCommutes).apply measuredAround).run.run { deep := true } = (.ok q, context') ∧
      (q == measuredAround) = false ∧
      q.product (measuredWord "m") = measuredAround.product (measuredWord "m") ∧
      measuredAround.product (measuredWord "m") =
        FreeMonoid.ofList [[.line 4], [.line 5], [.line 5], [.line 3]] := by
  obtain ⟨q, context', hrun, hproduct⟩ := sort_preserves_product.2
    (fun a b _ _ => measuredWord_commute "m" a b) (callsByProduct_measuredWord "m")
    measuredAround { deep := true } measuredAround_wellFormed
  have hchanged : (((sort ruleCommutes).apply measuredAround).run.run
      { deep := true }).1.toOption.map (· == measuredAround) = some false := by decide
  rw [hrun] at hchanged
  exact ⟨q, context', hrun, Option.some.inj hchanged, hproduct, rfl⟩

end Pass

end QuantumProgram
