/-
  QuantumProgram — inverting twice.

  The inverse of a well-formed operation has an inverse, which is the operation
  again up to what is not an involution: the negation of angles, the reciprocal
  of factors and the negation of numbers of repetitions, which stops at the end
  of the range (`Operation.turnedTwice`).  For a call this needs its checks:
  those of the call and of its inverse together pass the inverse of the inverse
  (`Call.fault?_turnedTwice`).  From the operations the same follows for
  programs (`Program.inverse_twice`).
-/
import QuantumProgram.Proofs.Built
import QuantumProgram.Proofs.Negation

namespace QuantumProgram

/-! ## Gates -/

/-- The gate with each angle negated twice and each factor inverted twice. -/
def StandardGate.turnedTwice : StandardGate → StandardGate
  | rx e => rx e.negated.negated
  | ry e => ry e.negated.negated
  | rz e => rz e.negated.negated
  | phase e => phase e.negated.negated
  | globalPhase c => globalPhase c.inverse.inverse
  | g => g

theorem StandardGate.inverse_inverse (g : StandardGate) : g.inverse.inverse = g.turnedTwice := by
  cases g <;> rfl

namespace Gate

def turnedTwice : Gate → Gate
  | standard g => standard g.turnedTwice
  | custom g => custom g

variable {g g' : Gate}

theorem inverse?_inverse? (h : g.inverse? = some g') : g'.inverse? = some g.turnedTwice := by
  cases g with
  | standard g =>
    obtain rfl := Option.some.inj h
    rw [inverse?, g.inverse_inverse]
    rfl
  | custom g =>
    obtain ⟨name, hname, rfl⟩ := inverse?_custom_eq_some_iff.1 h
    rw [inverse?_custom_eq_some_iff]
    exact ⟨g.name, rfl, by rw [turnedTwice, ← hname]⟩

theorem freeNames_of_inverse? (h : g.inverse? = some g') : g'.freeNames = g.freeNames := by
  cases g with
  | standard g =>
    obtain rfl := Option.some.inj h
    cases g with
    | rx e | ry e | rz e | phase e =>
      exact congrArg (fun s => SortedSet.unions [s]) e.freeNames_negated
    | _ => rfl
  | custom g =>
    obtain ⟨name, -, rfl⟩ := inverse?_custom_eq_some_iff.1 h
    rfl

end Gate

/-! ## Calls -/

/-- The negated number, held at the end of the range. -/
def saturatingNeg (n : Int64) : Int64 := if n = Int64.minValue then Int64.maxValue else -n

theorem toInt_saturatingNeg (n : Int64) :
    (saturatingNeg n).toInt = min (2 ^ 63 - 1) (-n.toInt) := by
  rw [saturatingNeg]
  split_ifs with hmin
  · rw [hmin]
    decide
  · have hne : n.toInt ≠ -2 ^ 63 := fun h =>
      hmin (Int64.toInt_inj.1 (h.trans Int64.toInt_minValue.symm))
    have hlow := n.le_toInt
    have hhigh := n.toInt_lt
    rw [Int64.toInt_neg, Int.bmod_eq_of_le (by omega) (by omega)]
    omega

theorem Call.saturatingMul_neg_one (n : Int64) : saturatingMul n (-1) = saturatingNeg n := by
  have hlow := n.le_toInt
  have hhigh := n.toInt_lt
  have hproduct : max Int64.minValue.toInt
      (min Int64.maxValue.toInt (n.toInt * (-1 : Int64).toInt)) = (saturatingNeg n).toInt := by
    have hone : (-1 : Int64).toInt = -1 := rfl
    rw [toInt_saturatingNeg, Int64.toInt_minValue, Int64.toInt_maxValue, hone]
    omega
  rw [saturatingMul, hproduct, Int64.ofInt_toInt]

theorem saturatingNeg_lt_zero_iff (n : Int64) : saturatingNeg n < 0 ↔ 0 < n := by
  rw [Int64.lt_iff_toInt_lt, Int64.lt_iff_toInt_lt, toInt_saturatingNeg]
  have hzero : (0 : Int64).toInt = 0 := rfl
  omega

theorem zero_lt_saturatingNeg_iff (n : Int64) : 0 < saturatingNeg n ↔ n < 0 := by
  rw [Int64.lt_iff_toInt_lt, Int64.lt_iff_toInt_lt, toInt_saturatingNeg]
  have hzero : (0 : Int64).toInt = 0 := rfl
  omega

theorem natAbs_saturatingNeg_saturatingNeg (n : Int64) :
    (saturatingNeg (saturatingNeg n)).toInt.natAbs = (saturatingNeg n).toInt.natAbs := by
  have hlow := n.le_toInt
  have hhigh := n.toInt_lt
  rw [toInt_saturatingNeg (saturatingNeg n), toInt_saturatingNeg n]
  omega

namespace Call

/-- The call with its number of repetitions negated twice. -/
def turnedTwice (c : Call) : Call :=
  { c with settings :=
    { c.settings with repetitions := saturatingNeg (saturatingNeg c.settings.repetitions) } }

theorem repeatedIds_neg_one (ids? : Option (List String)) : repeatedIds (-1) ids? = ids? := by
  cases ids? <;> rfl

theorem scaled_neg_one (c : Call) :
    c.scaled (-1) =
      { c with settings :=
        { c.settings with repetitions := saturatingNeg c.settings.repetitions } } := by
  rw [scaled, saturatingMul_neg_one, repeatedIds_neg_one]

theorem scaled_scaled_neg_one (c : Call) : (c.scaled (-1)).scaled (-1) = c.turnedTwice := by
  rw [scaled_neg_one, scaled_neg_one, turnedTwice]

theorem directionFault?_eq_none_iff {c : Call} {invertible : Bool} :
    c.directionFault? invertible = none ↔ (c.settings.repetitions < 0 → invertible = true) := by
  simp [directionFault?]

theorem repetitions_of_untilFault? {c : Call} {condition : Condition} (h : c.untilFault? = none)
    (huntil : c.settings.repeatUntil = some condition) : c.settings.repetitions = 1 := by
  by_contra hne
  simp [untilFault?, huntil, hne] at h

/-- A valid call whose inverse is valid does not wait for a condition: it would
    run once, and its inverse `-1` times. -/
theorem repeatUntil_eq_none_of_scaled {c : Call} (h : c.untilFault? = none)
    (hinv : (c.scaled (-1)).untilFault? = none) : c.settings.repeatUntil = none := by
  cases huntil : c.settings.repeatUntil with
  | none => rfl
  | some condition =>
    have hone : c.settings.repetitions = 1 := repetitions_of_untilFault? h huntil
    rw [scaled_neg_one] at hinv
    have hone' : saturatingNeg c.settings.repetitions = 1 := repetitions_of_untilFault? hinv huntil
    rw [hone] at hone'
    exact absurd hone' (by decide)

/-- **If a call and its inverse are valid, then so is the inverse of the
    inverse.** -/
theorem fault?_turnedTwice {c : Call} {invertible : Bool} (h : c.fault? invertible = none)
    (hinv : (c.scaled (-1)).fault? invertible = none) :
    c.turnedTwice.fault? invertible = none := by
  rw [fault?_eq_none_iff] at *
  obtain ⟨-, huntil, hdirection, hqubits⟩ := h
  obtain ⟨hids', huntil', -, -⟩ := hinv
  have hnone := repeatUntil_eq_none_of_scaled huntil huntil'
  rw [directionFault?_eq_none_iff] at *
  refine ⟨?_, ?_, fun hneg => hdirection ?_, hqubits⟩
  -- the least number has changed its absolute value by now, and keeps it
  · rw [scaled_neg_one] at hids'
    rw [← hids', idsFault?, idsFault?, runs, runs, turnedTwice]
    simp only [natAbs_saturatingNeg_saturatingNeg]
  · rw [untilFault?, turnedTwice, hnone]
  -- negated twice a number is negative only if it was negative before
  · rwa [turnedTwice, saturatingNeg_lt_zero_iff, zero_lt_saturatingNeg_iff] at hneg

end Call

/-! ## Operations -/

namespace Operation

/-- The operation with the angles and the factor of its gate, or the number of
    repetitions of its call, turned twice.  The program of a call is left
    alone. -/
def turnedTwice : Operation → Operation
  | ⟨.gate g, qubits, tags⟩ => ⟨.gate g.turnedTwice, qubits, tags⟩
  | ⟨.call c, qubits, tags⟩ => ⟨.call c.turnedTwice, qubits, tags⟩
  | op => op

variable {op op' : Operation}

/-- **The inverse of an operation has an inverse**, which is the operation up to
    what is turned twice. -/
theorem inverse?_inverse? (h : op.WellFormed) (hinv : op.inverse? = some op') :
    op'.inverse? = some op.turnedTwice := by
  cases h with
  | gate =>
    obtain ⟨g', hg', rfl⟩ := Option.map_eq_some_iff.1 hinv
    rw [Operation.inverse?, Gate.inverse?_inverse? hg']
    rfl
  | @call c tags program valid =>
    obtain ⟨hvalid, rfl⟩ := inverse?_call_eq_some_iff.1 hinv
    refine inverse?_call_eq_some_iff.2 ?_
    rw [Call.scaled_scaled_neg_one]
    exact ⟨Call.fault?_turnedTwice valid hvalid, rfl⟩
  | measure => exact absurd hinv (by simp [Operation.inverse?])
  | reset => exact absurd hinv (by simp [Operation.inverse?])
  | guarded => exact absurd hinv (by simp [Operation.inverse?])

theorem parameterNames_of_inverse? (hinv : op.inverse? = some op') :
    op'.parameterNames = op.parameterNames := by
  obtain ⟨action, qubits, tags⟩ := op
  cases action with
  | gate g =>
    obtain ⟨g', hg', rfl⟩ := Option.map_eq_some_iff.1 hinv
    exact Gate.freeNames_of_inverse? hg'
  | call c =>
    obtain ⟨-, rfl⟩ := inverse?_call_eq_some_iff.1 hinv
    rw [parameterNames_call, parameterNames_call]
    rfl
  | measure => exact absurd hinv (by simp [Operation.inverse?])
  | reset => exact absurd hinv (by simp [Operation.inverse?])
  | guarded => exact absurd hinv (by simp [Operation.inverse?])

end Operation

/-! ## Programs -/

namespace Program

/-- The program with its own operations turned twice. -/
def turnedTwice (p : Program) : Program :=
  ⟨p.moments.map fun m => ⟨m.operations.map Operation.turnedTwice⟩, p.tags⟩

variable {p q : Program}

theorem forall₂_inverseOperations (hinv : p.inverse? = some q) :
    List.Forall₂ (fun m m' => inverseOperations? m.operations = some m'.operations) p.moments
      q.moments.reverse := by
  obtain ⟨moments, hmoments, rfl⟩ := Option.map_eq_some_iff.1 hinv
  exact inverseMoments?_eq_some_iff.1 hmoments

theorem inverseOperations?_inverseOperations? {ops ops' : List Operation}
    (h : ∀ op ∈ ops, op.WellFormed) (hinv : inverseOperations? ops = some ops') :
    inverseOperations? ops' = some (ops.map Operation.turnedTwice) := by
  rw [inverseOperations?_eq_some_iff] at *
  rw [List.forall₂_map_right_iff]
  refine List.Forall₂.flip ?_
  refine ((List.forall₂_and_left _ _).2 ⟨h, hinv⟩).imp fun op op' hop => ?_
  exact Operation.inverse?_inverse? hop.1 hop.2

/-- **The inverse of a program has an inverse**, which is the program up to what
    is turned twice. -/
theorem inverse?_inverse? (h : p.WellFormed) (hinv : p.inverse? = some q) :
    q.inverse? = some p.turnedTwice := by
  have hmoments := forall₂_inverseOperations hinv
  rw [wellFormed_iff] at h
  have hback : List.Forall₂ (fun m' m'' => inverseOperations? m'.operations = some m''.operations)
      q.moments.reverse p.turnedTwice.moments := by
    rw [turnedTwice, List.forall₂_map_right_iff]
    refine List.Forall₂.flip ?_
    refine ((List.forall₂_and_left _ _).2 ⟨h, hmoments⟩).imp fun m m' hm => ?_
    exact inverseOperations?_inverseOperations? hm.1.operations hm.2
  have htags : q.tags = p.tags := by
    obtain ⟨_, -, rfl⟩ := Option.map_eq_some_iff.1 hinv
    rfl
  -- inversion reads the moments of `q` from the last to the first again
  rw [← List.forall₂_reverse_iff, List.reverse_reverse] at hback
  rw [inverse?, inverseMoments?_eq_some_iff.2 hback, Option.map_some, htags]
  rfl

/-- Up to their order, the operations of the inverse are the inverse
    operations. -/
theorem exists_perm_inverse? (hinv : p.inverse? = some q) :
    ∃ ops, q.operations.Perm ops ∧
      List.Forall₂ (fun op op' => op.inverse? = some op') p.operations ops := by
  refine ⟨q.moments.reverse.flatMap Moment.operations,
    ((List.reverse_perm q.moments).flatMap_right _).symm, ?_⟩
  refine List.rel_flatMap (forall₂_inverseOperations hinv) fun m m' h => ?_
  exact inverseOperations?_eq_some_iff.1 h

/-- The inverse acts on the same qubits with as many operations and the same
    parameters. -/
theorem queries_inverse? (h : p.WellFormed) (hinv : p.inverse? = some q) :
    q.tags = p.tags ∧ q.qubits = p.qubits ∧ q.operationCount = p.operationCount ∧
      q.parameterNames = p.parameterNames := by
  obtain ⟨ops, hperm, hops⟩ := exists_perm_inverse? hinv
  have hqubits : ops.map Operation.qubits = p.operations.map Operation.qubits := by
    rw [map_eq_map_iff_forall₂]
    refine List.Forall₂.flip ?_
    refine ((List.forall₂_and_left _ _).2 ⟨h.operations, hops⟩).imp fun op op' hop => ?_
    exact hop.1.qubits_inverse? hop.2
  have hnames : ops.map Operation.parameterNames = p.operations.map Operation.parameterNames := by
    rw [map_eq_map_iff_forall₂]
    exact hops.flip.imp fun op' op hop => Operation.parameterNames_of_inverse? hop
  refine ⟨?_, ?_, ?_, ?_⟩
  · obtain ⟨moments, -, rfl⟩ := Option.map_eq_some_iff.1 hinv
    rfl
  · refine SortedSet.ext fun x => ?_
    rw [Program.qubits, Program.qubits, SortedSet.mem_ofList, SortedSet.mem_ofList,
      (hperm.flatMap_right _).mem_iff, List.flatMap_def, List.flatMap_def, hqubits]
  · exact hperm.length_eq.trans hops.length_eq.symm
  · rw [parameterNames, parameterNames, ← hnames]
    exact SortedSet.unions_perm (hperm.map _)

/-- **Inverting twice.**  The inverse of a program has the tags, the qubits, as
    many operations and the parameters of the program, and it has an inverse in
    turn, which is the program with its own operations turned twice.  To negate
    an expression twice gives the expression back, unless it is the negation of
    a constant or of a negation, and it always keeps the names and the value. -/
theorem inverse_twice :
    (∀ p q : Program, Built (.program p) → p.inverse? = some q →
      q.tags = p.tags ∧ q.qubits = p.qubits ∧ q.operationCount = p.operationCount ∧
      q.parameterNames = p.parameterNames ∧ q.inverse? = some p.turnedTwice) ∧
    ∀ e : Expr,
      (e.negated.negated = e ↔ ¬ ((∃ v, e = .neg (.constant v)) ∨ ∃ f, e = .neg (.neg f))) ∧
      e.negated.negated.freeNames = e.freeNames ∧ e.negated.negated.value? = e.value? := by
  refine ⟨fun p q hbuilt hinv => ?_, fun e => ?_⟩
  · have h : p.WellFormed := hbuilt.wellFormed
    obtain ⟨htags, hqubits, hcount, hnames⟩ := queries_inverse? h hinv
    exact ⟨htags, hqubits, hcount, hnames, inverse?_inverse? h hinv⟩
  · refine ⟨e.negated_negated_eq_iff, ?_, e.value?_negated_negated⟩
    rw [Expr.freeNames_negated, Expr.freeNames_negated]

/-- A phase that is called twice, with ids. -/
def twoPhases : CallDraft where
  program := ⟨[⟨[⟨.gate (.standard .s), [.line 1], []⟩]⟩], []⟩
  repetitionIds := some ["a", "b"]

/-- A turn about an angle that is negated twice, and then the two phases. -/
def turnedPhases : Program :=
  ⟨[⟨[⟨.gate (.standard (.rx (.neg (.neg (.symbol "t"))))), [.line 0], [.name "turn"]⟩]⟩,
    ⟨[.ofCall twoPhases.call]⟩], [.int 1]⟩

theorem built_turnedPhases : Built (.program turnedPhases) := by
  have hturn : Built (.operation
      ⟨.gate (.standard (.rx (.neg (.neg (.symbol "t"))))), [.line 0], [.name "turn"]⟩) :=
    .withTags (.gate (Operation.ofGate_eq_ok_iff.2 ⟨rfl, by decide, rfl⟩)) [.name "turn"]
  have hphase : Built (.operation ⟨.gate (.standard .s), [.line 1], []⟩) :=
    .gate (Operation.ofGate_eq_ok_iff.2 ⟨rfl, by decide, rfl⟩)
  have hphases : Built (.program twoPhases.program) :=
    .ofMoments (List.forall_mem_singleton.2
      (.ofOperations (List.forall_mem_singleton.2 hphase) rfl)) []
  have hcall : Built (.operation (.ofCall twoPhases.call)) := .call (.build hphases rfl)
  exact .ofMoments (List.forall_mem_cons.2
    ⟨.ofOperations (List.forall_mem_singleton.2 hturn) rfl,
      List.forall_mem_singleton.2 (.ofOperations (List.forall_mem_singleton.2 hcall) rfl)⟩) _

/-- The double negation is gone after two inversions, and the two phases are
    back. -/
theorem inverse_twice_turnedPhases :
    ∃ q, turnedPhases.inverse? = some q ∧ q.qubits = turnedPhases.qubits ∧
      q.inverse? = some ⟨[⟨[⟨.gate (.standard (.rx (.symbol "t"))), [.line 0], [.name "turn"]⟩]⟩,
        ⟨[.ofCall twoPhases.call]⟩], [.int 1]⟩ := by
  have hinv : turnedPhases.inverse? = some
      ⟨[⟨[.ofCall (twoPhases.call.scaled (-1))]⟩,
        ⟨[⟨.gate (.standard (.rx (.neg (.symbol "t")))), [.line 0], [.name "turn"]⟩]⟩],
        [.int 1]⟩ := rfl
  obtain ⟨-, hqubits, -, -, hback⟩ := inverse_twice.1 _ _ built_turnedPhases hinv
  exact ⟨_, hinv, hqubits, hback⟩

end Program

end QuantumProgram
