/-
  QuantumProgram — what becomes of the number of repetitions.

  To repeat a call and to run it backwards multiply its number of repetitions
  (`Call.Turn`), and the product is held at the ends of the 64-bit range.  So the
  number is altered exactly if the product is outside of the range, which it cannot
  be with explicit ids: there would have to be as many of them.  Over a run of such
  steps the number is the product of all factors while this stays in the range, and
  the inverse of the inverse is the call again, but for one number, which has no
  negative.
-/
import QuantumProgram.Proofs.Repetition

namespace QuantumProgram

namespace Call

/-! ## Exact products -/

/-- The number is a 64-bit number. -/
def InRange (n : ℤ) : Prop := -2 ^ 63 ≤ n ∧ n < 2 ^ 63

variable {a b : Int64}

theorem toInt_saturatingMul_eq_iff :
    (saturatingMul a b).toInt = a.toInt * b.toInt ↔ InRange (a.toInt * b.toInt) := by
  rw [toInt_saturatingMul, InRange]
  omega

/-- A product that was cut off has another absolute value. -/
theorem inRange_of_natAbs_eq
    (h : a.toInt.natAbs * b.toInt.natAbs = (saturatingMul a b).toInt.natAbs) :
    InRange (a.toInt * b.toInt) := by
  rw [← Int.natAbs_mul, toInt_saturatingMul] at h
  rw [InRange]
  omega

theorem saturatingNeg_saturatingNeg {n : Int64} (h : n ≠ Int64.minValue) :
    saturatingNeg (saturatingNeg n) = n := by
  have hlow := n.le_toInt
  have hhigh := n.toInt_lt
  have hne : n.toInt ≠ -2 ^ 63 := fun hmin =>
    h (Int64.toInt_inj.1 (hmin.trans Int64.toInt_minValue.symm))
  rw [← Int64.toInt_inj, toInt_saturatingNeg, toInt_saturatingNeg]
  omega

/-! ## Steps -/

/-- A step from a call to the call with its number of repetitions multiplied. -/
inductive Turn where
  | repeated (factor : Int64)
  | inverse

/-- The number that the step multiplies by. -/
def Turn.factor : Turn → Int64
  | repeated factor => factor
  | inverse => -1

/-- The call after the step, if the step succeeds. -/
def Turn.next? : Turn → Call → Option Call
  | repeated factor, c => (c.repeated factor).toOption
  | inverse, c => c.inverse?

/-- The call after some steps, if all of them succeed. -/
def turned? (c : Call) (turns : List Turn) : Option Call :=
  turns.foldlM (fun c turn => turn.next? c) c

/-- The factors of the steps, multiplied. -/
def Turn.product (turns : List Turn) : ℤ := (turns.map fun turn => turn.factor.toInt).prod

variable {c d e : Call} {turn : Turn} {turns : List Turn}

theorem Turn.next?_eq_some_iff : turn.next? c = some d ↔ c.repeated turn.factor = .ok d := by
  have hoption (result : Except RepeatError Call) :
      result.toOption = some d ↔ result = .ok d := by
    cases result <;> simp [Except.toOption]
  cases turn with
  | repeated factor => exact hoption _
  | inverse => exact hoption _

theorem turned?_cons : c.turned? (turn :: turns) = (turn.next? c).bind fun d => d.turned? turns :=
  List.foldlM_cons

theorem repetitions_of_next? (h : turn.next? c = some d) :
    d.settings.repetitions.toInt =
      max (-2 ^ 63) (min (2 ^ 63 - 1) (c.settings.repetitions.toInt * turn.factor.toInt)) := by
  rw [(repeatedFrom_of_repeated (Turn.next?_eq_some_iff.1 h)).repetitions, toInt_saturatingMul]

/-- **A step alters the number exactly if the product is out of the range.** -/
theorem repetitions_eq_iff_of_next? (h : turn.next? c = some d) :
    d.settings.repetitions.toInt = c.settings.repetitions.toInt * turn.factor.toInt ↔
      InRange (c.settings.repetitions.toInt * turn.factor.toInt) := by
  rw [(repeatedFrom_of_repeated (Turn.next?_eq_some_iff.1 h)).repetitions,
    toInt_saturatingMul_eq_iff]

/-- A step that keeps the ids fitting, or the condition alone, did not alter the number. -/
theorem inRange_of_next? (hc : Built (.call c)) (h : turn.next? c = some d)
    (hextra : c.settings.repetitionIds ≠ none ∨ c.settings.repeatUntil ≠ none) :
    InRange (c.settings.repetitions.toInt * turn.factor.toInt) := by
  obtain ⟨-, hfault, -⟩ := repeated_eq_ok_iff.1 (Turn.next?_eq_some_iff.1 h)
  obtain ⟨hids, huntil, -⟩ := (fault?_scaled_eq_none_iff hc.wellFormed.valid).1 hfault
  obtain hsome | hsome := hextra
  · exact inRange_of_natAbs_eq (hids.resolve_left hsome)
  · have hone : (saturatingMul c.settings.repetitions turn.factor).toInt = 1 :=
      congrArg Int64.toInt (huntil.resolve_left hsome)
    rw [toInt_saturatingMul] at hone
    rw [InRange]
    omega

theorem built_of_next? (hc : Built (.call c)) (h : turn.next? c = some d) : Built (.call d) :=
  .repeatedCall hc (Turn.next?_eq_some_iff.1 h)

/-! ## Runs of steps -/

theorem built_of_turned? (hc : Built (.call c)) (h : c.turned? turns = some d) :
    Built (.call d) := by
  induction turns generalizing c with
  | nil => exact Option.some.inj h ▸ hc
  | cons turn turns ih =>
    rw [turned?_cons, Option.bind_eq_some_iff] at h
    obtain ⟨next, hnext, hrest⟩ := h
    exact ih (built_of_next? hc hnext) hrest

/-- The call has ids, or no product on the way is out of the range. -/
def StaysExact (c : Call) (turns : List Turn) : Prop :=
  c.settings.repetitionIds ≠ none ∨
    ∀ before, before <+: turns → InRange (c.settings.repetitions.toInt * Turn.product before)

theorem Turn.product_cons : product (turn :: turns) = turn.factor.toInt * product turns :=
  List.prod_cons

/-- Such a run begins with a step that does not alter the number, -/
theorem StaysExact.repetitions_next? (h : c.StaysExact (turn :: turns)) (hc : Built (.call c))
    (hnext : turn.next? c = some d) :
    d.settings.repetitions.toInt = c.settings.repetitions.toInt * turn.factor.toInt := by
  rw [repetitions_eq_iff_of_next? hnext]
  obtain hids | hrange := h
  · exact inRange_of_next? hc hnext (Or.inl hids)
  · have hfirst := hrange [turn] (List.prefix_append [turn] turns)
    rwa [Turn.product_cons, Turn.product, List.map_nil, List.prod_nil, mul_one] at hfirst

/-- and goes on as such a run. -/
theorem StaysExact.next? (h : c.StaysExact (turn :: turns)) (hc : Built (.call c))
    (hnext : turn.next? c = some d) : d.StaysExact turns := by
  have hstep := h.repetitions_next? hc hnext
  refine h.imp (fun hids => ?_) fun hrange before hbefore => ?_
  · exact (repeatedFrom_of_repeated (Turn.next?_eq_some_iff.1 hnext)).noIds.not.2 hids
  · have hlonger := hrange (turn :: before) (List.cons_prefix_cons.2 ⟨rfl, hbefore⟩)
    rwa [Turn.product_cons, ← mul_assoc, ← hstep] at hlonger

/-- **A run that stays exact multiplies all factors.** -/
theorem repetitions_of_turned? (hc : Built (.call c)) (hexact : c.StaysExact turns)
    (h : c.turned? turns = some d) :
    d.settings.repetitions.toInt = c.settings.repetitions.toInt * Turn.product turns := by
  induction turns generalizing c with
  | nil =>
    obtain rfl := Option.some.inj h
    exact (mul_one _).symm
  | cons turn turns ih =>
    rw [turned?_cons, Option.bind_eq_some_iff] at h
    obtain ⟨next, hnext, hrest⟩ := h
    rw [ih (built_of_next? hc hnext) (hexact.next? hc hnext) hrest,
      hexact.repetitions_next? hc hnext, Turn.product_cons, mul_assoc]

/-! ## Backwards twice -/

theorem eq_scaled_of_inverse? (h : c.inverse? = some d) : d = c.scaled (-1) := by
  have hturn : Turn.inverse.next? c = some d := h
  exact (repeated_eq_ok_iff.1 (Turn.next?_eq_some_iff.1 hturn)).2.2

theorem inverse?_inverse? (hd : c.inverse? = some d) (he : d.inverse? = some e) :
    e = c.turnedTwice := by
  rw [eq_scaled_of_inverse? he, eq_scaled_of_inverse? hd, scaled_scaled_neg_one]

theorem turnedTwice_eq_self_iff : c.turnedTwice = c ↔ c.settings.repetitions ≠ Int64.minValue := by
  constructor
  · intro h hmin
    have hcount : saturatingNeg (saturatingNeg c.settings.repetitions) = c.settings.repetitions :=
      congrArg (fun c : Call => c.settings.repetitions) h
    rw [hmin] at hcount
    exact absurd hcount (by decide)
  · intro h
    obtain ⟨program, settings⟩ := c
    rw [turnedTwice, saturatingNeg_saturatingNeg h]

/-- **What becomes of the number of repetitions.**  Whatever steps came before, a
    step multiplies the number by its factor and holds the product at the ends of the
    range: the number is the product exactly if this is in the range, as it always is
    for a call with ids or with a condition to end.  A run multiplies all factors if
    the call has ids or no product on the way is out of the range.  To run a call
    backwards twice gives the call again, except for the least number of repetitions,
    which becomes the next one. -/
theorem repetitions_of_turns {c : Call} (hc : Built (.call c)) :
    (∀ (turns : List Turn) (turn : Turn) (d e : Call),
      c.turned? turns = some d → turn.next? d = some e →
      e.settings.repetitions.toInt =
        max (-2 ^ 63) (min (2 ^ 63 - 1) (d.settings.repetitions.toInt * turn.factor.toInt)) ∧
      (e.settings.repetitions.toInt = d.settings.repetitions.toInt * turn.factor.toInt ↔
        InRange (d.settings.repetitions.toInt * turn.factor.toInt)) ∧
      (d.settings.repetitionIds ≠ none ∨ d.settings.repeatUntil ≠ none →
        e.settings.repetitions.toInt = d.settings.repetitions.toInt * turn.factor.toInt)) ∧
    (∀ turns d, c.turned? turns = some d → c.StaysExact turns →
      d.settings.repetitions.toInt = c.settings.repetitions.toInt * Turn.product turns) ∧
    ∀ d e, c.inverse? = some d → d.inverse? = some e →
      (e = c ↔ c.settings.repetitions ≠ Int64.minValue) ∧
      (c.settings.repetitions = Int64.minValue →
        e = { c with settings := { c.settings with repetitions := Int64.minValue + 1 } }) := by
  refine ⟨fun turns turn d e hd he => ?_, fun turns d hd hexact => ?_, fun d e hd he => ?_⟩
  · refine ⟨repetitions_of_next? he, repetitions_eq_iff_of_next? he, fun hextra => ?_⟩
    exact (repetitions_eq_iff_of_next? he).2 (inRange_of_next? (built_of_turned? hc hd) he hextra)
  · exact repetitions_of_turned? hc hexact hd
  · obtain rfl := inverse?_inverse? hd he
    refine ⟨turnedTwice_eq_self_iff, fun hmin => ?_⟩
    rw [turnedTwice, hmin]
    rfl

/-- The two phases, run backwards and then three times over, backwards again. -/
theorem repetitions_of_turns_twoPhases :
    ∃ d, Program.twoPhases.call.turned? [.inverse, .repeated (-3)] = some d ∧
      d.settings.repetitions.toInt = 6 := by
  obtain ⟨-, hrun, -⟩ := repetitions_of_turns built_twoPhases
  exact ⟨_, rfl, hrun [.inverse, .repeated (-3)] _ rfl (Or.inl (Option.some_ne_none _))⟩

/-- A phase that is run backwards as often as there is a number for it. -/
def leastTurns : CallDraft where
  program := Program.twoPhases.program
  repetitions := some Int64.minValue

/-- Run backwards, the phase is run once less, and twice backwards is another call. -/
theorem exists_altered_leastTurns :
    Built (.call leastTurns.call) ∧ ∃ d e,
      leastTurns.call.inverse? = some d ∧
      d.settings.repetitions.toInt ≠ leastTurns.call.settings.repetitions.toInt * -1 ∧
      d.inverse? = some e ∧ e ≠ leastTurns.call := by
  refine ⟨.build (d := leastTurns) (.programOf built_twoPhases) rfl, _, _, rfl, by decide, rfl, ?_⟩
  intro h
  have hcount := congrArg (fun c : Call => c.settings.repetitions) h
  exact absurd hcount (by decide)

end Call

end QuantumProgram
