/-
  QuantumProgram — the rules of commutation are sound on gates.

  A model of the gates gives every gate operation an operator that acts as the
  gate says: diagonal gates by factors, flips and rotations about the first two
  axes by combinations of the identity with a flip, the controlled flip as it
  is, and all others by any operator on their own qubits.  In every model, gate
  operations that the rules let swap have operators that commute
  (`ruleCommutes_sound`).
-/
import Mathlib
import QuantumProgram.Proofs.Dependence
import QuantumProgram.Proofs.Equality
import QuantumProgram.Proofs.Operators
import QuantumProgram.Proofs.WellFormed

namespace QuantumProgram

variable {R : Type*} [CommRing R]

/-! ## What gates do -/

/-- The operator acts on the qubits as the gate does. -/
def ActsAs (i : R) (U : Operator R) (qubits : List Qubit) : Gate → Prop
  | .standard g =>
    match g with
    | .id | .z | .s | .sdg | .t | .tdg | .rz _ | .phase _ | .cz | .globalPhase _ =>
      DiagonalOn qubits U
    | .x => ∃ q, qubits = [q] ∧ U = bitFlip q
    | .y => ∃ q, qubits = [q] ∧ U = turnedFlip i q
    | .rx _ => ∃ q, qubits = [q] ∧ ∃ c s : R, U = c • 1 + s • bitFlip q
    | .ry _ => ∃ q, qubits = [q] ∧ ∃ c s : R, U = c • 1 + s • turnedFlip i q
    | .cx => ∃ c t, qubits = [c, t] ∧ U = controlledFlip c t
    | .h | .swap | .ccx => LocalTo qubits U
  | .custom _ => LocalTo qubits U

/-- Operators for the gate operations, the same for equal operations, each
    acting as its gate does. -/
structure GateModel (R : Type*) [CommRing R] where
  i : R
  i_mul_i : i * i = -1
  act : Operation → Operator R
  act_congr : ∀ {a b : Operation}, (a == b) = true → act a = act b
  acts_as : ∀ {op : Operation} {g : Gate}, op.WellFormed → op.gate? = some g →
    ActsAs i (act op) op.qubits g

/-! ## A model over the Gaussian integers -/

/-- Multiplication by `w` where the bits of all given qubits are set. -/
def phased (w : R) (qubits : List Qubit) : Operator R :=
  moved (fun b => if ∀ q ∈ qubits, b q = true then w else 1) id

theorem diagonalOn_phased (w : R) (qubits : List Qubit) : DiagonalOn qubits (phased w qubits) :=
  ⟨fun v => if ∀ q, v q = true then w else 1, fun ψ b => by simp [phased, moved_apply, Bits.on]⟩

/-- The operators of the gates that take no more than fourth roots of unity;
    the others do nothing. -/
def gaussianOperator (qubits : List Qubit) : StandardGate → Operator GaussianInt
  | .x => qubits.head?.elim 1 bitFlip
  | .y => qubits.head?.elim 1 (turnedFlip ⟨0, 1⟩)
  | .z | .cz => phased (-1) qubits
  | .s => phased ⟨0, 1⟩ qubits
  | .sdg => phased ⟨0, -1⟩ qubits
  | .cx =>
    match qubits with
    | [c, t] => controlledFlip c t
    | _ => 1
  | _ => 1

theorem gaussianOperator_congr {qubits : List Qubit} {g g' : StandardGate}
    (h : (g == g') = true) : gaussianOperator qubits g = gaussianOperator qubits g' := by
  have hindex := StandardGate.index_eq_of_beq h
  cases g <;> cases g' <;> first | rfl | simp [StandardGate.index] at hindex

theorem actsAs_gaussianOperator {qubits : List Qubit} {g : StandardGate}
    (count : qubits.length = g.arity) :
    ActsAs ⟨0, 1⟩ (gaussianOperator qubits g) qubits (.standard g) := by
  have one_eq (U : Operator GaussianInt) : 1 = (1 : GaussianInt) • 1 + (0 : GaussianInt) • U := by
    rw [one_smul, zero_smul, add_zero]
  cases g
  case x | y =>
    obtain ⟨q, rfl⟩ := List.length_eq_one_iff.1 count
    exact ⟨q, rfl, rfl⟩
  case rx | ry =>
    obtain ⟨q, rfl⟩ := List.length_eq_one_iff.1 count
    exact ⟨q, rfl, 1, 0, one_eq _⟩
  case cx =>
    obtain ⟨c, t, rfl⟩ := List.length_eq_two.1 count
    exact ⟨c, t, rfl, rfl⟩
  case z | cz | s | sdg => exact diagonalOn_phased _ _
  case h | swap | ccx => exact (diagonalOn_one qubits).localTo
  all_goals exact diagonalOn_one qubits

/-- The operators as a model; custom gates do nothing. -/
def gaussianModel : GateModel GaussianInt where
  i := ⟨0, 1⟩
  i_mul_i := rfl
  act op :=
    match op.action with
    | .gate (.standard g) => gaussianOperator op.qubits g
    | _ => 1
  act_congr {a b} h := by
    obtain ⟨x, qubits, tags⟩ := a
    obtain ⟨y, qubits', tags'⟩ := b
    change Operation.beq _ _ = true at h
    rw [Operation.beq, Bool.and_eq_true, Bool.and_eq_true, decide_eq_true_eq] at h
    obtain ⟨⟨haction, rfl⟩, -⟩ := h
    rcases x with (g | g) | _ | _ | ⟨⟨_, _⟩, _⟩ | _ <;>
      rcases y with (g' | g') | _ | _ | ⟨⟨_, _⟩, _⟩ | _
    case gate.standard.gate.standard => exact gaussianOperator_congr haction
    all_goals first | rfl | cases haction
  acts_as {op g} hop hg := by
    cases hop with
    | @gate g' qubits tags count _ =>
      obtain rfl : g' = g := Option.some.inj hg
      rcases g' with g' | _
      · exact actsAs_gaussianOperator count
      · exact (diagonalOn_one qubits).localTo
    | measure | reset | call | guarded => cases hg

/-! ## The rules -/

namespace ActsAs

variable {i : R} {U V : Operator R} {qubits qubits' : List Qubit}

theorem diagonalOn {g : Gate} (h : ActsAs i U qubits g) (hg : g.isDiagonal = true) :
    DiagonalOn qubits U := by
  rcases g with g | _
  · cases g <;> first | exact h | cases hg
  · cases hg

theorem aboutX {g : StandardGate} (h : ActsAs i U qubits (.standard g))
    (hg : g.isAboutX = true) : ∃ q, qubits = [q] ∧ ∃ c s : R, U = c • 1 + s • bitFlip q := by
  cases g
  case x =>
    obtain ⟨q, hq, hU⟩ := h
    exact ⟨q, hq, 0, 1, hU.trans (eq_combination _)⟩
  case rx => exact h
  all_goals cases hg

theorem aboutY {g : StandardGate} (h : ActsAs i U qubits (.standard g))
    (hg : g.isAboutY = true) : ∃ q, qubits = [q] ∧ ∃ c s : R, U = c • 1 + s • turnedFlip i q := by
  cases g
  case y =>
    obtain ⟨q, hq, hU⟩ := h
    exact ⟨q, hq, 0, 1, hU.trans (eq_combination _)⟩
  case ry => exact h
  all_goals cases hg

/-- **Every gate is local to its qubits.** -/
theorem localTo {g : Gate} (h : ActsAs i U qubits g) : LocalTo qubits U := by
  rcases g with g | _
  · by_cases hX : g.isAboutX = true
    · obtain ⟨q, rfl, c, s, rfl⟩ := h.aboutX hX
      exact (localTo_bitFlip q).combination c s
    by_cases hY : g.isAboutY = true
    · obtain ⟨q, rfl, c, s, rfl⟩ := h.aboutY hY
      exact (localTo_turnedFlip i q).combination c s
    cases g
    case cx =>
      obtain ⟨c, t, rfl, rfl⟩ := h
      exact localTo_controlledFlip c t
    case x | rx => exact absurd rfl hX
    case y | ry => exact absurd rfl hY
    case h | swap | ccx => exact h
    all_goals exact DiagonalOn.localTo h
  · exact h

/-- The rule for a controlled flip and another gate is sound. -/
theorem commute_of_flipCommutes {g : StandardGate} {shared : List Qubit}
    (hU : ActsAs i U qubits (.standard .cx)) (hV : ActsAs i V qubits' (.standard g))
    (distinct : qubits.Nodup) (hshared : ∀ q ∈ qubits, q ∈ qubits' → q ∈ shared)
    (h : flipCommutes qubits qubits' g shared = some true) : Commute U V := by
  obtain ⟨c, t, rfl, rfl⟩ := hU
  have hne : c ≠ t := by simpa using distinct
  unfold flipCommutes at h
  split_ifs at h with hdiag hX
  · -- all common qubits are the control, so the target is not among them
    have hcontrol : ∀ q ∈ shared, q = c := by simpa using h
    refine commute_controlledFlip_diagonal (hV.diagonalOn hdiag) fun ht => ?_
    exact hne (hcontrol t (hshared t (by simp) ht)).symm
  · obtain ⟨q, rfl, x, s, rfl⟩ := hV.aboutX hX
    obtain rfl : q = t := by simpa using h
    exact commute_combination (commute_controlledFlip_bitFlip hne) x s

/-- The rules for gates on common qubits are sound. -/
theorem commute_of_gatesCommute {g h : Gate} {shared : List Qubit} (hU : ActsAs i U qubits g)
    (hV : ActsAs i V qubits' h) (distinct : qubits.Nodup) (distinct' : qubits'.Nodup)
    (hshared : ∀ q, q ∈ shared ↔ q ∈ qubits ∧ q ∈ qubits')
    (hrule : gatesCommute g h qubits qubits' shared = some true) : Commute U V := by
  unfold gatesCommute at hrule
  split_ifs at hrule with hdiag
  · rw [Bool.and_eq_true] at hdiag
    exact (hU.diagonalOn hdiag.1).commute (hV.diagonalOn hdiag.2)
  split at hrule
  case h_1 =>
    obtain ⟨c, t, rfl, rfl⟩ := hU
    obtain ⟨c', t', rfl, rfl⟩ := hV
    have hcross : c ≠ t' ∧ t ≠ c' := by simpa using hrule
    exact commute_controlledFlip hcross.1 hcross.2.symm
  case h_2 =>
    exact commute_of_flipCommutes hU hV distinct (fun q hq hq' => (hshared q).2 ⟨hq, hq'⟩) hrule
  case h_3 =>
    exact (commute_of_flipCommutes hV hU distinct' (fun q hq hq' => (hshared q).2 ⟨hq', hq⟩)
      hrule).symm
  case h_4 =>
    split_ifs at hrule with haxis
    rw [Bool.or_eq_true, Bool.and_eq_true, Bool.and_eq_true] at haxis
    rcases haxis with ⟨hg, hh⟩ | ⟨hg, hh⟩
    · obtain ⟨q, rfl, c, s, rfl⟩ := hU.aboutX hg
      obtain ⟨r, rfl, c', s', rfl⟩ := hV.aboutX hh
      exact commute_combinations (commute_bitFlip q r) c s c' s'
    · obtain ⟨q, rfl, c, s, rfl⟩ := hU.aboutY hg
      obtain ⟨r, rfl, c', s', rfl⟩ := hV.aboutY hh
      exact commute_combinations (commute_turnedFlip i q r) c s c' s'
  case h_5 => exact absurd hrule (by simp)

end ActsAs

theorem Operation.WellFormed.nodup_gate {op : Operation} {g : Gate} (h : op.WellFormed)
    (hg : op.gate? = some g) : op.qubits.Nodup := by
  cases h with
  | gate _ distinct => exact distinct
  | measure | reset | call | guarded => cases hg

/-- **The rules are sound on gates**: what they let swap commutes in every
    model. -/
theorem ruleCommutes_sound (m : GateModel R) {a b : Operation} {g h : Gate}
    (ha : a.WellFormed) (hb : b.WellFormed) (hg : a.gate? = some g) (hh : b.gate? = some h)
    (hrule : ruleCommutes a b = some true) (ψ : Amplitudes R) :
    m.act a (m.act b ψ) = m.act b (m.act a ψ) := by
  have hU := m.acts_as ha hg
  have hV := m.acts_as hb hh
  suffices hcomm : Commute (m.act a) (m.act b) from LinearMap.congr_fun hcomm.eq ψ
  unfold ruleCommutes at hrule
  dsimp only at hrule
  split_ifs at hrule with hkeys hshared heq
  · cases hrule
  · exact hU.localTo.commute hV.localTo (sharedQubits_isEmpty_iff.1 hshared)
  · rw [m.act_congr heq]
  · obtain ⟨_ | _ | _ | _ | _, qubits, tags⟩ := a <;> cases hg
    obtain ⟨_ | _ | _ | _ | _, qubits', tags'⟩ := b <;> cases hh
    exact hU.commute_of_gatesCommute hV (ha.nodup_gate rfl) (hb.nodup_gate rfl)
      (fun q => mem_sharedQubits) hrule

/-- A controlled phase that meets a controlled flip on the control commutes
    with it. -/
theorem gaussianModel_cz_cx :
    ruleCommutes ⟨.gate (.standard .cz), [.line 0, .line 2], []⟩
        ⟨.gate (.standard .cx), [.line 0, .line 1], []⟩ = some true ∧
      gaussianModel.act ⟨.gate (.standard .cz), [.line 0, .line 2], []⟩
          (gaussianModel.act ⟨.gate (.standard .cx), [.line 0, .line 1], []⟩ fun b =>
            if b (.line 1) then 1 else 2) =
        gaussianModel.act ⟨.gate (.standard .cx), [.line 0, .line 1], []⟩
          (gaussianModel.act ⟨.gate (.standard .cz), [.line 0, .line 2], []⟩ fun b =>
            if b (.line 1) then 1 else 2) :=
  ⟨rfl, ruleCommutes_sound gaussianModel (.gate rfl (by decide)) (.gate rfl (by decide)) rfl rfl
    rfl _⟩

end QuantumProgram
