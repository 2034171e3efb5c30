/-
  QuantumProgram — operators on states of qubits.

  A state gives every assignment of bits to the qubits an amplitude in a
  commutative ring.  An operator is local to some qubits if it is a matrix on
  their bits.  Operators that are local to different qubits commute
  (`LocalTo.commute`), and so do diagonal ones (`DiagonalOn.commute`); on common
  qubits a controlled flip commutes with what leaves its control alone and acts
  on its target by flips only.
-/
import Mathlib.Algebra.Module.LinearMap.End
import Mathlib.Algebra.BigOperators.Ring.Finset
import Mathlib.Data.Fintype.Pi
import Mathlib.Tactic
import QuantumProgram.Qubit

namespace QuantumProgram

/-- A bit for every qubit. -/
abbrev Bits := Qubit → Bool

/-- A bit for each of some qubits. -/
abbrev BitsOf (qubits : List Qubit) := {q // q ∈ qubits} → Bool

/-- The amplitudes of all assignments of bits. -/
abbrev Amplitudes (R : Type*) := Bits → R

/-- Linear operators on states. -/
abbrev Operator (R : Type*) [CommRing R] := Module.End R (Amplitudes R)

namespace Bits

/-- The bits of some qubits. -/
def on (b : Bits) (qubits : List Qubit) : BitsOf qubits := fun q => b q.1

/-- The bits with those of some qubits replaced. -/
def replace (b : Bits) {qubits : List Qubit} (v : BitsOf qubits) : Bits := fun q =>
  if h : q ∈ qubits then v ⟨q, h⟩ else b q

/-- The bits with that of one qubit negated. -/
def flip (q : Qubit) (b : Bits) : Bits := Function.update b q (!b q)

/-- The bits with that of the target negated if that of the control is set. -/
def flipIf (control target : Qubit) (b : Bits) : Bits :=
  if b control then flip target b else b

variable {b : Bits} {qubits qubits' : List Qubit} {q r : Qubit}

@[simp] theorem replace_on : b.replace (b.on qubits) = b := by
  funext q; simp [replace, on]

@[simp] theorem on_replace (v : BitsOf qubits) : (b.replace v).on qubits = v := by
  funext ⟨q, h⟩; simp [replace, on, h]

theorem on_replace_of_disjoint (h : ∀ q ∈ qubits, q ∉ qubits') (v : BitsOf qubits) :
    (b.replace v).on qubits' = b.on qubits' := by
  funext ⟨q, hq⟩
  exact dif_neg fun hq' => h q hq' hq

theorem replace_comm (h : ∀ q ∈ qubits, q ∉ qubits') (v : BitsOf qubits) (w : BitsOf qubits') :
    (b.replace v).replace w = (b.replace w).replace v := by
  funext q
  by_cases hq : q ∈ qubits
  · simp [replace, hq, h q hq]
  · simp [replace, hq]

theorem flip_of_ne (h : r ≠ q) : flip q b r = b r := Function.update_of_ne h _ _

theorem flip_comm : flip q (flip r b) = flip r (flip q b) := by
  rcases eq_or_ne q r with rfl | h
  · rfl
  · rw [flip, flip_of_ne h, flip, flip, flip_of_ne h.symm, flip, Function.update_comm h.symm]

theorem flipIf_of_ne (h : r ≠ q) {c : Qubit} : flipIf c q b r = b r := by
  unfold flipIf
  split_ifs
  · exact flip_of_ne h
  · rfl

end Bits

variable {R : Type*} [CommRing R]

/-! ## Local and diagonal operators -/

/-- The operator is a matrix on the bits of the given qubits. -/
def LocalTo (qubits : List Qubit) (U : Operator R) : Prop :=
  ∃ K : BitsOf qubits → BitsOf qubits → R, ∀ ψ b,
    U ψ b = ∑ v, K (b.on qubits) v * ψ (b.replace v)

/-- The operator multiplies by a function of the bits of the given qubits. -/
def DiagonalOn (qubits : List Qubit) (U : Operator R) : Prop :=
  ∃ f : BitsOf qubits → R, ∀ ψ b, U ψ b = f (b.on qubits) * ψ b

/-- **Operators that are local to different qubits commute.** -/
theorem LocalTo.commute {qubits qubits' : List Qubit} {U V : Operator R} (hU : LocalTo qubits U)
    (hV : LocalTo qubits' V) (h : ∀ q ∈ qubits, q ∉ qubits') : Commute U V := by
  obtain ⟨K, hK⟩ := hU
  obtain ⟨L, hL⟩ := hV
  refine LinearMap.ext fun ψ => funext fun b => ?_
  rw [Module.End.mul_apply, Module.End.mul_apply, hK, hL]
  simp only [hL, hK, Finset.mul_sum]
  rw [Finset.sum_comm]
  refine Finset.sum_congr rfl fun w _ => Finset.sum_congr rfl fun v _ => ?_
  rw [Bits.on_replace_of_disjoint h, Bits.on_replace_of_disjoint fun q hq hq' => h q hq' hq,
    Bits.replace_comm h, mul_left_comm]

theorem LocalTo.add {qubits : List Qubit} {U V : Operator R} (hU : LocalTo qubits U)
    (hV : LocalTo qubits V) : LocalTo qubits (U + V) := by
  obtain ⟨K, hK⟩ := hU
  obtain ⟨L, hL⟩ := hV
  refine ⟨fun u v => K u v + L u v, fun ψ b => ?_⟩
  simp only [LinearMap.add_apply, Pi.add_apply, hK, hL, add_mul, Finset.sum_add_distrib]

theorem LocalTo.smul {qubits : List Qubit} {U : Operator R} (hU : LocalTo qubits U) (c : R) :
    LocalTo qubits (c • U) := by
  obtain ⟨K, hK⟩ := hU
  refine ⟨fun u v => c * K u v, fun ψ b => ?_⟩
  simp only [LinearMap.smul_apply, Pi.smul_apply, hK, smul_eq_mul, Finset.mul_sum, mul_assoc]

/-- An operator that takes each amplitude from one place, up to a factor, is
    local to the qubits that factor and place are found by. -/
theorem LocalTo.of_monomial {qubits : List Qubit} {U : Operator R} (w : BitsOf qubits → R)
    (f : BitsOf qubits → BitsOf qubits)
    (h : ∀ ψ b, U ψ b = w (b.on qubits) * ψ (b.replace (f (b.on qubits)))) :
    LocalTo qubits U := by
  refine ⟨fun u v => if v = f u then w u else 0, fun ψ b => ?_⟩
  simp [h, ite_mul]

theorem DiagonalOn.localTo {qubits : List Qubit} {U : Operator R} (h : DiagonalOn qubits U) :
    LocalTo qubits U := by
  obtain ⟨f, hf⟩ := h
  exact .of_monomial f id fun ψ b => by rw [hf, id, Bits.replace_on]

/-- **Diagonal operators commute.** -/
theorem DiagonalOn.commute {qubits qubits' : List Qubit} {U V : Operator R}
    (hU : DiagonalOn qubits U) (hV : DiagonalOn qubits' V) : Commute U V := by
  obtain ⟨f, hf⟩ := hU
  obtain ⟨g, hg⟩ := hV
  refine LinearMap.ext fun ψ => funext fun b => ?_
  rw [Module.End.mul_apply, Module.End.mul_apply, hf, hg, hg, hf, mul_left_comm]

theorem diagonalOn_one (qubits : List Qubit) : DiagonalOn qubits (1 : Operator R) :=
  ⟨fun _ => 1, fun ψ b => (one_mul (ψ b)).symm⟩

/-! ## Flips -/

/-- The operator that takes the amplitude of `b` from `f b`, multiplied by
    `w b`. -/
def moved (w : Bits → R) (f : Bits → Bits) : Operator R where
  toFun ψ b := w b * ψ (f b)
  map_add' _ _ := funext fun _ => mul_add _ _ _
  map_smul' _ _ := funext fun _ => mul_left_comm _ _ _

theorem moved_apply (w : Bits → R) (f : Bits → Bits) (ψ : Amplitudes R) (b : Bits) :
    moved w f ψ b = w b * ψ (f b) := rfl

/-- The bit of a qubit is negated. -/
def bitFlip (q : Qubit) : Operator R := moved (fun _ => 1) (Bits.flip q)

/-- The bit of a qubit is negated, with the factor `i` where it becomes set and
    `-i` where it becomes clear. -/
def turnedFlip (i : R) (q : Qubit) : Operator R :=
  moved (fun b => if b q then i else -i) (Bits.flip q)

/-- The bit of the target is negated where that of the control is set. -/
def controlledFlip (control target : Qubit) : Operator R :=
  moved (fun _ => 1) (Bits.flipIf control target)

/-- A move is local to the qubits whose bits it looks at and changes. -/
theorem localTo_moved {qubits : List Qubit} {w : Bits → R} {f : Bits → Bits}
    (hw : ∀ b b' : Bits, b.on qubits = b'.on qubits → w b = w b')
    (hf : ∀ b b' : Bits, b.on qubits = b'.on qubits → (f b).on qubits = (f b').on qubits)
    (hout : ∀ b q, q ∉ qubits → f b q = b q) : LocalTo qubits (moved w f) := by
  let base : Bits := fun _ => false
  refine .of_monomial (fun v => w (base.replace v)) (fun v => (f (base.replace v)).on qubits)
    fun ψ b => ?_
  have hbase : b.on qubits = (base.replace (b.on qubits)).on qubits := (Bits.on_replace _).symm
  have hmove : f b = b.replace ((f b).on qubits) := by
    funext q
    by_cases hq : q ∈ qubits
    · simp [Bits.replace, Bits.on, hq]
    · simp [Bits.replace, hq, hout b q hq]
  rw [moved_apply, ← hw _ _ hbase, ← hf _ _ hbase, ← hmove]

theorem commute_moved {w w' : Bits → R} {f f' : Bits → Bits}
    (hw : ∀ b, w b * w' (f b) = w' b * w (f' b)) (hf : ∀ b, f' (f b) = f (f' b)) :
    Commute (moved w f) (moved w' f') := by
  refine LinearMap.ext fun ψ => funext fun b => ?_
  simp only [Module.End.mul_apply, moved_apply, ← mul_assoc, hw b, hf b]

theorem Bits.on_flip {b b' : Bits} {qubits : List Qubit} (q : Qubit)
    (h : b.on qubits = b'.on qubits) : (flip q b).on qubits = (flip q b').on qubits := by
  funext ⟨r, hr⟩
  have hbit : ∀ r (hr : r ∈ qubits), b r = b' r := fun r hr => congrFun h ⟨r, hr⟩
  rcases eq_or_ne r q with rfl | hne
  · simp [on, flip, hbit r hr]
  · simp only [on, flip_of_ne hne, hbit r hr]

theorem localTo_bitFlip (q : Qubit) : LocalTo [q] (bitFlip q : Operator R) :=
  localTo_moved (fun _ _ _ => rfl) (fun _ _ => Bits.on_flip q) fun _ _ hr =>
    Bits.flip_of_ne (by simpa using hr)

theorem localTo_turnedFlip (i : R) (q : Qubit) : LocalTo [q] (turnedFlip i q) := by
  refine localTo_moved (fun b b' h => ?_) (fun _ _ => Bits.on_flip q) fun _ _ hr =>
    Bits.flip_of_ne (by simpa using hr)
  have hbit : b q = b' q := congrFun h ⟨q, List.mem_singleton_self q⟩
  rw [hbit]

theorem localTo_controlledFlip (c t : Qubit) :
    LocalTo [c, t] (controlledFlip c t : Operator R) := by
  refine localTo_moved (fun _ _ _ => rfl) (fun b b' h => ?_) fun b r hr => ?_
  · have hbit : b c = b' c := congrFun h ⟨c, by simp⟩
    unfold Bits.flipIf
    rw [hbit]
    split_ifs
    · exact Bits.on_flip t h
    · exact h
  · exact Bits.flipIf_of_ne fun h => hr (by simp [h])

theorem commute_bitFlip (q r : Qubit) : Commute (bitFlip q : Operator R) (bitFlip r) :=
  commute_moved (fun _ => rfl) fun _ => Bits.flip_comm

theorem commute_turnedFlip (i : R) (q r : Qubit) :
    Commute (turnedFlip i q) (turnedFlip i r) := by
  rcases eq_or_ne q r with rfl | h
  · exact Commute.refl _
  · exact (localTo_turnedFlip i q).commute (localTo_turnedFlip i r) (by simpa using h)

/-- **Controlled flips commute** if no control is a target. -/
theorem commute_controlledFlip {c t c' t' : Qubit} (h : c ≠ t') (h' : c' ≠ t) :
    Commute (controlledFlip c t : Operator R) (controlledFlip c' t') := by
  refine commute_moved (fun _ => rfl) fun b => ?_
  have hc : Bits.flipIf c' t' b c = b c := Bits.flipIf_of_ne h
  have hc' : Bits.flipIf c t b c' = b c' := Bits.flipIf_of_ne h'
  rw [Bits.flipIf, hc', Bits.flipIf, Bits.flipIf, hc, Bits.flipIf]
  split_ifs
  · exact Bits.flip_comm
  all_goals rfl

/-- A controlled flip commutes with a flip of a qubit other than its control. -/
theorem commute_controlledFlip_bitFlip {c t q : Qubit} (h : c ≠ q) :
    Commute (controlledFlip c t : Operator R) (bitFlip q) := by
  refine commute_moved (fun _ => rfl) fun b => ?_
  have hc : Bits.flip q b c = b c := Bits.flip_of_ne h
  rw [Bits.flipIf, Bits.flipIf, hc]
  split_ifs
  · exact Bits.flip_comm
  · rfl

/-- A controlled flip commutes with a diagonal operator that leaves its target
    alone. -/
theorem commute_controlledFlip_diagonal {c t : Qubit} {qubits : List Qubit} {V : Operator R}
    (hV : DiagonalOn qubits V) (h : t ∉ qubits) : Commute (controlledFlip c t) V := by
  obtain ⟨f, hf⟩ := hV
  refine LinearMap.ext fun ψ => funext fun b => ?_
  have hon : (Bits.flipIf c t b).on qubits = b.on qubits :=
    funext fun ⟨q, hq⟩ => Bits.flipIf_of_ne (ne_of_mem_of_not_mem hq h)
  simp only [Module.End.mul_apply, controlledFlip, moved_apply, hf, one_mul, hon]

/-! ## Combinations with the identity -/

theorem eq_combination (U : Operator R) : U = (0 : R) • 1 + (1 : R) • U := by
  rw [zero_smul, one_smul, zero_add]

theorem LocalTo.combination {qubits : List Qubit} {U : Operator R} (h : LocalTo qubits U)
    (c s : R) : LocalTo qubits (c • 1 + s • U) :=
  ((diagonalOn_one qubits).localTo.smul c).add (h.smul s)

/-- What commutes with an operator commutes with its combinations with the
    identity. -/
theorem commute_combination {U V : Operator R} (h : Commute U V) (c s : R) :
    Commute U (c • 1 + s • V) :=
  ((Commute.one_right U).smul_right c).add_right (h.smul_right s)

theorem commute_combinations {U V : Operator R} (h : Commute U V) (c s c' s' : R) :
    Commute (c • 1 + s • U) (c' • 1 + s' • V) :=
  commute_combination (commute_combination h.symm c s).symm c' s'

end QuantumProgram
