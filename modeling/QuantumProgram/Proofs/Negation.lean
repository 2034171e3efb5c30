/-
  QuantumProgram — negation of angles.

  To negate a float packs it again with the other sign, so that negating twice
  gives the same bits (`float_neg_involutive`).  An expression that is negated
  twice keeps its names and its value, and it keeps its form too unless it is
  the negation of a constant or of a negation (`Expr.negated_negated_eq_iff`).
-/
import Mathlib
import QuantumProgram.Expr

namespace QuantumProgram

open Float.Model (Format UnpackedFloat)
open Float.Model.UnpackedFloat

/-! ## Packed floats -/

section
variable {spec : Format}

/-- Unpacking undoes packing on what was unpacked from bits. -/
theorem unpack_pack_unpack (b : BitVec spec.numBits) (hspec : 2 ≤ spec.exponentBits) :
    unpack spec (pack spec (unpack spec b)) = unpack spec b := by
  rw [pack_unpack b hspec]
  split_ifs with hnan
  · rw [unpack_packedNaN]
    rw [isNaNBits, decide_eq_true_eq] at hnan
    simp [unpack, hnan]
  · rfl

theorem unpack_packComponents_neg (s : Sign) (e : BitVec spec.exponentBits)
    (m : BitVec spec.mantissaBitsWithoutImplicit) :
    unpack spec (packComponents spec (-s) e m) = (unpack spec (packComponents spec s e m)).neg := by
  unfold unpack
  simp only [unpackExponent_packComponents, unpackMantissa_packComponents,
    unpackSign_packComponents, Sign.ofBitVec_toBitVec]
  split_ifs <;> rfl

/-- Unpacking undoes packing on the negation of what was unpacked from bits. -/
theorem unpack_pack_neg (b : BitVec spec.numBits) (hspec : 2 ≤ spec.exponentBits) :
    unpack spec (pack spec (unpack spec b).neg) = (unpack spec b).neg := by
  rw [← packComponents_unpackSign_unpackExponent_unpackMantissa b, ← unpack_packComponents_neg,
    unpack_pack_unpack _ hspec]

end

theorem unpacked_neg_involutive : Function.Involutive UnpackedFloat.neg := by
  have hsign (s : Sign) : - -s = s := by cases s <;> rfl
  intro x
  cases x with
  | notANumber => rfl
  | infinity s => rw [UnpackedFloat.neg, UnpackedFloat.neg, hsign]
  | zero s => rw [UnpackedFloat.neg, UnpackedFloat.neg, hsign]
  | finite s m e hm => rw [UnpackedFloat.neg, UnpackedFloat.neg, hsign]

/-- **Negation of floats is an involution**, on zeros, infinities and NaN too. -/
theorem float_neg_involutive : Function.Involutive (- · : Float → Float) := by
  intro x
  have hbits : pack .binary64 (unpack .binary64
      (pack .binary64 (unpack .binary64 x.toModel.toBits.toBitVec).neg)).neg =
        x.toModel.toBits.toBitVec := by
    rw [unpack_pack_neg _ (by decide), unpacked_neg_involutive,
      pack_unpack_of_valid x.toModel.valid]
  exact Float.toBits_inj.1 (UInt64.toBitVec_inj.1 hbits)

/-! ## Expressions -/

namespace Expr

theorem value?_negated (e : Expr) : e.negated.value? = e.value?.map (- ·) := by
  cases e with
  | neg e =>
    rw [negated, value?, Option.map_map, float_neg_involutive.comp_self, Option.map_id]
    rfl
  | _ => rfl

theorem freeNames_negated (e : Expr) : e.negated.freeNames = e.freeNames := by
  cases e <;> rfl

theorem value?_negated_negated (e : Expr) : e.negated.negated.value? = e.value? := by
  rw [value?_negated, value?_negated, Option.map_map, float_neg_involutive.comp_self,
    Option.map_id]
  rfl

/-- Negating twice loses a negation of a constant or of a negation, and nothing
    else. -/
theorem negated_negated_eq_iff (e : Expr) :
    e.negated.negated = e ↔ ¬ ((∃ v, e = neg (constant v)) ∨ ∃ f, e = neg (neg f)) := by
  cases e with
  | constant v => simp [negated, float_neg_involutive v]
  | neg e =>
    cases e with
    | constant v => simp [negated]
    | neg f =>
      have hsize : sizeOf f < sizeOf (neg (neg f)) := by
        rw [neg.sizeOf_spec, neg.sizeOf_spec]
        omega
      have hne : f ≠ neg (neg f) := fun h => hsize.ne (congrArg sizeOf h)
      simp [negated, hne]
    | _ => simp [negated]
  | _ => simp [negated]

end Expr

end QuantumProgram
