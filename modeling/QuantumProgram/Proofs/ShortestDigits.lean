/-
  QuantumProgram — the digits of a float.

  A decimal of seventeen digits always lies in the interval of reals that round
  to a float: on this grid, two neighbours are closer to each other than the ends
  of the interval (`Binary.onGrid?_isSome`).  So the search for the fewest digits
  ends with a point of a grid, and the digits of a float do not start with a zero
  (`Binary.shortest_digits_pos`).
-/
import Mathlib.Tactic
import QuantumProgram.Decimal.Shortest

namespace QuantumProgram

/-! ## Numbers of digits -/

theorem lt_ten_pow_digitCount (n : Nat) : n < 10 ^ digitCount n :=
  (Nat.length_toDigits_le_iff (by decide) Nat.length_toDigits_pos).1 le_rfl

theorem ten_pow_pred_digitCount_le {n : Nat} (hn : 0 < n) : 10 ^ (digitCount n - 1) ≤ n := by
  rcases Nat.eq_zero_or_pos (digitCount n - 1) with h | h
  · rw [h]
    exact hn
  · by_contra hlt
    have hle : digitCount n ≤ digitCount n - 1 :=
      (Nat.length_toDigits_le_iff (by decide) h).2 (Nat.lt_of_not_le hlt)
    omega

/-- A quotient with `n` digits before the point is at least `10 ^ 16` on the grid of
    seventeen digits. -/
theorem ten_pow_le_of_whole {num den n : Nat} (h : 0 < num / den)
    (hn : digitCount (num / den) = n) :
    10 ^ 16 * (10 ^ (n - 17) * den) ≤ 10 ^ (17 - n) * num := by
  have hpos : 0 < n := hn ▸ Nat.length_toDigits_pos
  have hle : 10 ^ (n - 1) * den ≤ num :=
    (Nat.mul_le_mul_right _ (hn ▸ ten_pow_pred_digitCount_le h)).trans (Nat.div_mul_le_self _ _)
  calc 10 ^ 16 * (10 ^ (n - 17) * den) = 10 ^ (17 - n) * (10 ^ (n - 1) * den) := by
        rw [← mul_assoc, ← mul_assoc, ← pow_add, ← pow_add]
        congr 2
        omega
    _ ≤ 10 ^ (17 - n) * num := Nat.mul_le_mul_left _ hle

/-- So is a quotient below one whose reciprocal has `n` digits. -/
theorem ten_pow_le_of_reciprocal {m den n : Nat} (hm : 0 < m)
    (hn : digitCount ((den - 1) / m) = n) :
    10 ^ 16 * den ≤ 10 ^ (n + 16) * m := by
  have hlt : den - 1 < 10 ^ n * m :=
    (Nat.div_lt_iff_lt_mul hm).1 (hn ▸ lt_ten_pow_digitCount ((den - 1) / m))
  have hle : den ≤ 10 ^ n * m := by omega
  calc 10 ^ 16 * den ≤ 10 ^ 16 * (10 ^ n * m) := Nat.mul_le_mul_left _ hle
    _ = 10 ^ (n + 16) * m := by ring

namespace Binary

variable {x : Binary} {tie : TieRule}

/-! ## Points of a grid -/

/-- A point that is chosen is not zero. -/
theorem onGrid?_pos (hx : 0 < x.mantissa) {e : Int} {c : Nat} (h : x.onGrid? tie e = some c) :
    0 < c := by
  unfold onGrid? at h
  extract_lets unit den num below above inside lower nearer at h
  have hunit : 0 < unit := by
    rw [show unit = Nat.pow 10 (-e).toNat <<< x.exponent.toNat from rfl, Nat.shiftLeft_eq]
    exact Nat.mul_pos (Nat.pow_pos (by decide)) (by positivity)
  have hnum : unit ≤ num := Nat.le_mul_of_pos_left _ hx
  have hzero : inside 0 = false := by
    have hbelow : ¬ below ≤ 0 := by
      simp only [below]
      split <;> omega
    simp only [inside, mul_zero, zero_mul]
    split <;> simp [hbelow]
  have hlower : inside lower = true → 0 < lower := fun hin =>
    Nat.pos_of_ne_zero fun h0 => by rw [h0, hzero] at hin; cases hin
  split at h
  · next hin _ =>
    have hle : lower ≤ nearer := by
      simp only [nearer]
      split
      · exact le_rfl
      · exact Nat.le_succ _
      · split <;> omega
    exact Option.some.inj h ▸ (hlower hin).trans_le hle
  · next hin _ => exact Option.some.inj h ▸ hlower hin
  · exact Option.some.inj h ▸ Nat.succ_pos _
  · cases h

/-- If the grid is finer than the interval of reals that round to the value, one
    of its points lies there. -/
theorem onGrid?_isSome (hx : 0 < x.mantissa) {e : Int}
    (h : 4 * (10 ^ e.toNat <<< (-x.exponent).toNat) <
      (if x.narrowBelow then 3 else 4) * (10 ^ (-e).toNat <<< x.exponent.toNat)) :
    (x.onGrid? tie e).isSome = true := by
  unfold onGrid?
  extract_lets unit den num below above inside lower nearer
  have hfine : 4 * den < (if x.narrowBelow then 3 else 4) * unit := h
  have hnum : unit ≤ num := Nat.le_mul_of_pos_left _ hx
  have hdiv : den * lower + num % den = num := Nat.div_add_mod _ _
  have hmod : num % den < den := by
    refine Nat.mod_lt _ ?_
    rw [show den = Nat.pow 10 e.toNat <<< (-x.exponent).toNat from rfl, Nat.shiftLeft_eq]
    exact Nat.mul_pos (Nat.pow_pos (by decide)) (by positivity)
  split
  · rfl
  · rfl
  · rfl
  · next hlower hupper =>
    -- both neighbours are outside, so the interval is shorter than a step of the grid
    have hlower' : 4 * lower * den = 4 * (den * lower) := by ring
    have hupper' : 4 * (lower + 1) * den = 4 * (den * lower) + 4 * den := by ring
    simp only [inside, hlower', hupper', below, above] at hlower hupper
    clear_value num unit den
    clear h
    cases hnarrow : x.narrowBelow <;> rw [hnarrow] at hlower hupper hfine <;>
      by_cases heven : x.mantissa % 2 = 0 <;>
      simp [heven] at hlower hupper hfine <;> omega

/-- The value is at least `10 ^ 16` on the grid of seventeen digits. -/
theorem ten_pow_le_of_scale (hx : 0 < x.mantissa) :
    10 ^ 16 * (10 ^ (x.scale - 17).toNat <<< (-x.exponent).toNat) ≤
      x.mantissa * (10 ^ (-(x.scale - 17)).toNat <<< x.exponent.toNat) := by
  simp only [Nat.shiftLeft_eq]
  set a := x.exponent.toNat with ha
  set b := (-x.exponent).toNat with hb
  rw [scale, ← ha, ← hb, Nat.shiftRight_eq_div_pow, Nat.shiftLeft_eq]
  split
  · next hwhole =>
    obtain ⟨n, hn⟩ : ∃ n, digitCount (x.mantissa * 2 ^ a / 2 ^ b) = n := ⟨_, rfl⟩
    have hle := ten_pow_le_of_whole hwhole hn
    have htoNat : ((n : Int) - 17).toNat = n - 17 := by omega
    have htoNat' : (-((n : Int) - 17)).toNat = 17 - n := by omega
    rwa [hn, htoNat, htoNat', Nat.mul_left_comm x.mantissa]
  · next hwhole =>
    have hlt : x.mantissa * 2 ^ a < 2 ^ b := by
      rw [not_lt, Nat.le_zero, Nat.div_eq_zero_iff] at hwhole
      exact hwhole.resolve_left (by positivity)
    have hexponent : a = 0 := by
      by_contra hne
      have hb0 : b = 0 := by omega
      have hpos : 0 < x.mantissa * 2 ^ a := by positivity
      rw [hb0] at hlt
      omega
    rw [Nat.shiftLeft_eq, one_mul]
    obtain ⟨n, hn⟩ : ∃ n, digitCount ((2 ^ b - 1) / x.mantissa) = n := ⟨_, rfl⟩
    have hle := ten_pow_le_of_reciprocal hx hn
    have htoNat : (((1 : Nat) : Int) - n - 17).toNat = 0 := by omega
    have htoNat' : (-(((1 : Nat) : Int) - n - 17)).toNat = n + 16 := by omega
    rwa [hn, htoNat, htoNat', hexponent, pow_zero, pow_zero, one_mul, mul_one, mul_comm x.mantissa]

/-- **Seventeen digits identify a float.**  The mantissa has 53 bits, or is the
    least of them where the next float below is nearer. -/
theorem onGrid?_scale_isSome (hx : 0 < x.mantissa) (hlt : x.mantissa < 2 ^ 53)
    (hnarrow : x.narrowBelow = true → x.mantissa = 2 ^ 52) :
    (x.onGrid? tie (x.scale - 17)).isSome = true := by
  refine onGrid?_isSome hx ?_
  have hle := ten_pow_le_of_scale hx
  have hpos : 0 < 10 ^ (x.scale - 17).toNat <<< (-x.exponent).toNat := by
    rw [Nat.shiftLeft_eq]
    positivity
  generalize 10 ^ (x.scale - 17).toNat <<< (-x.exponent).toNat = den at hle hpos ⊢
  generalize 10 ^ (-(x.scale - 17)).toNat <<< x.exponent.toNat = unit at hle ⊢
  split
  · next h =>
    rw [hnarrow h] at hle
    omega
  · have hunit : x.mantissa * unit ≤ 2 ^ 53 * unit := Nat.mul_le_mul_right _ hlt.le
    omega

/-! ## The search -/

theorem search_digits_pos (hx : 0 < x.mantissa) {k : Int} : ∀ {tries n : Nat},
    (x.onGrid? tie (k - (n + tries : Nat))).isSome = true → 0 < (x.search tie k tries n).digits
  | 0, n, h => by
    obtain ⟨c, hc⟩ := Option.isSome_iff_exists.1 h
    rw [Nat.add_zero] at hc
    rw [search, hc]
    exact onGrid?_pos hx hc
  | tries + 1, n, h => by
    rw [search]
    split
    · next c hc => exact onGrid?_pos hx hc
    · refine search_digits_pos hx ?_
      rwa [Nat.add_right_comm]

end Binary

theorem Decimal.strip_digits_pos {steps : Nat} {d : Decimal} (h : 0 < d.digits) :
    0 < (d.strip steps).digits := by
  induction steps generalizing d with
  | zero => exact h
  | succ steps ih =>
    rw [strip]
    split
    · refine ih (d := ⟨d.digits / 10, d.exponent + 1⟩) ?_
      show 0 < d.digits / 10
      omega
    · exact h

namespace Binary

theorem mantissa_ofBits_lt (bits : UInt64) : (ofBits bits).mantissa < 2 ^ 53 := by
  rw [ofBits]
  split
  · show bits.toNat % 2 ^ 52 < 2 ^ 53
    omega
  · show 2 ^ 52 + bits.toNat % 2 ^ 52 < 2 ^ 53
    omega

theorem mantissa_ofBits_eq (bits : UInt64) (h : (ofBits bits).narrowBelow = true) :
    (ofBits bits).mantissa = 2 ^ 52 := by
  rw [ofBits] at h ⊢
  split at h
  · cases h
  · next he =>
    rw [if_neg he]
    rw [Bool.and_eq_true, decide_eq_true_eq] at h
    exact congrArg (2 ^ 52 + ·) h.1

/-- **The digits of a float do not start with a zero.** -/
theorem shortest_digits_pos {bits : UInt64} (h : 0 < (ofBits bits).mantissa) (tie : TieRule) :
    0 < ((ofBits bits).shortest tie).digits :=
  Decimal.strip_digits_pos (search_digits_pos h
    (onGrid?_scale_isSome h (mantissa_ofBits_lt bits) (mantissa_ofBits_eq bits)))

end Binary

end QuantumProgram
