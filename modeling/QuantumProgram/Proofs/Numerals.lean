/-
  QuantumProgram — numbers in a text.

  A number in a text ends where a bracket or a comma follows (`Delimited`).  Up to
  there a whole number of 64 bits is read as itself (`Document.number_nat`,
  `Document.number_neg`), and the text of every finite float is read as the value
  of some numeral with a point or an exponent (`Json.isReal_render`), which need
  not be the float.
-/
import QuantumProgram.Json.Parser
import QuantumProgram.Proofs.ShortestDigits

namespace QuantumProgram

namespace Document

/-! ## Digits -/

/-- The text ends, or goes on after a value. -/
def Delimited (rest : List Char) : Prop := ∀ c ∈ rest.head?, c = ',' ∨ c = ']' ∨ c = '\x7d'

theorem delimited_nil : Delimited [] := nofun

theorem delimited_cons {c : Char} (h : c = ',' ∨ c = ']' ∨ c = '\x7d') (rest : List Char) :
    Delimited (c :: rest) := fun _ hd => Option.some.inj hd ▸ h

theorem Delimited.eq_nil_or {rest : List Char} (h : Delimited rest) :
    rest = [] ∨ ∃ r, rest = ',' :: r ∨ rest = ']' :: r ∨ rest = '\x7d' :: r := by
  cases rest with
  | nil => exact Or.inl rfl
  | cons c r => exact Or.inr ⟨r, by rcases h c rfl with rfl | rfl | rfl <;> simp⟩

/-- The value of a digit. -/
def digitValue (c : Char) : Nat := c.toNat - '0'.toNat

theorem digit?_of_isDigit {c : Char} (h : c.isDigit = true) : digit? c = some (digitValue c) := by
  rw [Char.isDigit, Bool.and_eq_true, decide_eq_true_eq, decide_eq_true_eq] at h
  exact if_pos h

/-- Digits are read up to a character that is none. -/
theorem digits_append {cs rest : List Char} (hcs : ∀ c ∈ cs, c.isDigit = true)
    (hrest : ∀ c ∈ rest.head?, digit? c = none) :
    digits (cs ++ rest) = (cs.map digitValue, rest) := by
  induction cs with
  | nil =>
    cases rest with
    | nil => rfl
    | cons c rest => rw [List.nil_append, digits, hrest c rfl, List.map_nil]
  | cons c cs ih =>
    obtain ⟨hc, hcs⟩ := List.forall_mem_cons.1 hcs
    rw [List.cons_append, digits, digit?_of_isDigit hc, ih hcs, List.map_cons]

theorem Delimited.digit?_eq_none {rest : List Char} (h : Delimited rest) :
    ∀ c ∈ rest.head?, digit? c = none := by
  intro c hc
  rcases h c hc with rfl | rfl | rfl <;> rfl

theorem eq_zero_of_digitValue {c : Char} (hc : c.isDigit = true) (h : digitValue c = 0) :
    c = '0' := by
  rw [Char.isDigit, Bool.and_eq_true, decide_eq_true_eq, decide_eq_true_eq] at hc
  have hle : '0'.toNat ≤ c.toNat := hc.1
  exact Char.toNat_inj.1 (by rw [digitValue] at h; omega)

/-- Digits that may stand before a point. -/
structure WholePart (cs : List Char) : Prop where
  nonempty : cs ≠ []
  digits : ∀ c ∈ cs, c.isDigit = true
  noLeadingZero : cs.head? = some '0' → cs = ['0']

/-- Digits of a number: a single zero, or none of them at the start. -/
theorem WholePart.map_digitValue {cs : List Char} (h : WholePart cs) :
    cs.map digitValue = [0] ∨ ∃ d ds, cs.map digitValue = (d + 1) :: ds := by
  obtain ⟨c, cs, rfl⟩ := List.exists_cons_of_ne_nil h.nonempty
  cases hc : digitValue c with
  | zero =>
    have hzero : c = '0' := eq_zero_of_digitValue (h.digits c List.mem_cons_self) hc
    left
    rw [h.noLeadingZero (congrArg some hzero)]
    rfl
  | succ d => exact Or.inr ⟨d, cs.map digitValue, by rw [List.map_cons, hc]⟩

/-- The digits of a number that is not zero. -/
structure Significant (cs : List Char) : Prop where
  nonempty : cs ≠ []
  digits : ∀ c ∈ cs, c.isDigit = true
  head : cs.head? ≠ some '0'

namespace Significant

variable {cs : List Char} {k : Nat}

theorem wholePart (h : Significant cs) : WholePart cs :=
  ⟨h.nonempty, h.digits, fun hzero => absurd hzero h.head⟩

theorem take (h : Significant cs) (hk : 0 < k) : Significant (cs.take k) where
  nonempty hnil := (List.take_eq_nil_iff.1 hnil).elim hk.ne' h.nonempty
  digits c hc := h.digits c (List.mem_of_mem_take hc)
  head := by
    rw [List.head?_take, if_neg hk.ne']
    exact h.head

theorem append (h : Significant cs) {cs' : List Char} (hcs' : ∀ c ∈ cs', c.isDigit = true) :
    Significant (cs ++ cs') where
  nonempty := List.append_ne_nil_of_left_ne_nil h.nonempty _
  digits := List.forall_mem_append.2 ⟨h.digits, hcs'⟩
  head := by
    rw [List.head?_append_of_ne_nil _ h.nonempty]
    exact h.head

end Significant

/-! ## Numbers -/

section
variable {negative : Bool} {whole fraction rest : List Char}

/-- A number without point and exponent. -/
theorem number_whole (hwhole : WholePart whole) (hrest : Delimited rest) :
    number negative (whole ++ rest) =
      (wholeValue ⟨negative, whole.map digitValue, [], 0⟩, some rest) := by
  rw [number, digits_append hwhole.digits hrest.digit?_eq_none]
  rcases hrest.eq_nil_or with rfl | ⟨r, rfl | rfl | rfl⟩ <;>
    rcases hwhole.map_digitValue with h | ⟨d, ds, h⟩ <;> rw [h] <;> rfl

/-- A number with an exponent after its first digits. -/
theorem number_exponent (hwhole : WholePart whole) :
    number negative (whole ++ 'e' :: rest) =
      exponent ⟨negative, whole.map digitValue, [], 0⟩ rest := by
  have hexponent : ∀ c ∈ ('e' :: rest).head?, digit? c = none := by
    rintro c ⟨⟩
    rfl
  rw [number, digits_append hwhole.digits hexponent]
  rcases hwhole.map_digitValue with h | ⟨d, ds, h⟩ <;> rw [h] <;> rfl

/-- A number with a point. -/
theorem number_point (hwhole : WholePart whole) (hne : fraction ≠ [])
    (hfraction : ∀ c ∈ fraction, c.isDigit = true) (hrest : Delimited rest) :
    number negative (whole ++ '.' :: (fraction ++ rest)) =
      (realValue ⟨negative, whole.map digitValue, fraction.map digitValue, 0⟩, some rest) := by
  obtain ⟨f, fs, rfl⟩ := List.exists_cons_of_ne_nil hne
  have hdigits := digits_append hfraction hrest.digit?_eq_none
  rw [number, digits_append hwhole.digits (by rintro c ⟨⟩; rfl)]
  rcases hwhole.map_digitValue with h | ⟨d, ds, h⟩ <;> rw [h] <;>
    simp only [hdigits, List.map_cons] <;>
    rcases hrest.eq_nil_or with rfl | ⟨r, rfl | rfl | rfl⟩ <;> rfl

/-- A number with a point and an exponent. -/
theorem number_point_exponent (hwhole : WholePart whole) (hne : fraction ≠ [])
    (hfraction : ∀ c ∈ fraction, c.isDigit = true) :
    number negative (whole ++ '.' :: (fraction ++ 'e' :: rest)) =
      exponent ⟨negative, whole.map digitValue, fraction.map digitValue, 0⟩ rest := by
  obtain ⟨f, fs, rfl⟩ := List.exists_cons_of_ne_nil hne
  have hexponent : ∀ c ∈ ('e' :: rest).head?, digit? c = none := by
    rintro c ⟨⟩
    rfl
  have hdigits := digits_append hfraction hexponent
  rw [number, digits_append hwhole.digits (by rintro c ⟨⟩; rfl)]
  rcases hwhole.map_digitValue with h | ⟨d, ds, h⟩ <;> rw [h] <;> simp only [hdigits, List.map_cons]

end

/-- Digits with or without a sign are read as an exponent. -/
theorem exists_exponent (n : Numeral) {sign ds : List Char}
    (hsign : sign = [] ∨ sign = ['+'] ∨ sign = ['-']) (hne : ds ≠ [])
    (hds : ∀ c ∈ ds, c.isDigit = true) :
    ∃ n', ∀ rest, Delimited rest →
      exponent n (sign ++ (ds ++ rest)) = (realValue n', some rest) := by
  obtain ⟨c, cs, rfl⟩ := List.exists_cons_of_ne_nil hne
  have hdigits {rest : List Char} (hrest : Delimited rest) :
      digits (c :: (cs ++ rest)) = (digitValue c :: cs.map digitValue, rest) :=
    digits_append hds hrest.digit?_eq_none
  let value : Nat := (digitValue c :: cs.map digitValue).foldl (fun s d => s * 10 + d) 0
  rcases hsign with rfl | rfl | rfl
  · have hc : c ≠ '+' ∧ c ≠ '-' := by
      have hdigit := hds c List.mem_cons_self
      constructor <;> rintro rfl <;> cases hdigit
    refine ⟨{ n with exponent := value }, fun rest hrest => ?_⟩
    rw [List.nil_append, List.cons_append, exponent]
    · rw [hdigits hrest]
      rfl
    · rintro cs' ⟨⟩
      exact hc.1 rfl
    · rintro cs' ⟨⟩
      exact hc.2 rfl
  · refine ⟨{ n with exponent := value }, fun rest hrest => ?_⟩
    rw [List.cons_append, List.nil_append, List.cons_append, exponent, hdigits hrest]
    rfl
  · refine ⟨{ n with exponent := -value }, fun rest hrest => ?_⟩
    rw [List.cons_append, List.nil_append, List.cons_append, exponent, hdigits hrest]
    rfl

/-! ## Numerals of floats -/

/-- A text that is read as the value of a numeral with a point or an exponent,
    whatever follows it. -/
def IsReal (cs : List Char) : Prop :=
  ∀ negative, ∃ n, ∀ rest, Delimited rest → number negative (cs ++ rest) = (realValue n, some rest)

theorem isReal_point {whole fraction : List Char} (hwhole : WholePart whole) (hne : fraction ≠ [])
    (hfraction : ∀ c ∈ fraction, c.isDigit = true) : IsReal (whole ++ '.' :: fraction) := by
  intro negative
  refine ⟨⟨negative, whole.map digitValue, fraction.map digitValue, 0⟩, fun rest hrest => ?_⟩
  rw [List.append_assoc, List.cons_append]
  exact number_point hwhole hne hfraction hrest

theorem isReal_exponent {whole fraction sign ds : List Char} (hwhole : WholePart whole)
    (hfraction : ∀ c ∈ fraction, c.isDigit = true)
    (hsign : sign = [] ∨ sign = ['+'] ∨ sign = ['-']) (hne : ds ≠ [])
    (hds : ∀ c ∈ ds, c.isDigit = true) :
    IsReal (whole ++ (if fraction = [] then [] else '.' :: fraction) ++ 'e' :: (sign ++ ds)) := by
  intro negative
  split
  · obtain ⟨n, hn⟩ := exists_exponent ⟨negative, whole.map digitValue, [], 0⟩ hsign hne hds
    refine ⟨n, fun rest hrest => ?_⟩
    rw [List.append_nil, List.append_assoc, List.cons_append, List.append_assoc,
      number_exponent hwhole, hn rest hrest]
  · next hfrac =>
    obtain ⟨n, hn⟩ := exists_exponent
      ⟨negative, whole.map digitValue, fraction.map digitValue, 0⟩ hsign hne hds
    refine ⟨n, fun rest hrest => ?_⟩
    rw [List.append_assoc, List.append_assoc, List.cons_append, List.cons_append,
      List.append_assoc, number_point_exponent hwhole hfrac hfraction, hn rest hrest]

end Document

namespace Json

open Document (IsReal Significant WholePart isReal_point isReal_exponent)

/-- The digits of a number. -/
theorem isDigit_toString {n : Nat} {c : Char} (h : c ∈ (toString n).toList) : c.isDigit = true := by
  rw [Nat.toString_eq_ofList_toDigits, String.toList_ofList] at h
  exact Nat.isDigit_of_mem_toDigits (by decide) (by decide) h

theorem head?_toDigits_ne {n : Nat} (hn : 0 < n) : (Nat.toDigits 10 n).head? ≠ some '0' := by
  induction n using Nat.strongRecOn with
  | ind n ih =>
    rw [Nat.toDigits_eq_if (by decide)]
    split
    · next hlt =>
      intro h
      have := Nat.digitChar_eq_zero.1 (Option.some.inj h)
      omega
    · next hge =>
      rw [List.head?_append_of_ne_nil _ Nat.toDigits_ne_nil]
      exact ih (n / 10) (by omega) (by omega)

theorem head?_toString_ne {n : Nat} (hn : 0 < n) : (toString n).toList.head? ≠ some '0' := by
  rw [Nat.toString_eq_ofList_toDigits, String.toList_ofList]
  exact head?_toDigits_ne hn

theorem toString_ne_nil (n : Nat) : (toString n).toList ≠ [] := by
  rw [Nat.toString_eq_ofList_toDigits, String.toList_ofList]
  exact Nat.toDigits_ne_nil

theorem significant_toString {n : Nat} (hn : 0 < n) : Significant (toString n).toList :=
  ⟨toString_ne_nil n, fun _ => isDigit_toString, head?_toString_ne hn⟩

theorem wholePart_toString (n : Nat) : WholePart (toString n).toList := by
  rcases Nat.eq_zero_or_pos n with rfl | hn
  · exact ⟨toString_ne_nil 0, fun _ => isDigit_toString, fun _ => rfl⟩
  · exact (significant_toString hn).wholePart

theorem isDigit_replicate {n : Nat} {c : Char} (h : c ∈ List.replicate n '0') :
    c.isDigit = true := List.eq_of_mem_replicate h ▸ rfl

section
variable {digits : List Char} (h : Significant digits)
include h

/-- All digits before the point, with zeros behind them. -/
theorem isReal_zeros (zeros : Nat) :
    IsReal (digits ++ List.replicate zeros '0' ++ '.' :: ['0']) :=
  isReal_point (h.append fun _ => isDigit_replicate).wholePart (List.cons_ne_nil _ _)
    (List.forall_mem_singleton.2 rfl)

/-- The point among the digits. -/
theorem isReal_within {whole : Nat} (hpos : 0 < whole) (hlt : whole < digits.length) :
    IsReal (digits.take whole ++ '.' :: digits.drop whole) := by
  refine isReal_point (h.take hpos).wholePart ?_ fun c hc => h.digits c (List.mem_of_mem_drop hc)
  rw [Ne, List.drop_eq_nil_iff, not_le]
  exact hlt

/-- All digits behind the point, with zeros before them. -/
theorem isReal_below (zeros : Nat) :
    IsReal (['0'] ++ '.' :: (List.replicate zeros '0' ++ digits)) :=
  isReal_point (wholePart_toString 0) (List.append_ne_nil_of_right_ne_nil _ h.nonempty)
    (List.forall_mem_append.2 ⟨fun _ => isDigit_replicate, h.digits⟩)

end

theorem isReal_byPosition {d : Decimal} (h : 0 < d.digits) :
    IsReal (layout.byPosition d).toList := by
  have hdigits := significant_toString h
  unfold Layout.byPosition
  extract_lets digits places whole
  split
  · show IsReal (digits ++ String.ofList (List.replicate d.exponent.toNat '0') ++ ".0").toList
    rw [String.toList_append, String.toList_append, String.toList_ofList]
    exact isReal_zeros hdigits _
  · next hexponent =>
    have hplaces : 0 < places := by
      show 0 < (-d.exponent).toNat
      omega
    split
    · next hlt =>
      have hlength : digits.toList.length = digits.length := String.length_toList
      have hwhole : 0 < whole ∧ whole < digits.toList.length := by
        rw [hlength]
        show 0 < digits.length - places ∧ digits.length - places < digits.length
        omega
      simp only [String.toList_append, String.toList_ofList, List.append_assoc]
      exact isReal_within hdigits hwhole.1 hwhole.2
    · show IsReal
        ("0." ++ String.ofList (List.replicate (places - digits.length) '0') ++ digits).toList
      simp only [String.toList_append, String.toList_ofList, List.append_assoc]
      exact isReal_below hdigits _

theorem toList_toString_negSucc (n : ℕ) :
    (toString (Int.negSucc n)).toList = '-' :: (toString (n + 1)).toList := by
  show ("-" ++ toString (n + 1)).toList = _
  rw [String.toList_append]
  rfl

/-- The text of an exponent: digits, perhaps with a sign. -/
theorem exists_signed (e : Int) : ∃ sign ds : List Char,
    ((if layout.plusSign && e > 0 then "+" else "") ++ toString e).toList = sign ++ ds ∧
      (sign = [] ∨ sign = ['+'] ∨ sign = ['-']) ∧ ds ≠ [] ∧ ∀ c ∈ ds, c.isDigit = true := by
  cases e with
  | ofNat n =>
    have hn : toString (Int.ofNat n) = toString n := rfl
    rw [String.toList_append, hn]
    refine ⟨_, (toString n).toList, rfl, ?_, toString_ne_nil n, fun _ => isDigit_toString⟩
    split
    · exact Or.inr (Or.inl rfl)
    · exact Or.inl rfl
  | negSucc n =>
    rw [String.toList_append, toList_toString_negSucc]
    exact ⟨['-'], _, rfl, Or.inr (Or.inr rfl), toString_ne_nil _, fun _ => isDigit_toString⟩

/-- The text of a fraction after its point, if there is one. -/
theorem toList_fraction (cs : List Char) :
    (if String.ofList cs = "" then "" else "." ++ String.ofList cs).toList =
      if cs = [] then [] else '.' :: cs := by
  cases cs with
  | nil => rfl
  | cons c cs =>
    have hne : String.ofList (c :: cs) ≠ "" := fun h => by simpa using congrArg String.toList h
    rw [if_neg hne, if_neg (List.cons_ne_nil c cs), String.toList_append]
    exact congrArg ('.' :: ·) String.toList_ofList

/-- One digit, the others after a point, and an exponent. -/
theorem isReal_scientific {digits : List Char} (h : Significant digits) (e : Int) :
    IsReal (String.ofList (digits.take 1)
      ++ (if String.ofList (digits.drop 1) = "" then "" else "." ++ String.ofList (digits.drop 1))
      ++ "e" ++ (if layout.plusSign && e > 0 then "+" else "") ++ toString e).toList := by
  obtain ⟨sign, ds, htext, hsign, hds, hds'⟩ := exists_signed e
  rw [String.append_assoc, String.toList_append, htext, String.toList_append, String.toList_append,
    toList_fraction, String.toList_ofList, List.append_assoc]
  show IsReal (digits.take 1 ++ (if digits.drop 1 = [] then [] else '.' :: digits.drop 1) ++
    'e' :: (sign ++ ds))
  exact isReal_exponent (h.take one_pos).wholePart
    (fun c hc => h.digits c (List.mem_of_mem_drop hc)) hsign hds hds'

theorem isReal_byExponent {d : Decimal} (h : 0 < d.digits) :
    IsReal (layout.byExponent d).toList :=
  isReal_scientific (significant_toString h) _

/-! ## Floats and whole numbers -/

theorem isNaN_eq_false {x : Float} (h : x.isFinite = true) : x.isNaN = false := by
  show x.toModel.unpack.isNaN = false
  change x.toModel.unpack.isFinite = true at h
  cases hunpack : x.toModel.unpack <;> rw [hunpack] at h
  · rfl
  · cases h
  · rfl
  · rfl

theorem isInf_eq_false {x : Float} (h : x.isFinite = true) : x.isInf = false := by
  show x.toModel.unpack.isInf = false
  change x.toModel.unpack.isFinite = true at h
  cases hunpack : x.toModel.unpack <;> rw [hunpack] at h
  · cases h
  · rfl
  · rfl
  · rfl

/-- **The text of a finite float is that of a number**, after a sign. -/
theorem isReal_render {x : Float} (h : x.isFinite = true) : ∃ sign cs : List Char,
    (layout.render x).toList = sign ++ cs ∧ (sign = [] ∨ sign = ['-']) ∧ IsReal cs := by
  rw [Layout.render, isNaN_eq_false h, isInf_eq_false h]
  extract_lets bits sign value d e
  have hsign : sign.toList = [] ∨ sign.toList = ['-'] := by
    by_cases hbit : bits >>> 63 = 1
    · exact Or.inr (congrArg String.toList (if_pos hbit))
    · exact Or.inl (congrArg String.toList (if_neg hbit))
  rw [if_neg Bool.false_ne_true, if_neg Bool.false_ne_true]
  split
  · have hzero : IsReal ((toString 0).toList ++ '.' :: ['0']) :=
      isReal_point (wholePart_toString 0) (by simp) (List.forall_mem_singleton.2 rfl)
    exact ⟨sign.toList, _, String.toList_append, hsign, hzero⟩
  · next hmantissa =>
    have hd : 0 < d.digits := Binary.shortest_digits_pos (Nat.pos_of_ne_zero hmantissa) _
    refine ⟨sign.toList, _, String.toList_append, hsign, ?_⟩
    split
    · exact isReal_byPosition hd
    · exact isReal_byExponent hd

end Json

/-! ## Whole numbers -/

namespace Numeral

theorem le_foldl_digits (ds : List Nat) (s : Nat) : s ≤ ds.foldl (fun s d => s * 10 + d) s := by
  induction ds generalizing s with
  | nil => exact le_rfl
  | cons d ds ih => exact le_trans (by omega) (ih (s * 10 + d))

/-- No digit is dropped from a number of 64 bits. -/
theorem absorb_eq {ds : List Nat} {s : Nat}
    (h : ds.foldl (fun s d => s * 10 + d) s < UInt64.size) :
    absorb s ds = (ds.foldl (fun s d => s * 10 + d) s, ds.length) := by
  induction ds generalizing s with
  | nil => rfl
  | cons d ds ih =>
    rw [List.foldl_cons] at h ⊢
    rw [absorb, if_pos ((le_foldl_digits ds _).trans_lt h), ih h, List.length_cons]

/-- The digits of a number, read as the digits before the point. -/
def ofNat (negative : Bool) (n : Nat) : Numeral :=
  ⟨negative, (toString n).toList.map Document.digitValue, [], 0⟩

theorem toNat_ofNat (negative : Bool) (n : Nat) : (ofNat negative n).toNat = n := by
  rw [toNat, ofNat, Nat.toString_eq_ofList_toDigits, String.toList_ofList, List.foldl_map]
  simp only [mul_comm _ 10]
  exact Nat.ofDigitChars_ten_toDigits

theorem wholeFits_ofNat {n : Nat} (hn : n < UInt64.size) (negative : Bool) :
    (ofNat negative n).wholeFits = true := by
  have hvalue := toNat_ofNat negative n
  rw [toNat] at hvalue
  rw [wholeFits, absorb_eq (hvalue.symm ▸ hn)]
  exact decide_eq_true rfl

end Numeral

namespace Document

variable {n : Nat} {rest : List Char}

/-- **A whole number of 64 bits is read as itself.** -/
theorem number_nat (hn : n < UInt64.size) (hrest : Delimited rest) :
    number false ((toString n).toList ++ rest) = (.int n, some rest) := by
  have hread : number false ((toString n).toList ++ rest) =
      (wholeValue (.ofNat false n), some rest) := number_whole (Json.wholePart_toString n) hrest
  rw [hread, wholeValue, Numeral.wholeFits_ofNat hn, Numeral.toNat_ofNat]
  rfl

/-- So is a negative one, read after its sign. -/
theorem number_neg (hpos : 0 < n) (hn : n ≤ 2 ^ 63) (hrest : Delimited rest) :
    number true ((toString n).toList ++ rest) = (.int (-n), some rest) := by
  have hread : number true ((toString n).toList ++ rest) =
      (wholeValue (.ofNat true n), some rest) := number_whole (Json.wholePart_toString n) hrest
  have hlt : n < UInt64.size := hn.trans_lt (by decide)
  -- the check of the range comes after the sign is applied, so that `2 ^ 63` passes
  have hint : int64? (-(n : Int)) = some (Int64.ofInt (-(n : Int))) := by
    refine if_pos ⟨?_, ?_⟩
    · show -(2 ^ 63 : Int) ≤ -(n : Int)
      omega
    · show -(n : Int) ≤ 2 ^ 63 - 1
      omega
  rw [hread, wholeValue, Numeral.wholeFits_ofNat hlt, Numeral.toNat_ofNat, hint]
  simp [Numeral.ofNat, hpos.ne']

end Document

end QuantumProgram
