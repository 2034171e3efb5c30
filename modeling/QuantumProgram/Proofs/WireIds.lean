/-
  QuantumProgram — wire identifiers of qubits.

  A 64-bit number is read from exactly the texts that spell it, which are decimal
  digits with or without a sign (`readInt64?_eq_some_iff`).  An identifier with
  such a text on both sides of its first `_` names a grid qubit, one that is such
  a text a line qubit, and any other one is a name.  So a qubit is read back from
  its identifier, unless it has a name that spells numbers (`Qubit.wireId_readBack`).
-/
import QuantumProgram.Qubit
import QuantumProgram.Proofs.Numerals

namespace QuantumProgram

/-! ## Whole numbers -/

/-- One or more decimal digits. -/
structure IsDigits (cs : List Char) : Prop where
  nonempty : cs ≠ []
  digits : ∀ c ∈ cs, c.isDigit = true

/-- The text consists of decimal digits, perhaps after a sign, that stand for the
    number. -/
inductive Spells : List Char → Int → Prop
  | unsigned {cs} (h : IsDigits cs) : Spells cs (Nat.ofDigitChars 10 cs 0 : ℕ)
  | plus {cs} (h : IsDigits cs) : Spells ('+' :: cs) (Nat.ofDigitChars 10 cs 0 : ℕ)
  | minus {cs} (h : IsDigits cs) : Spells ('-' :: cs) (-(Nat.ofDigitChars 10 cs 0 : ℕ))

theorem digit?_eq_some_iff {c : Char} {d : Nat} :
    digit? c = some d ↔ c.isDigit = true ∧ c.toNat - '0'.toNat = d := by
  constructor
  · intro h
    rw [digit?] at h
    split at h
    · next hc =>
      rw [Char.isDigit, Bool.and_eq_true, decide_eq_true_eq, decide_eq_true_eq]
      exact ⟨hc, Option.some.inj h⟩
    · cases h
  · rintro ⟨hc, rfl⟩
    exact Document.digit?_of_isDigit hc

theorem readDigits?_eq_some_iff {acc n : Nat} {cs : List Char} : readDigits? acc cs = some n ↔
    (∀ c ∈ cs, c.isDigit = true) ∧ Nat.ofDigitChars 10 cs acc = n := by
  induction cs generalizing acc with
  | nil => simp [readDigits?]
  | cons c cs ih =>
    simp only [readDigits?, Option.bind_eq_some_iff, digit?_eq_some_iff, ih, List.forall_mem_cons,
      Nat.ofDigitChars_cons, Nat.mul_comm 10]
    constructor
    · rintro ⟨d, ⟨hc, rfl⟩, hcs, hn⟩
      exact ⟨⟨hc, hcs⟩, hn⟩
    · rintro ⟨⟨hc, hcs⟩, hn⟩
      exact ⟨_, ⟨hc, rfl⟩, hcs, hn⟩

theorem readNat?_eq_some_iff {cs : List Char} {n : Nat} :
    readNat? cs = some n ↔ IsDigits cs ∧ Nat.ofDigitChars 10 cs 0 = n := by
  cases cs with
  | nil => exact iff_of_false (by simp [readNat?]) fun h => h.1.nonempty rfl
  | cons c cs =>
    rw [readNat?, readDigits?_eq_some_iff]
    exact and_congr_left fun _ => ⟨fun h => ⟨List.cons_ne_nil c cs, h⟩, fun h => h.digits⟩

/-- A sign is no digit. -/
theorem IsDigits.head_isDigit {c : Char} {cs : List Char} (h : IsDigits (c :: cs)) :
    c.isDigit = true := h.digits c List.mem_cons_self

theorem readInt?_minus (cs : List Char) :
    readInt? ('-' :: cs) = (readNat? cs).map fun n : Nat => -(n : Int) := by
  rw [readInt?]
  cases readNat? cs <;> rfl

theorem readInt?_eq_some_iff {cs : List Char} {n : Int} : readInt? cs = some n ↔ Spells cs n := by
  constructor
  · intro h
    by_cases hminus : ∃ ds, cs = '-' :: ds
    · obtain ⟨ds, rfl⟩ := hminus
      rw [readInt?_minus] at h
      obtain ⟨k, hk, rfl⟩ := Option.map_eq_some_iff.1 h
      obtain ⟨hdigits, rfl⟩ := readNat?_eq_some_iff.1 hk
      exact .minus hdigits
    · unfold readInt? at h
      split at h
      · exact absurd ⟨_, rfl⟩ hminus
      · obtain ⟨k, hk, rfl⟩ := Option.map_eq_some_iff.1 h
        obtain ⟨hdigits, rfl⟩ := readNat?_eq_some_iff.1 hk
        exact .plus hdigits
      · obtain ⟨k, hk, rfl⟩ := Option.map_eq_some_iff.1 h
        obtain ⟨hdigits, rfl⟩ := readNat?_eq_some_iff.1 hk
        exact .unsigned hdigits
  · intro h
    cases h with
    | unsigned h =>
      obtain ⟨c, cs, rfl⟩ := List.exists_cons_of_ne_nil h.nonempty
      have hminus : c ≠ '-' := fun hc => absurd (hc ▸ h.head_isDigit) (by decide)
      have hplus : c ≠ '+' := fun hc => absurd (hc ▸ h.head_isDigit) (by decide)
      rw [readInt?, readNat?_eq_some_iff.2 ⟨h, rfl⟩]
      · rfl
      · rintro cs' ⟨⟩
        exact hminus rfl
      · rintro cs' ⟨⟩
        exact hplus rfl
    | plus h =>
      rw [readInt?, readNat?_eq_some_iff.2 ⟨h, rfl⟩]
      rfl
    | minus h =>
      rw [readInt?_minus, readNat?_eq_some_iff.2 ⟨h, rfl⟩]
      rfl

theorem int64?_eq_some_iff {n : Int} {m : Int64} : int64? n = some m ↔ n = m.toInt := by
  constructor
  · intro h
    rw [int64?] at h
    split at h
    · next hn =>
      obtain rfl := Option.some.inj h
      have hlow : -2 ^ 63 ≤ n := hn.1
      have hhigh : n ≤ 2 ^ 63 - 1 := hn.2
      exact (Int64.toInt_ofInt_of_le hlow (by omega)).symm
    · cases h
  · rintro rfl
    exact int64?_toInt m

/-- **A number of 64 bits is read from exactly the texts that spell it.** -/
theorem readInt64?_eq_some_iff {cs : List Char} {n : Int64} :
    readInt64? cs = some n ↔ Spells cs n.toInt := by
  simp only [readInt64?, Option.bind_eq_some_iff, readInt?_eq_some_iff, int64?_eq_some_iff,
    exists_eq_right]

theorem Spells.not_mem_underscore {cs : List Char} {n : Int} (h : Spells cs n) : '_' ∉ cs := by
  have hdigits {ds : List Char} (hds : IsDigits ds) : '_' ∉ ds := fun hmem =>
    absurd (hds.digits _ hmem) (by decide)
  cases h with
  | unsigned h => exact hdigits h
  | plus h | minus h => simpa using hdigits h

theorem isDigits_toString (n : Nat) : IsDigits (toString n).toList :=
  ⟨Json.toString_ne_nil n, fun _ => Json.isDigit_toString⟩

theorem ofDigitChars_toString (n : Nat) : Nat.ofDigitChars 10 (toString n).toList 0 = n := by
  rw [Nat.toString_eq_ofList_toDigits, String.toList_ofList, Nat.ofDigitChars_ten_toDigits]

/-- The text of a number spells it. -/
theorem spells_toString (n : Int) : Spells (toString n).toList n := by
  cases n with
  | ofNat n =>
    have h := Spells.unsigned (isDigits_toString n)
    rwa [ofDigitChars_toString] at h
  | negSucc n =>
    have h := Spells.minus (isDigits_toString (n + 1))
    rw [ofDigitChars_toString] at h
    rw [Json.toList_toString_negSucc]
    exact h

/-! ## Identifiers -/

namespace Qubit

theorem splitId_cons {c : Char} (hc : c ≠ '_') (cs : List Char) :
    splitId (c :: cs) = (splitId cs).map fun (before, after) => (c :: before, after) := by
  rw [splitId]
  exact hc

theorem splitId_append {before : List Char} (h : '_' ∉ before) (after : List Char) :
    splitId (before ++ '_' :: after) = some (before, after) := by
  induction before with
  | nil => rfl
  | cons c before ih =>
    rw [List.mem_cons, not_or] at h
    rw [List.cons_append, splitId_cons (Ne.symm h.1), ih h.2]
    rfl

theorem splitId_eq_some_iff {cs before after : List Char} :
    splitId cs = some (before, after) ↔ cs = before ++ '_' :: after ∧ '_' ∉ before := by
  constructor
  · intro h
    induction cs generalizing before with
    | nil => cases h
    | cons c cs ih =>
      by_cases hc : c = '_'
      · subst hc
        cases h
        exact ⟨rfl, List.not_mem_nil⟩
      · rw [splitId_cons hc, Option.map_eq_some_iff] at h
        obtain ⟨⟨rest, _⟩, hrest, heq⟩ := h
        obtain ⟨rfl, rfl⟩ := Prod.mk.inj heq
        obtain ⟨rfl, hno⟩ := ih hrest
        exact ⟨rfl, fun hmem => (List.mem_cons.1 hmem).elim (Ne.symm hc) hno⟩
  · rintro ⟨rfl, h⟩
    exact splitId_append h after

/-- The text spells numbers before and after its first `_`. -/
def SpellsGrid (cs : List Char) (row col : Int64) : Prop :=
  ∃ before after, cs = before ++ '_' :: after ∧ '_' ∉ before ∧
    Spells before row.toInt ∧ Spells after col.toInt

/-- The text spells one number, or two around its first `_`. -/
def SpellsNumbers (cs : List Char) : Prop :=
  (∃ n : Int64, Spells cs n.toInt) ∨ ∃ row col, SpellsGrid cs row col

theorem gridOfId?_eq_some_iff {cs : List Char} {q : Qubit} :
    gridOfId? cs = some q ↔ ∃ row col, q = grid row col ∧ SpellsGrid cs row col := by
  simp only [gridOfId?, SpellsGrid, bind, Option.bind_eq_some_iff, Prod.exists,
    splitId_eq_some_iff, readInt64?_eq_some_iff]
  constructor
  · rintro ⟨before, after, ⟨hcs, hno⟩, row, hrow, col, hcol, hq⟩
    exact ⟨row, col, (Option.some.inj hq).symm, before, after, hcs, hno, hrow, hcol⟩
  · rintro ⟨row, col, rfl, before, after, hcs, hno, hrow, hcol⟩
    exact ⟨before, after, ⟨hcs, hno⟩, row, hrow, col, hcol, rfl⟩

/-- A text with a `_` spells no number. -/
theorem SpellsGrid.not_spells {cs : List Char} {row col : Int64} (h : SpellsGrid cs row col)
    (n : Int) : ¬ Spells cs n := by
  obtain ⟨before, after, rfl, -⟩ := h
  exact fun hn => hn.not_mem_underscore (List.mem_append_right _ List.mem_cons_self)

section
variable {id : String}

theorem ofWireId_of_spellsGrid {row col : Int64} (h : SpellsGrid id.toList row col) :
    ofWireId id = grid row col := by
  rw [ofWireId, gridOfId?_eq_some_iff.2 ⟨row, col, rfl, h⟩]

theorem ofWireId_of_spells {n : Int64} (h : Spells id.toList n.toInt) : ofWireId id = line n := by
  have hgrid : gridOfId? id.toList = none := by
    rw [Option.eq_none_iff_forall_not_mem]
    intro q hq
    obtain ⟨row, col, -, hrow⟩ := gridOfId?_eq_some_iff.1 hq
    exact hrow.not_spells _ h
  rw [ofWireId, hgrid, readInt64?_eq_some_iff.2 h]

theorem ofWireId_of_not_spellsNumbers (h : ¬ SpellsNumbers id.toList) :
    ofWireId id = named id := by
  have hgrid : gridOfId? id.toList = none := by
    rw [Option.eq_none_iff_forall_not_mem]
    intro q hq
    obtain ⟨row, col, -, hrow⟩ := gridOfId?_eq_some_iff.1 hq
    exact h (Or.inr ⟨row, col, hrow⟩)
  have hline : readInt64? id.toList = none := by
    rw [Option.eq_none_iff_forall_not_mem]
    exact fun n hn => h (Or.inl ⟨n, readInt64?_eq_some_iff.1 hn⟩)
  rw [ofWireId, hgrid, hline]

end

/-! ## Reading back -/

theorem ofWireId_line (n : Int64) : ofWireId (line n).wireId = line n :=
  ofWireId_of_spells (spells_toString n.toInt)

theorem ofWireId_grid (row col : Int64) : ofWireId (grid row col).wireId = grid row col := by
  refine ofWireId_of_spellsGrid ⟨(toString row).toList, (toString col).toList, ?_, ?_,
    spells_toString row.toInt, spells_toString col.toInt⟩
  · rw [wireId, String.toList_append, String.toList_append, List.append_assoc]
    rfl
  · exact (spells_toString row.toInt).not_mem_underscore

/-- A name is read back unless it spells numbers. -/
theorem ofWireId_named_iff (name : String) :
    ofWireId name = named name ↔ ¬ SpellsNumbers name.toList := by
  constructor
  · rintro h (⟨n, hn⟩ | ⟨row, col, hgrid⟩)
    · rw [ofWireId_of_spells hn] at h
      cases h
    · rw [ofWireId_of_spellsGrid hgrid] at h
      cases h
  · exact ofWireId_of_not_spellsNumbers

/-- A text is only read as a name if the name is the text. -/
theorem eq_of_ofWireId_eq_named {id name : String} (h : ofWireId id = named name) : name = id := by
  by_cases hnumbers : SpellsNumbers id.toList
  · rcases hnumbers with ⟨n, hn⟩ | ⟨row, col, hgrid⟩
    · rw [ofWireId_of_spells hn] at h
      cases h
    · rw [ofWireId_of_spellsGrid hgrid] at h
      cases h
  · rw [ofWireId_of_not_spellsNumbers hnumbers] at h
    exact (named.inj h).symm

/-- **Qubits are read back from their identifiers**, line and grid qubits always, and
    named ones exactly if the name does not spell numbers.  Every text is read as a
    qubit, and that qubit is read back from its own identifier. -/
theorem wireId_readBack :
    (∀ q, ofWireId q.wireId = q ↔ ¬ ∃ name, q = named name ∧ SpellsNumbers name.toList) ∧
    (∀ n, ofWireId (line n).wireId = line n) ∧
    (∀ row col, ofWireId (grid row col).wireId = grid row col) ∧
    ∀ id, ofWireId (ofWireId id).wireId = ofWireId id := by
  refine ⟨fun q => ?_, ofWireId_line, ofWireId_grid, fun id => ?_⟩
  · cases q with
    | line n => simp [ofWireId_line]
    | grid row col => simp [ofWireId_grid]
    | named name =>
      simp only [wireId, ofWireId_named_iff, named.injEq, exists_eq_left']
  · cases h : ofWireId id with
    | line n => exact ofWireId_line n
    | grid row col => exact ofWireId_grid row col
    | named name =>
      rw [eq_of_ofWireId_eq_named h, wireId] at *
      exact h

/-- Numerals with leading zeros and signs are read, and written without them. -/
example : ofWireId "-007_+1" = grid (-7) 1 ∧ (ofWireId "-007_+1").wireId = "-7_1" := by
  decide +kernel

end Qubit

end QuantumProgram
