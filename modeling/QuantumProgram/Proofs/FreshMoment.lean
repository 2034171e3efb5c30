/-
  QuantumProgram — a new moment for the first operation.

  `newThenInline` keeps the first item out of the last moment and lets the others
  in.  So a first operation is sure of a new moment only if it is the first item.
  After moments it goes inline like all that follows: it joins the last of them if
  it depends on nothing there.  `Program.extend_newThenInline` says exactly when the
  first operation opens a moment, and how the packing goes on in both cases.
-/
import QuantumProgram.Proofs.InOrderPacking

namespace QuantumProgram

/-- What comes before the first operation is moments. -/
theorem Item.exists_first {items : List Item} (h : ∃ op, operation op ∈ items) :
    ∃ (before : List Moment) (op : Operation) (rest : List Item),
      items = before.map moment ++ operation op :: rest := by
  induction items with
  | nil => simp at h
  | cons item items ih =>
    cases item with
    | operation op => exact ⟨[], op, items, rfl⟩
    | moment m =>
      obtain ⟨before, op, rest, rfl⟩ := ih (by simpa using h)
      exact ⟨m :: before, op, rest, rfl⟩

theorem GoesOn.exists_of_concat {front moments : List Moment} {last : Moment}
    (h : GoesOn (front ++ [last]) moments) :
    ∃ added later, moments = front ++ ⟨last.operations ++ added⟩ :: later := by
  rcases h with hnil | ⟨front', last', added, later, hstart, hmoments⟩
  · exact absurd hnil (List.append_ne_nil_of_right_ne_nil _ (List.cons_ne_nil _ _))
  · obtain ⟨rfl, hlast⟩ := List.append_inj' hstart rfl
    obtain rfl := List.singleton_inj.1 hlast
    exact ⟨added, later, hmoments⟩

/-! ## The place of the first operation -/

/-- An operation depends on one in the last of some moments, if there are any. -/
def KeptOut (moments : List Moment) (op : Operation) : Prop :=
  ∀ last, moments.getLast? = some last → ∃ o ∈ last.operations, Dependent o op

theorem not_keptOut_iff {moments : List Moment} {op : Operation} : ¬ KeptOut moments op ↔
    ∃ front last, moments = front ++ [last] ∧ ∀ o ∈ last.operations, ¬ Dependent o op := by
  simp only [KeptOut, List.getLast?_eq_some_iff]
  push Not
  constructor
  · rintro ⟨last, ⟨front, hmoments⟩, hfree⟩
    exact ⟨front, last, hmoments, hfree⟩
  · rintro ⟨front, last, hmoments, hfree⟩
    exact ⟨last, ⟨front, hmoments⟩, hfree⟩

namespace Packing

variable {moments before front : List Moment} {last : Moment} {op : Operation}

/-- Whole moments go to the end, and the first of them lets the next operation in. -/
theorem addInline_moments (fresh : Bool) (rest : List Item) :
    addInline fresh moments (before.map .moment ++ rest) =
      addInline (fresh && before.isEmpty) (moments ++ before) rest := by
  induction before generalizing fresh moments with
  | nil => simp
  | cons m before ih => simp [addInline, ih]

/-- Add the first operation after the moments that stand before it among the items. -/
def placeFirst (moments before : List Moment) (op : Operation) : List Moment :=
  if before.isEmpty then moments ++ before ++ [⟨[op]⟩] else joinLast (moments ++ before) op

theorem placeFirst_of_keptOut (h : KeptOut before op) :
    placeFirst moments before op = moments ++ before ++ [⟨[op]⟩] := by
  rcases List.eq_nil_or_concat before with rfl | ⟨front, last, rfl⟩
  · rfl
  · rw [List.concat_eq_append] at h ⊢
    have hdependent := h last List.getLast?_concat
    simp [placeFirst, ← List.append_assoc, joinLast_of_dependent hdependent]

theorem placeFirst_of_free (h : ∀ o ∈ last.operations, ¬ Dependent o op) :
    placeFirst moments (front ++ [last]) op = moments ++ front ++ [last.add op] := by
  simp [placeFirst, ← List.append_assoc, joinLast_of_free h]

end Packing

namespace Program

/-- The program with some moments and then a new one for an operation. -/
def opening (p : Program) (before : List Moment) (op : Operation) : Program :=
  { p with moments := p.moments ++ before ++ [⟨[op]⟩] }

/-- The program with some moments, the last of which an operation joins. -/
def joining (p : Program) (front : List Moment) (last : Moment) (op : Operation) : Program :=
  { p with moments := p.moments ++ front ++ [last.add op] }

/-- The operation stays the first one of its moment, and nothing joins the moments before
    that. -/
theorem moments_extend_opening (p : Program) (before : List Moment) (op : Operation)
    (rest : List Item) : ∃ added later, ((p.opening before op).extend rest .inline).moments =
      p.moments ++ before ++ ⟨op :: added⟩ :: later :=
  (goesOn_extend (by decide) (p.opening before op) rest).exists_of_concat

theorem moments_extend_joining (p : Program) (front : List Moment) (last : Moment)
    (op : Operation) (rest : List Item) :
    ∃ added later, ((p.joining front last op).extend rest .inline).moments =
      p.moments ++ front ++ ⟨last.operations ++ [op] ++ added⟩ :: later :=
  (goesOn_extend (by decide) (p.joining front last op) rest).exists_of_concat

section
variable {p : Program} {before front : List Moment} {last : Moment} {op : Operation}
  {rest : List Item}

/-- Behind the first operation the packing goes on inline. -/
theorem extend_first : p.extend (before.map .moment ++ .operation op :: rest) .newThenInline =
    extend { p with moments := Packing.placeFirst p.moments before op } rest .inline := by
  simp only [extend, Packing.addInline_moments, Packing.addInline, Packing.placeFirst,
    Bool.true_and]

theorem extend_of_keptOut (h : KeptOut before op) :
    p.extend (before.map .moment ++ .operation op :: rest) .newThenInline =
      (p.opening before op).extend rest .inline := by
  rw [extend_first, Packing.placeFirst_of_keptOut h, opening]

theorem extend_of_free (h : ∀ o ∈ last.operations, ¬ Dependent o op) :
    p.extend ((front ++ [last]).map .moment ++ .operation op :: rest) .newThenInline =
      (p.joining front last op).extend rest .inline := by
  rw [extend_first, Packing.placeFirst_of_free h, joining]

/-- Only an operation that is kept out opens a moment, whatever comes after it. -/
theorem keptOut_of_opens {added : List Operation} {later : List Moment}
    (h : (p.extend (before.map .moment ++ .operation op :: rest) .newThenInline).moments =
      p.moments ++ before ++ ⟨op :: added⟩ :: later) : KeptOut before op := by
  by_contra hnot
  obtain ⟨front, last, rfl, hfree⟩ := not_keptOut_iff.1 hnot
  obtain ⟨added', later', hjoins⟩ := moments_extend_joining p front last op rest
  rw [extend_of_free hfree, hjoins] at h
  -- the last moment before the operation would have to be as long as with it
  simp only [List.append_assoc, List.append_cancel_left_eq, List.singleton_append,
    List.cons.injEq] at h
  have hlength := congrArg (·.operations.length) h.1
  simp at hlength

end

/-- **A new moment for the first operation.**  Packed `newThenInline`, the items are some
    moments, the first operation and the rest.  The moments go to the end as they are.
    The operation is the first one of a new moment, and the rest is packed inline behind
    it, exactly if no moments come before the operation or it depends on one in the last
    of them.  Else it joins that moment, and the rest is packed inline behind it. -/
theorem extend_newThenInline (p : Program) {items : List Item}
    (h : ∃ op, Item.operation op ∈ items) :
    ∃ before op rest, items = before.map .moment ++ .operation op :: rest ∧
      (p.extend items .newThenInline = (p.opening before op).extend rest .inline ↔
        KeptOut before op) ∧
      ((∃ added later, (p.extend items .newThenInline).moments =
        p.moments ++ before ++ ⟨op :: added⟩ :: later) ↔ KeptOut before op) ∧
      (¬ KeptOut before op → ∃ front last, before = front ++ [last] ∧
        p.extend items .newThenInline = (p.joining front last op).extend rest .inline) := by
  obtain ⟨before, op, rest, rfl⟩ := Item.exists_first h
  refine ⟨before, op, rest, rfl, ⟨fun heq => ?_, extend_of_keptOut⟩, ⟨?_, fun hkept => ?_⟩,
    fun hnot => ?_⟩
  · obtain ⟨added, later, hopens⟩ := moments_extend_opening p before op rest
    exact keptOut_of_opens (heq ▸ hopens)
  · rintro ⟨added, later, hopens⟩
    exact keptOut_of_opens hopens
  · rw [extend_of_keptOut hkept]
    exact moments_extend_opening p before op rest
  · obtain ⟨front, last, rfl, hfree⟩ := not_keptOut_iff.1 hnot
    exact ⟨front, last, rfl, extend_of_free hfree⟩

/-- A flip of a qubit on the line. -/
def flipOf (n : Int64) : Operation := ⟨.gate (.standard .x), [.line n], []⟩

/-- A moment with a flip, a second flip of the same qubit, and one of another qubit. -/
def stackedFlips : List Item :=
  [.moment ⟨[flipOf 0]⟩, .operation (flipOf 0), .operation (flipOf 1)]

/-- The second flip opens a moment, and the third one is packed inline behind it. -/
theorem extend_newThenInline_stackedFlips :
    (∃ op, Item.operation op ∈ stackedFlips) ∧ KeptOut [⟨[flipOf 0]⟩] (flipOf 0) ∧
      ofItems stackedFlips .newThenInline =
        (empty.opening [⟨[flipOf 0]⟩] (flipOf 0)).extend [.operation (flipOf 1)] .inline := by
  have hop : ∃ op, Item.operation op ∈ stackedFlips := ⟨flipOf 0, by simp [stackedFlips]⟩
  have hkept : KeptOut [⟨[flipOf 0]⟩] (flipOf 0) := by
    rintro last hlast
    obtain rfl := Option.some.inj hlast
    exact ⟨flipOf 0, List.mem_singleton.2 rfl,
      Or.inl ⟨.line 0, List.mem_singleton.2 rfl, List.mem_singleton.2 rfl⟩⟩
  obtain ⟨before, op, rest, hitems, hopens, -⟩ := extend_newThenInline empty hop
  -- only one list of moments is followed by the first operation
  rcases before with _ | ⟨m, _ | ⟨m', before⟩⟩
  · simp [stackedFlips] at hitems
  · simp only [stackedFlips, List.map_cons, List.map_nil, List.cons_append, List.nil_append,
      List.cons.injEq, Item.moment.injEq, Item.operation.injEq] at hitems
    obtain ⟨rfl, rfl, rfl⟩ := hitems
    exact ⟨hop, hkept, hopens.2 hkept⟩
  · simp [stackedFlips] at hitems

/-- A moment with a flip, and a flip of another qubit. -/
def apartFlips : List Item := [.moment ⟨[flipOf 0]⟩, .operation (flipOf 1)]

/-- The second flip is the first operation, and it opens no moment: it joins the moment
    before it. -/
theorem newThenInline_joins_apartFlips :
    ofItems apartFlips .newThenInline = ⟨[⟨[flipOf 0, flipOf 1]⟩], []⟩ ∧
      ofItems apartFlips .newThenInline ≠
        (empty.opening [⟨[flipOf 0]⟩] (flipOf 1)).extend [] .inline ∧
      ¬ ∃ added later, (ofItems apartFlips .newThenInline).moments =
        empty.moments ++ [⟨[flipOf 0]⟩] ++ ⟨flipOf 1 :: added⟩ :: later := by
  have hjoins : ofItems apartFlips .newThenInline = ⟨[⟨[flipOf 0, flipOf 1]⟩], []⟩ := rfl
  refine ⟨hjoins, fun heq => ?_, ?_⟩
  · have hlength := congrArg (·.moments.length) heq
    exact absurd hlength (by decide)
  · rintro ⟨added, later, hmoments⟩
    have hlength := congrArg List.length hmoments
    simp [hjoins, empty] at hlength

end Program

end QuantumProgram
