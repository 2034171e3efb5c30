/-
  QuantumProgram — packing that keeps the order.

  All strategies but the earliest one add an item at the end of the moments that
  are there (`AddsAtEnd`): it opens a moment, or it is an operation that joins the
  last one, where it depends on nothing.  So the operations stay in the order of
  the items (`Program.operations_extend`).  The earliest packing moves no
  operation behind the place that it has in such a packing
  (`Packing.exists_later_place`), and so it has no more moments.
-/
import QuantumProgram.Proofs.Schedule

namespace QuantumProgram

/-! ## One item -/

/-- An item comes to the end of some moments. -/
inductive AddsAtEnd : Item → List Moment → List Moment → Prop
  /-- It is, or is in, a moment of its own. -/
  | opens (item : Item) (moments : List Moment) :
      AddsAtEnd item moments (moments ++ [⟨item.operations⟩])
  /-- It joins the last moment, and depends on no operation there. -/
  | joins (front : List Moment) {last : Moment} {op : Operation}
      (free : ∀ o ∈ last.operations, ¬ Dependent o op) :
      AddsAtEnd (.operation op) (front ++ [last]) (front ++ [last.add op])

/-- Some moments go on: those before the last are the same, and the last one may
    have got further operations at its end. -/
def GoesOn (moments moments' : List Moment) : Prop :=
  moments = [] ∨ ∃ front last added rest, moments = front ++ [last] ∧
    moments' = front ++ ⟨last.operations ++ added⟩ :: rest

theorem GoesOn.refl (moments : List Moment) : GoesOn moments moments := by
  rcases List.eq_nil_or_concat moments with hnil | ⟨front, ⟨ops⟩, hmoments⟩
  · exact Or.inl hnil
  · rw [List.concat_eq_append] at hmoments
    exact Or.inr ⟨front, ⟨ops⟩, [], [], hmoments, by rw [List.append_nil, hmoments]⟩

namespace AddsAtEnd

open Packing (opsAt opsAt_append_singleton lt_length_of_mem_opsAt)

variable {item : Item} {op o : Operation} {start moments moments' : List Moment} {a : ℕ}

theorem operations_eq (h : AddsAtEnd item moments moments') :
    moments'.flatMap Moment.operations = moments.flatMap Moment.operations ++ item.operations := by
  cases h with
  | opens => simp
  | joins front free => simp [Moment.add, Item.operations]

theorem goesOn (h : AddsAtEnd item moments moments') (hstart : GoesOn start moments) :
    GoesOn start moments' := by
  rcases hstart with hnil | ⟨front, last, added, rest, hstart, hmoments⟩
  · exact Or.inl hnil
  · refine Or.inr ⟨front, last, ?_⟩
    cases h with
    | opens => exact ⟨added, rest ++ [⟨item.operations⟩], hstart, by simp [hmoments]⟩
    | @joins front' last' op free =>
      rcases List.eq_nil_or_concat rest with rfl | ⟨rest', m, rfl⟩
      · -- the last moment of the start is still the last one
        obtain ⟨rfl, hlast⟩ := List.append_inj' hmoments rfl
        obtain rfl := List.singleton_inj.1 hlast
        exact ⟨added ++ [op], [], hstart, by simp [Moment.add]⟩
      · rw [List.concat_eq_append, ← List.cons_append, ← List.append_assoc] at hmoments
        obtain ⟨rfl, hlast⟩ := List.append_inj' hmoments rfl
        exact ⟨added, rest' ++ [last'.add op], hstart, by simp⟩

theorem length_le (h : AddsAtEnd item moments moments') : moments'.length ≤ moments.length + 1 := by
  cases h with
  | opens => simp
  | joins => simp

/-- No operation leaves its moment. -/
theorem mem_opsAt (h : AddsAtEnd item moments moments') (ho : o ∈ opsAt moments a) :
    o ∈ opsAt moments' a := by
  cases h with
  | opens =>
    rw [opsAt_append_singleton, if_neg (Nat.ne_of_lt (lt_length_of_mem_opsAt ho))]
    exact ho
  | @joins front last op free =>
    rw [opsAt_append_singleton] at ho ⊢
    split_ifs at ho ⊢ with hlast
    · exact List.mem_append_left _ ho
    · exact ho

/-- The new operation is in the last moment. -/
theorem mem_opsAt_last (h : AddsAtEnd (.operation op) moments moments') :
    op ∈ opsAt moments' (moments'.length - 1) := by
  cases h with
  | opens => simp [opsAt_append_singleton, Item.operations]
  | joins front free => simp [opsAt_append_singleton, Moment.add]

/-- What the new operation depends on is in a moment before it. -/
theorem lt_last_of_dependent (h : AddsAtEnd (.operation op) moments moments')
    (ho : o ∈ opsAt moments a) (hdependent : Dependent o op) : a < moments'.length - 1 := by
  have hlt : a < moments.length := lt_length_of_mem_opsAt ho
  cases h with
  | opens =>
    rw [List.length_append, List.length_singleton]
    omega
  | @joins front last op free =>
    rw [List.length_append, List.length_singleton] at hlt ⊢
    have hne : a ≠ front.length := by
      rintro rfl
      rw [opsAt_append_singleton, if_pos rfl] at ho
      exact free o ho hdependent
    omega

end AddsAtEnd

/-! ## One strategy -/

namespace Packing

section
variable {front : List Moment} {last : Moment} {op : Operation}

theorem joinLast_of_free (h : ∀ o ∈ last.operations, ¬ Dependent o op) :
    joinLast (front ++ [last]) op = front ++ [last.add op] := by
  simp [joinLast, Moment.canAccept_iff.2 h]

theorem joinLast_of_dependent (h : ∃ o ∈ last.operations, Dependent o op) :
    joinLast (front ++ [last]) op = front ++ [last] ++ [⟨[op]⟩] := by
  have haccept : ¬ last.canAccept op = true := by
    rw [Moment.canAccept_iff]
    push Not
    exact h
  simp [joinLast, haccept]

end

theorem addsAtEnd_joinLast (moments : List Moment) (op : Operation) :
    AddsAtEnd (.operation op) moments (joinLast moments op) := by
  rcases List.eq_nil_or_concat moments with rfl | ⟨front, last, rfl⟩
  · exact .opens (.operation op) []
  · rw [List.concat_eq_append]
    by_cases hdependent : ∃ o ∈ last.operations, Dependent o op
    · rw [joinLast_of_dependent hdependent]
      exact .opens (.operation op) (front ++ [last])
    · push Not at hdependent
      rw [joinLast_of_free hdependent]
      exact .joins front hdependent

/-- A moment is opened inline only if there is none or the last one has an operation
    that the new one depends on. -/
theorem dependent_of_length_lt_joinLast {moments : List Moment} {op : Operation}
    (h : moments.length < (joinLast moments op).length) :
    moments = [] ∨ ∃ last, moments.getLast? = some last ∧ ∃ o ∈ last.operations, Dependent o op := by
  rcases List.eq_nil_or_concat moments with hnil | ⟨front, last, rfl⟩
  · exact Or.inl hnil
  · rw [List.concat_eq_append] at h ⊢
    refine Or.inr ⟨last, List.getLast?_concat, ?_⟩
    by_contra hfree
    push Not at hfree
    rw [joinLast_of_free hfree] at h
    simp at h

theorem addInline_append (fresh : Bool) (moments : List Moment) (items rest : List Item) :
    addInline fresh moments (items ++ rest) =
      addInline (fresh && items.isEmpty) (addInline fresh moments items) rest := by
  induction items generalizing fresh moments with
  | nil => simp [addInline]
  | cons item items ih =>
    cases item with
    | operation op => simp [addInline, ih]
    | moment m => simp [addInline, ih]

end Packing

/-- How to go on after some items: only the first one is kept out of the last
    moment. -/
def Strategy.after (s : Strategy) (items : List Item) : Strategy :=
  if s = .newThenInline ∧ items ≠ [] then .inline else s

namespace Program

variable {s : Strategy} (hs : s ≠ .earliest) (p : Program) (items : List Item)
include hs

/-- Items are added one after the other. -/
theorem extend_append (rest : List Item) :
    p.extend (items ++ rest) s = (p.extend items s).extend rest (s.after items) := by
  cases s with
  | earliest => exact absurd rfl hs
  | new => simp [extend, Strategy.after, Packing.addNew]
  | inline => simp [extend, Strategy.after, Packing.addInline_append]
  | newThenInline =>
    cases items with
    | nil => simp [extend, Strategy.after, Packing.addInline]
    | cons item items =>
      have happend := Packing.addInline_append true p.moments (item :: items) rest
      simpa [extend, Strategy.after] using happend

/-- **One item comes to the end.** -/
theorem addsAtEnd_extend_singleton (item : Item) :
    AddsAtEnd item p.moments (p.extend [item] s).moments := by
  cases s with
  | earliest => exact absurd rfl hs
  | new => exact .opens item p.moments
  | inline =>
    cases item with
    | operation op => exact Packing.addsAtEnd_joinLast p.moments op
    | moment m =>
      obtain ⟨ops⟩ := m
      exact .opens (.moment ⟨ops⟩) p.moments
  | newThenInline =>
    cases item with
    | operation op => exact .opens (.operation op) p.moments
    | moment m =>
      obtain ⟨ops⟩ := m
      exact .opens (.moment ⟨ops⟩) p.moments

theorem addsAtEnd_extend (item : Item) :
    AddsAtEnd item (p.extend items s).moments (p.extend (items ++ [item]) s).moments := by
  have hafter : s.after items ≠ .earliest := by
    rw [Strategy.after]
    split_ifs
    · exact Strategy.noConfusion
    · exact hs
  rw [extend_append hs]
  exact addsAtEnd_extend_singleton hafter (p.extend items s) item

theorem extend_nil : (p.extend [] s).moments = p.moments := by
  cases s with
  | earliest => exact absurd rfl hs
  | new => exact List.append_nil _
  | inline | newThenInline => rfl

/-- **The operations stay in the order of the items.** -/
theorem operations_extend :
    (p.extend items s).operations = p.operations ++ items.flatMap Item.operations := by
  induction items using List.reverseRecOn with
  | nil => rw [operations, extend_nil hs, List.flatMap_nil, List.append_nil, operations]
  | append_singleton items item ih =>
    have hstep := (addsAtEnd_extend hs p items item).operations_eq
    rw [operations] at ih ⊢
    rw [hstep, ih, List.append_assoc, List.flatMap_append, List.flatMap_singleton]

/-- **The old moments stay**, and only the last one may go on. -/
theorem goesOn_extend : GoesOn p.moments (p.extend items s).moments := by
  induction items using List.reverseRecOn with
  | nil =>
    rw [extend_nil hs]
    exact .refl p.moments
  | append_singleton items item ih => exact (addsAtEnd_extend hs p items item).goesOn ih

theorem length_extend_le : (p.extend items s).moments.length ≤ p.moments.length + items.length := by
  induction items using List.reverseRecOn with
  | nil => rw [extend_nil hs, List.length_nil, Nat.add_zero]
  | append_singleton items item ih =>
    have hstep := (addsAtEnd_extend hs p items item).length_le
    rw [List.length_append, List.length_singleton]
    omega

end Program

/-! ## Comparison with the earliest packing -/

namespace Packing

variable {s : Strategy} (hs : s ≠ .earliest) (ops : List Operation)
include hs

/-- **Packed as early as possible, no operation comes later** than in a packing that
    keeps the order. -/
theorem exists_later_place : ∀ a, ∀ o ∈ opsAt (packed ops).1 a, ∃ b, a ≤ b ∧
    o ∈ opsAt (Program.ofItems (ops.map .operation) s).moments b := by
  induction ops using List.reverseRecOn with
  | nil => simp [opsAt]
  | append_singleton ops op ih =>
    have hstep : AddsAtEnd (.operation op) (Program.ofItems (ops.map .operation) s).moments
        (Program.ofItems ((ops ++ [op]).map .operation) s).moments := by
      rw [List.map_append]
      exact Program.addsAtEnd_extend hs .empty (ops.map .operation) (.operation op)
    intro a o ho
    rw [packed_concat, opsAt_place ((tracks_packed ops).earliest_le_length op),
      List.mem_append] at ho
    rcases ho with hold | hnew
    · obtain ⟨b, hb, ho⟩ := ih a o hold
      exact ⟨b, hb, hstep.mem_opsAt ho⟩
    · split_ifs at hnew with ha
      · -- what the new operation has to follow is before its place in both packings
        obtain rfl := List.mem_singleton.1 hnew
        refine ⟨_, ?_, hstep.mem_opsAt_last⟩
        rw [ha, tracks_packed ops]
        intro c o ho hdependent
        obtain ⟨b, hb, ho⟩ := ih c o ho
        exact Nat.lt_of_le_of_lt hb (hstep.lt_last_of_dependent ho hdependent)
      · exact absurd hnew List.not_mem_nil

/-- So it has no more moments. -/
theorem length_ofOperations_le : (Program.ofOperations ops).moments.length ≤
    (Program.ofItems (ops.map .operation) s).moments.length := by
  rw [moments_ofOperations]
  by_contra hlt
  push Not at hlt
  obtain ⟨o, ho⟩ := List.exists_mem_of_ne_nil _ (opsAt_packed_ne_nil ops hlt)
  obtain ⟨b, hb, hob⟩ := exists_later_place hs ops _ o ho
  exact absurd (lt_length_of_mem_opsAt hob) (Nat.not_lt_of_le hb)

end Packing

namespace Program

/-- **The other strategies never reorder.**  Packed by any strategy but the earliest
    one, the operations of a program are the old ones and then those of the items in
    their order, and the old moments stay, but for further operations at the end of the
    last one.  Items are added one after the other, and the next one opens a moment or
    joins the last one, where it depends on nothing; inline it opens one only if there is
    none or it depends on something in the last one.  Of a list of operations the
    earliest packing makes no more moments than the inline one, and that no more than
    the one with a moment for each. -/
theorem extend_keeps_order :
    (∀ (p : Program) items s, s ≠ .earliest →
      (p.extend items s).operations = p.operations ++ items.flatMap Item.operations ∧
      GoesOn p.moments (p.extend items s).moments ∧
      (∀ rest, p.extend (items ++ rest) s = (p.extend items s).extend rest (s.after items)) ∧
      ∀ item, AddsAtEnd item (p.extend items s).moments (p.extend (items ++ [item]) s).moments) ∧
    (∀ (p : Program) items op,
      (p.extend items .inline).moments.length <
        (p.extend (items ++ [.operation op]) .inline).moments.length →
      (p.extend items .inline).moments = [] ∨
        ∃ last, (p.extend items .inline).moments.getLast? = some last ∧
          ∃ o ∈ last.operations, Dependent o op) ∧
    ∀ ops : List Operation,
      (ofItems (ops.map .operation) .earliest).moments.length ≤
        (ofItems (ops.map .operation) .inline).moments.length ∧
      (ofItems (ops.map .operation) .inline).moments.length ≤
        (ofItems (ops.map .operation) .new).moments.length := by
  have hinline : Strategy.inline ≠ .earliest := by decide
  refine ⟨fun p items s hs => ?_, fun p items op hopens => ?_, fun ops => ?_⟩
  · exact ⟨operations_extend hs p items, goesOn_extend hs p items, extend_append hs p items,
      addsAtEnd_extend hs p items⟩
  · rw [extend_append hinline] at hopens
    exact Packing.dependent_of_length_lt_joinLast hopens
  · refine ⟨Packing.length_ofOperations_le hinline ops, ?_⟩
    refine (length_extend_le hinline empty (ops.map .operation)).trans_eq ?_
    simp [ofItems, extend, Packing.addNew]

/-- A moment with a flip, and two more flips of the same qubit. -/
def threeFlips : List Item :=
  let flip : Operation := ⟨.gate (.standard .x), [.line 0], []⟩
  [.moment ⟨[flip]⟩, .operation flip, .operation flip]

/-- They stay in their order, and inline the last one opens a moment, since it depends
    on the one before. -/
theorem extend_keeps_order_threeFlips :
    Strategy.newThenInline ≠ .earliest ∧
      (ofItems threeFlips .newThenInline).operations = threeFlips.flatMap Item.operations ∧
      (ofItems (threeFlips.take 2) .inline).moments.length <
        (ofItems threeFlips .inline).moments.length ∧
      ∃ last, (ofItems (threeFlips.take 2) .inline).moments.getLast? = some last ∧
        ∃ o ∈ last.operations, Dependent o ⟨.gate (.standard .x), [.line 0], []⟩ := by
  have hfresh : Strategy.newThenInline ≠ .earliest := by decide
  have hopens : (ofItems (threeFlips.take 2) .inline).moments.length <
      (ofItems threeFlips .inline).moments.length := by decide
  obtain ⟨hkeeps, hinline, -⟩ := extend_keeps_order
  refine ⟨hfresh, (hkeeps empty threeFlips _ hfresh).1, hopens, ?_⟩
  refine (hinline empty (threeFlips.take 2) _ hopens).resolve_left ?_
  exact List.cons_ne_nil _ _

end Program

end QuantumProgram
