/-
  QuantumProgram — packing with all checks.

  `Program.extend` adds operations to moments without looking at their qubits.
  `Program.extendChecked` does the same with the check of `Moment.push` at each
  of these places.  The checks never fail, so that both are the same
  (`extendChecked_eq`), whatever moments and items there are; and what passes
  the checks is well-formed if its parts are (`WellFormed.extend`).
-/
import QuantumProgram.Proofs.Outcomes
import QuantumProgram.Proofs.Packing

namespace QuantumProgram

/-- An item that could be built. -/
def Item.WellFormed : Item → Prop
  | operation op => op.WellFormed
  | moment m => m.WellFormed

namespace Moment

theorem wellFormed_empty : empty.WellFormed := ⟨.nil, fun _ h => absurd h List.not_mem_nil⟩

theorem WellFormed.push {m m' : Moment} {op : Operation} (hm : m.WellFormed) (hop : op.WellFormed)
    (h : m.push op = .ok m') : m'.WellFormed := by
  obtain ⟨hapart, rfl⟩ := push_eq_ok_iff.1 h
  constructor
  · exact List.pairwise_append.2 ⟨hm.apart, List.pairwise_singleton _ _, fun o ho o' ho' =>
      List.mem_singleton.1 ho' ▸ hapart o ho⟩
  · intro o ho
    rcases List.mem_append.1 ho with ho | ho
    · exact hm.operations o ho
    · exact List.mem_singleton.1 ho ▸ hop

theorem WellFormed.ofOperations {ops : List Operation} {m : Moment}
    (hops : ∀ op ∈ ops, op.WellFormed) (h : Moment.ofOperations ops = .ok m) : m.WellFormed := by
  obtain ⟨hapart, rfl⟩ := ofOperations_eq_ok_iff.1 h
  exact ⟨hapart, hops⟩

/-- A moment that can take an operation has none on the same qubits. -/
theorem apart_of_canAccept {m : Moment} {op : Operation} (h : m.canAccept op = true) :
    ∀ o ∈ m.operations, o.Apart op :=
  fun o ho q hq hq' => canAccept_iff.1 h o ho (Or.inl ⟨q, hq, hq'⟩)

end Moment

/-! ## The index of moments that are there -/

namespace PlacementIndex

theorem earliest_recordMoment_le_iff {index : PlacementIndex} {m : Moment} {op : Operation}
    {i n : ℕ} : (index.recordMoment m i).earliest op ≤ n ↔
      index.earliest op ≤ n ∧ ∀ o ∈ m.operations, Dependent o op → i < n := by
  rw [recordMoment]
  induction m.operations generalizing index with
  | nil => simp
  | cons o rest ih =>
    rw [List.foldl_cons, ih, earliest_record_le_iff, List.forall_mem_cons, and_assoc]

end PlacementIndex

namespace Packing

variable {index : PlacementIndex} {moments : List Moment}

theorem Tracks.concat (h : Tracks index moments) (m : Moment) :
    Tracks (index.recordMoment m moments.length) (moments ++ [m]) := by
  intro op n
  rw [PlacementIndex.earliest_recordMoment_le_iff, h op n]
  simp only [opsAt_append_singleton]
  constructor
  · rintro ⟨hold, hnew⟩ a o ho hd
    split_ifs at ho with ha
    · exact ha ▸ hnew o ho hd
    · exact hold a o ho hd
  · intro hall
    refine ⟨fun a o ho hd => hall a o ?_ hd, fun o ho hd => hall _ o (by simpa using ho) hd⟩
    rwa [if_neg (Nat.ne_of_lt (lt_length_of_mem_opsAt ho))]

theorem Tracks.recordMoments : ∀ {rest : List Moment} {index : PlacementIndex}
    {moments : List Moment}, Tracks index moments →
      Tracks (index.recordMoments moments.length rest) (moments ++ rest)
  | [], _, _, h => by rwa [PlacementIndex.recordMoments, List.append_nil]
  | m :: rest, index, moments, h => by
    have hrest : Tracks ((index.recordMoment m moments.length).recordMoments
        (moments ++ [m]).length rest) (moments ++ [m] ++ rest) := (h.concat m).recordMoments
    rw [List.length_append, List.length_singleton] at hrest
    rwa [PlacementIndex.recordMoments, List.append_cons]

/-- **The index of some moments speaks of them.** -/
theorem tracks_ofMoments (moments : List Moment) : Tracks (.ofMoments moments) moments :=
  tracks_nil.recordMoments

/-- There is room for an operation at its earliest place. -/
theorem Tracks.apart (h : Tracks index moments) (op : Operation) :
    ∀ o ∈ opsAt moments (index.earliest op), o.Apart op :=
  fun _ ho q hq hq' => h.not_dependent le_rfl ho (Or.inl ⟨q, hq, hq'⟩)

/-! ## Checked packing -/

/-- `place` with a check. -/
def placeChecked (moments : List Moment) (op : Operation) (i : ℕ) :
    Except BuildError (List Moment) :=
  match moments[i]? with
  | some m => (m.push op).map (moments.set i ·)
  | none => (Moment.empty.push op).map (moments ++ [·])

/-- `stepEarliest` with a check. -/
def stepEarliestChecked (state : List Moment × PlacementIndex) (item : Item) :
    Except BuildError (List Moment × PlacementIndex) :=
  let (moments, index) := state
  match item with
  | .moment m => .ok (moments ++ [m], index.recordMoment m moments.length)
  | .operation op =>
    let i := index.earliest op
    (placeChecked moments op i).map (·, index.record op i)

/-- `addEarliest` with checks. -/
def addEarliestChecked (moments : List Moment) (items : List Item) :
    Except BuildError (List Moment) :=
  (items.foldlM stepEarliestChecked (moments, .ofMoments moments)).map (·.1)

/-- An item as a moment of its own, with a check. -/
def momentChecked : Item → Except BuildError Moment
  | .operation op => Moment.ofOperations [op]
  | .moment m => .ok m

/-- `addNew` with checks. -/
def addNewChecked (moments : List Moment) (items : List Item) : Except BuildError (List Moment) :=
  (items.mapM momentChecked).map (moments ++ ·)

/-- An operation in a new last moment, with a check. -/
def openChecked (moments : List Moment) (op : Operation) : Except BuildError (List Moment) :=
  (Moment.ofOperations [op]).map (moments ++ [·])

/-- `joinLast` with a check. -/
def joinLastChecked (moments : List Moment) (op : Operation) : Except BuildError (List Moment) :=
  match moments.getLast? with
  | some last =>
    if last.canAccept op then (last.push op).map (moments.dropLast ++ [·])
    else openChecked moments op
  | none => openChecked moments op

/-- The place of an operation in an inline packing, with a check. -/
def inlineChecked (fresh : Bool) (moments : List Moment) (op : Operation) :
    Except BuildError (List Moment) :=
  if fresh then openChecked moments op else joinLastChecked moments op

/-- `addInline` with checks. -/
def addInlineChecked (fresh : Bool) (moments : List Moment) :
    List Item → Except BuildError (List Moment)
  | [] => .ok moments
  | .moment m :: rest => addInlineChecked false (moments ++ [m]) rest
  | .operation op :: rest => do
    addInlineChecked false (← inlineChecked fresh moments op) rest

end Packing

/-- `extend` with a check wherever an operation is added to a moment. -/
def Program.extendChecked (p : Program) (items : List Item) (strategy : Strategy) :
    Except BuildError Program :=
  let moments :=
    match strategy with
    | .earliest => Packing.addEarliestChecked p.moments items
    | .new => Packing.addNewChecked p.moments items
    | .inline => Packing.addInlineChecked false p.moments items
    | .newThenInline => Packing.addInlineChecked true p.moments items
  moments.map (⟨·, p.tags⟩)

/-! ## The checks do not fail -/

namespace Packing

variable {index : PlacementIndex} {moments : List Moment}

theorem ofOperations_singleton (op : Operation) : Moment.ofOperations [op] = .ok ⟨[op]⟩ :=
  Moment.ofOperations_eq_ok (List.pairwise_singleton _ _)

theorem placeChecked_eq {op : Operation} {i : ℕ} (h : ∀ o ∈ opsAt moments i, o.Apart op) :
    placeChecked moments op i = .ok (place moments op i) := by
  rw [placeChecked, place]
  split_ifs with hlt
  · rw [opsAt_eq hlt] at h
    rw [List.getElem?_eq_getElem hlt, List.modify_eq_set_getElem?, List.getElem?_eq_getElem hlt]
    simp only [Moment.push_eq_ok h]
    rfl
  · rw [List.getElem?_eq_none (Nat.le_of_not_lt hlt)]
    simp only [Moment.push_eq_ok (m := Moment.empty) fun _ ho => absurd ho List.not_mem_nil]
    rfl

theorem foldlM_stepEarliestChecked : ∀ {items : List Item} {index : PlacementIndex}
    {moments : List Moment}, Tracks index moments →
      items.foldlM stepEarliestChecked (moments, index) =
        .ok (items.foldl stepEarliest (moments, index))
  | [], _, _, _ => rfl
  | .moment m :: rest, _, _, h => by
    rw [List.foldlM_cons, List.foldl_cons]
    exact foldlM_stepEarliestChecked (h.concat m)
  | .operation op :: rest, index, moments, h => by
    rw [List.foldlM_cons, List.foldl_cons, stepEarliestChecked, placeChecked_eq (h.apart op)]
    exact foldlM_stepEarliestChecked (h.place (h.earliest_le_length op))

theorem addEarliestChecked_eq (moments : List Moment) (items : List Item) :
    addEarliestChecked moments items = .ok (addEarliest moments items) := by
  rw [addEarliestChecked, foldlM_stepEarliestChecked (tracks_ofMoments moments)]
  rfl

theorem addNewChecked_eq (moments : List Moment) (items : List Item) :
    addNewChecked moments items = .ok (addNew moments items) := by
  have hitems : items.mapM momentChecked = .ok (items.map fun item => ⟨item.operations⟩) := by
    rw [mapM_eq_ok_iff, List.forall₂_map_right_iff, List.forall₂_same]
    intro item _
    cases item with
    | operation op => exact ofOperations_singleton op
    | moment m => cases m; rfl
  rw [addNewChecked, hitems]
  rfl

theorem openChecked_eq (moments : List Moment) (op : Operation) :
    openChecked moments op = .ok (moments ++ [⟨[op]⟩]) := by
  rw [openChecked, ofOperations_singleton]
  rfl

theorem joinLastChecked_eq (moments : List Moment) (op : Operation) :
    joinLastChecked moments op = .ok (joinLast moments op) := by
  rw [joinLastChecked, joinLast, openChecked_eq]
  cases moments.getLast? with
  | none => rfl
  | some last =>
    dsimp only
    split_ifs with h
    · rw [Moment.push_eq_ok (Moment.apart_of_canAccept h)]
      rfl
    · rfl

theorem addInlineChecked_eq : ∀ (items : List Item) (fresh : Bool) (moments : List Moment),
    addInlineChecked fresh moments items = .ok (addInline fresh moments items)
  | [], _, _ => rfl
  | .moment m :: rest, _, moments => addInlineChecked_eq rest false (moments ++ [m])
  | .operation op :: rest, fresh, moments => by
    rw [addInlineChecked, inlineChecked, addInline, openChecked_eq, joinLastChecked_eq]
    cases fresh <;> exact addInlineChecked_eq rest false _

end Packing

/-- **The packing only adds an operation to a moment if a check would let it
    through.** -/
theorem Program.extendChecked_eq (p : Program) (items : List Item) (strategy : Strategy) :
    p.extendChecked items strategy = .ok (p.extend items strategy) := by
  cases strategy with
  | earliest => rw [extendChecked, Packing.addEarliestChecked_eq]; rfl
  | new => rw [extendChecked, Packing.addNewChecked_eq]; rfl
  | inline => rw [extendChecked, Packing.addInlineChecked_eq]; rfl
  | newThenInline => rw [extendChecked, Packing.addInlineChecked_eq]; rfl

/-! ## Packed programs are well-formed -/

namespace Packing

/-- Moments that could be built. -/
def AllWellFormed (moments : List Moment) : Prop := ∀ m ∈ moments, m.WellFormed

namespace AllWellFormed
variable {moments moments' : List Moment} (h : AllWellFormed moments)
include h

theorem concat {m : Moment} (hm : m.WellFormed) : AllWellFormed (moments ++ [m]) := by
  intro m' hm'
  rcases List.mem_append.1 hm' with hm' | hm'
  · exact h m' hm'
  · exact List.mem_singleton.1 hm' ▸ hm

theorem openChecked {op : Operation} (hop : op.WellFormed)
    (heq : openChecked moments op = .ok moments') : AllWellFormed moments' := by
  obtain ⟨m, hm, rfl⟩ := map_eq_ok_iff.1 heq
  exact h.concat (.ofOperations (List.forall_mem_singleton.2 hop) hm)

theorem placeChecked {op : Operation} {i : ℕ} (hop : op.WellFormed)
    (heq : placeChecked moments op i = .ok moments') : AllWellFormed moments' := by
  rw [Packing.placeChecked] at heq
  split at heq
  · next m hm =>
    obtain ⟨m', hm', rfl⟩ := map_eq_ok_iff.1 heq
    intro m'' hm''
    rcases List.mem_or_eq_of_mem_set hm'' with hm'' | rfl
    · exact h m'' hm''
    · exact (h m (List.mem_of_getElem? hm)).push hop hm'
  · obtain ⟨m', hm', rfl⟩ := map_eq_ok_iff.1 heq
    exact h.concat (Moment.wellFormed_empty.push hop hm')

theorem joinLastChecked {op : Operation} (hop : op.WellFormed)
    (heq : joinLastChecked moments op = .ok moments') : AllWellFormed moments' := by
  rw [Packing.joinLastChecked] at heq
  split at heq
  · next last hlast =>
    split_ifs at heq
    · obtain ⟨m', hm', rfl⟩ := map_eq_ok_iff.1 heq
      have hdropLast : AllWellFormed moments.dropLast := fun m hm => h m (List.dropLast_subset _ hm)
      exact hdropLast.concat ((h last (List.mem_of_getLast? hlast)).push hop hm')
    · exact h.openChecked hop heq
  · exact h.openChecked hop heq

end AllWellFormed

variable {items : List Item} (hitems : ∀ item ∈ items, item.WellFormed)
include hitems

theorem AllWellFormed.foldlM_stepEarliestChecked {index : PlacementIndex} {moments : List Moment}
    (h : AllWellFormed moments) {state : List Moment × PlacementIndex}
    (heq : items.foldlM stepEarliestChecked (moments, index) = .ok state) :
    AllWellFormed state.1 := by
  induction items generalizing index moments with
  | nil => exact Except.ok.inj heq ▸ h
  | cons item rest ih =>
    obtain ⟨hitem, hrest⟩ := List.forall_mem_cons.1 hitems
    rw [List.foldlM_cons, bind_eq_ok_iff] at heq
    obtain ⟨⟨moments', index'⟩, hstep, heq⟩ := heq
    refine ih hrest ?_ heq
    cases item with
    | operation op =>
      obtain ⟨moments'', hplace, hpair⟩ := map_eq_ok_iff.1 hstep
      exact (Prod.mk.inj hpair).1 ▸ h.placeChecked hitem hplace
    | moment m => exact (Prod.mk.inj (Except.ok.inj hstep)).1 ▸ h.concat hitem

theorem AllWellFormed.addNewChecked {moments moments' : List Moment} (h : AllWellFormed moments)
    (heq : addNewChecked moments items = .ok moments') : AllWellFormed moments' := by
  obtain ⟨added, hadded, rfl⟩ := map_eq_ok_iff.1 heq
  intro m hm
  rcases List.mem_append.1 hm with hm | hm
  · exact h m hm
  · obtain ⟨item, hitem, hm⟩ := exists_of_forall₂ (mapM_eq_ok_iff.1 hadded).flip hm
    cases item with
    | operation op =>
      exact .ofOperations (List.forall_mem_singleton.2 (hitems _ hitem)) hm
    | moment m' => exact Except.ok.inj hm ▸ hitems _ hitem

theorem AllWellFormed.addInlineChecked {fresh : Bool} {moments moments' : List Moment}
    (h : AllWellFormed moments) (heq : addInlineChecked fresh moments items = .ok moments') :
    AllWellFormed moments' := by
  induction items generalizing fresh moments with
  | nil => exact Except.ok.inj heq ▸ h
  | cons item rest ih =>
    obtain ⟨hitem, hrest⟩ := List.forall_mem_cons.1 hitems
    cases item with
    | moment m => exact ih hrest (h.concat hitem) heq
    | operation op =>
      rw [Packing.addInlineChecked, bind_eq_ok_iff] at heq
      obtain ⟨moments'', hjoin, heq⟩ := heq
      refine ih hrest ?_ heq
      rw [inlineChecked] at hjoin
      split_ifs at hjoin
      · exact h.openChecked hitem hjoin
      · exact h.joinLastChecked hitem hjoin

end Packing

/-- **Packing keeps programs well-formed.** -/
theorem Program.WellFormed.extend {p : Program} (hp : p.WellFormed) {items : List Item}
    (hitems : ∀ item ∈ items, item.WellFormed) (strategy : Strategy) :
    (p.extend items strategy).WellFormed := by
  have hmoments : Packing.AllWellFormed p.moments := wellFormed_iff.1 hp
  obtain ⟨moments, heq, hextend⟩ := map_eq_ok_iff.1 (p.extendChecked_eq items strategy)
  rw [← hextend, wellFormed_iff]
  cases strategy with
  | earliest =>
    obtain ⟨state, hstate, rfl⟩ := map_eq_ok_iff.1 heq
    exact hmoments.foldlM_stepEarliestChecked hitems hstate
  | new => exact hmoments.addNewChecked hitems heq
  | inline => exact hmoments.addInlineChecked hitems heq
  | newThenInline => exact hmoments.addInlineChecked hitems heq

end QuantumProgram
