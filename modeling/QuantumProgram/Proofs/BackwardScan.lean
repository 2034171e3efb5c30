/-
  QuantumProgram — the index of last uses against stepping back.

  The earliest packing never looks at the moments: it places an operation by an
  index of last uses.  Stepping back from the end while the moment before can
  take the operation finds the same place (`Tracks.earliest_eq_scanBack`), since
  both stop at the last moment with an operation that the new one depends on.
  So the packing by the index is the packing by stepping back, from any moments
  and for any items (`Program.extend_eq_scanEarliest`).
-/
import QuantumProgram.Proofs.CheckedPacking

namespace QuantumProgram

namespace Packing

variable {index : PlacementIndex} {moments : List Moment}

/-- Stepping back stops right after the last moment with an operation that the
    new one depends on. -/
theorem scanBack_le_iff {op : Operation} {n : ℕ} : scanBack op moments.reverse ≤ n ↔
    ∀ a, ∀ o ∈ opsAt moments a, Dependent o op → a < n := by
  induction moments using List.reverseRecOn with
  | nil => simp [scanBack, opsAt]
  | append_singleton moments m ih =>
    rw [List.reverse_append, List.reverse_singleton, List.singleton_append, scanBack,
      List.length_reverse]
    simp only [opsAt_append_singleton]
    split_ifs with haccept
    · -- the last moment holds nothing that matters
      rw [Moment.canAccept_iff] at haccept
      rw [ih]
      constructor
      · intro h a o ho hd
        split_ifs at ho
        · exact absurd hd (haccept o ho)
        · exact h a o ho hd
      · intro h a o ho hd
        refine h a o ?_ hd
        rwa [if_neg (Nat.ne_of_lt (lt_length_of_mem_opsAt ho))]
    · rw [Moment.canAccept_iff] at haccept
      push Not at haccept
      obtain ⟨last, hlast, hdependent⟩ := haccept
      constructor
      · intro h a o ho _
        split_ifs at ho with ha
        · omega
        · have hlt := lt_length_of_mem_opsAt ho
          omega
      · intro h
        exact h moments.length last (by rwa [if_pos rfl]) hdependent

/-- **The index finds the place that stepping back finds.** -/
theorem Tracks.earliest_eq_scanBack (h : Tracks index moments) (op : Operation) :
    index.earliest op = scanBack op moments.reverse :=
  eq_of_forall_ge_iff fun n => (h op n).trans scanBack_le_iff.symm

/-! ## One item -/

/-- The moments and the index after an item agree again. -/
theorem Tracks.stepEarliest (h : Tracks index moments) (item : Item) :
    Tracks (Packing.stepEarliest (moments, index) item).2
      (Packing.stepEarliest (moments, index) item).1 := by
  cases item with
  | moment m => exact h.concat m
  | operation op => exact h.place (h.earliest_le_length op)

theorem Tracks.stepEarliest_eq_scanEarliest (h : Tracks index moments) (item : Item) :
    (Packing.stepEarliest (moments, index) item).1 = scanEarliest moments [item] := by
  cases item with
  | moment m => rfl
  | operation op =>
    rw [Packing.stepEarliest, scanEarliest, scanEarliest, h.earliest_eq_scanBack op]

theorem scanEarliest_append (moments : List Moment) : ∀ items items' : List Item,
    scanEarliest moments (items ++ items') = scanEarliest (scanEarliest moments items) items'
  | [], _ => rfl
  | .moment m :: items, items' => scanEarliest_append (moments ++ [m]) items items'
  | .operation op :: items, items' =>
    scanEarliest_append (place moments op (scanBack op moments.reverse)) items items'

/-! ## All items -/

theorem Tracks.foldl_stepEarliest (h : Tracks index moments) (items : List Item) :
    Tracks (items.foldl Packing.stepEarliest (moments, index)).2
      (items.foldl Packing.stepEarliest (moments, index)).1 := by
  induction items generalizing moments index with
  | nil => exact h
  | cons item items ih => exact ih (h.stepEarliest item)

theorem Tracks.foldl_stepEarliest_eq_scanEarliest (h : Tracks index moments) (items : List Item) :
    (items.foldl Packing.stepEarliest (moments, index)).1 = scanEarliest moments items := by
  induction items generalizing moments index with
  | nil => rfl
  | cons item items ih =>
    rw [List.foldl_cons, ih (h.stepEarliest item), h.stepEarliest_eq_scanEarliest,
      ← scanEarliest_append, List.singleton_append]

/-- The moments and the index after some items are added. -/
def indexed (moments : List Moment) (items : List Item) : List Moment × PlacementIndex :=
  items.foldl stepEarliest (moments, .ofMoments moments)

theorem tracks_indexed (moments : List Moment) (items : List Item) :
    Tracks (indexed moments items).2 (indexed moments items).1 :=
  (tracks_ofMoments moments).foldl_stepEarliest items

theorem addEarliest_eq_scanEarliest (moments : List Moment) (items : List Item) :
    addEarliest moments items = scanEarliest moments items :=
  (tracks_ofMoments moments).foldl_stepEarliest_eq_scanEarliest items

end Packing

namespace Program

theorem extend_earliest (p : Program) (items : List Item) :
    p.extend items .earliest = ⟨Packing.scanEarliest p.moments items, p.tags⟩ := by
  rw [extend, ← Packing.addEarliest_eq_scanEarliest]

theorem extend_earliest_append (p : Program) (items items' : List Item) :
    p.extend (items ++ items') .earliest = (p.extend items .earliest).extend items' .earliest := by
  rw [extend_earliest, extend_earliest, extend_earliest, Packing.scanEarliest_append]

theorem foldl_append (p : Program) (items : List Item) :
    items.foldl append p = p.extend items .earliest := by
  induction items generalizing p with
  | nil =>
    obtain ⟨moments, tags⟩ := p
    rw [extend_earliest]
    rfl
  | cons item items ih =>
    rw [List.foldl_cons, ih, append, ← extend_earliest_append, List.singleton_append]

/-- **Packing by the index is packing by stepping back**, from any program and
    for any items.  The index never points past the end, and it makes no
    difference whether items are added at once, in two parts or one by one. -/
theorem extend_eq_scanEarliest (p : Program) (items : List Item) :
    p.extend items .earliest = { p with moments := Packing.scanEarliest p.moments items } ∧
      (∀ op, (Packing.indexed p.moments items).2.earliest op ≤
        (p.extend items .earliest).moments.length) ∧
      (∀ items', p.extend (items ++ items') .earliest =
        (p.extend items .earliest).extend items' .earliest) ∧
      items.foldl append p = p.extend items .earliest :=
  ⟨extend_earliest p items, (Packing.tracks_indexed p.moments items).earliest_le_length,
    extend_earliest_append p items, foldl_append p items⟩

end Program

end QuantumProgram
