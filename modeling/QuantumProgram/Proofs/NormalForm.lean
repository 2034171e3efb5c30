/-
  QuantumProgram — the earliest packing as a normal form.

  Moments are settled if the operations of a moment do not depend on each other
  and each one depends on an operation of the moment before.  The packing leaves
  settled moments (`settled_packed`), and their operations are packed into the
  same moments again (`Settled.packed_operations`).  Lists that can be turned
  into each other by swaps of neighbours that do not depend on each other are
  packed alike, up to the order inside a moment, and no others are
  (`Program.ofOperations_normalForm`).
-/
import Mathlib.Logic.Relation
import QuantumProgram.Proofs.Equality
import QuantumProgram.Proofs.Schedule

namespace QuantumProgram

namespace Packing

/-! ## Settled moments -/

/-- Nothing could be packed otherwise: no moment is empty, the operations of a
    moment do not depend on each other, and each operation depends on one of the
    moment before. -/
structure Settled (moments : List Moment) : Prop where
  nonempty : ∀ a < moments.length, opsAt moments a ≠ []
  independent : ∀ a, (opsAt moments a).Pairwise fun o o' => ¬ Dependent o o'
  supported : ∀ a, ∀ o ∈ opsAt moments (a + 1), ∃ o' ∈ opsAt moments a, Dependent o' o

/-- An operation that is not placed in the first moment depends on one of the
    moment before its own. -/
theorem Tracks.exists_dependent {index : PlacementIndex} {moments : List Moment}
    (h : Tracks index moments) {op : Operation} {a : ℕ} (ha : index.earliest op = a + 1) :
    ∃ o ∈ opsAt moments a, Dependent o op := by
  have hnot : ¬ index.earliest op ≤ a := by omega
  rw [h op a] at hnot
  push Not at hnot
  obtain ⟨b, o, ho, hd, hab⟩ := hnot
  have hba : b < a + 1 := (h op (a + 1)).1 ha.le b o ho hd
  obtain rfl : b = a := by omega
  exact ⟨o, ho, hd⟩

theorem settled_packed (ops : List Operation) : Settled (packed ops).1 := by
  refine ⟨fun a => opsAt_packed_ne_nil ops, fun a => ?_, fun a => ?_⟩
  · induction ops using List.reverseRecOn with
    | nil => simp [opsAt]
    | append_singleton ops op ih =>
      have ht := tracks_packed ops
      rw [packed_concat, opsAt_place (ht.earliest_le_length op)]
      refine List.pairwise_append.2 ⟨ih, ?_, fun o ho o' ho' => ?_⟩
      · split_ifs <;> simp
      · split_ifs at ho' with ha
        · obtain rfl := List.mem_singleton.1 ho'
          exact ht.not_dependent ha.ge ho
        · simp at ho'
  · induction ops using List.reverseRecOn with
    | nil => simp [opsAt]
    | append_singleton ops op ih =>
      have ht := tracks_packed ops
      rw [packed_concat, opsAt_place (ht.earliest_le_length op),
        opsAt_place (ht.earliest_le_length op)]
      intro o ho
      have hold : ∃ o' ∈ opsAt (packed ops).1 a, Dependent o' o := by
        rcases List.mem_append.1 ho with ho | ho
        · exact ih o ho
        · split_ifs at ho with ha
          · obtain rfl := List.mem_singleton.1 ho
            exact ht.exists_dependent ha.symm
          · simp at ho
      obtain ⟨o', ho', hd⟩ := hold
      exact ⟨o', List.mem_append_left _ ho', hd⟩

/-! ## Packing settled moments again -/

/-- The moments with a further one for the given operations, if there are any. -/
def withLast (moments : List Moment) (ops : List Operation) : List Moment :=
  if ops = [] then moments else moments ++ [⟨ops⟩]

theorem opsAt_withLast (moments : List Moment) (ops : List Operation) (a : ℕ) :
    opsAt (withLast moments ops) a = if a = moments.length then ops else opsAt moments a := by
  unfold withLast
  split_ifs with hops ha ha
  · simp [hops, ha, opsAt]
  · rfl
  · rw [opsAt_append_singleton, if_pos ha]
  · rw [opsAt_append_singleton, if_neg ha]

theorem place_withLast (moments : List Moment) (ops : List Operation) (op : Operation) :
    place (withLast moments ops) op moments.length = withLast moments (ops ++ [op]) := by
  by_cases hops : ops = []
  · simp [withLast, place, hops, Moment.add, Moment.empty]
  · simp [withLast, place, hops, Moment.add, List.modify_eq_take_cons_drop]

theorem Settled.init {moments : List Moment} {m : Moment} (h : Settled (moments ++ [m])) :
    Settled moments := by
  have heq : ∀ a < moments.length, opsAt (moments ++ [m]) a = opsAt moments a := fun a ha => by
    rw [opsAt_append_singleton, if_neg (Nat.ne_of_lt ha)]
  refine ⟨fun a ha => ?_, fun a => ?_, fun a o ho => ?_⟩
  · rw [← heq a ha]
    exact h.nonempty a (by simp; omega)
  · by_cases ha : a < moments.length
    · exact heq a ha ▸ h.independent a
    · simp [opsAt, List.getElem?_eq_none (Nat.le_of_not_lt ha)]
  · have ha : a + 1 < moments.length := lt_length_of_mem_opsAt ho
    rw [← heq _ ha] at ho
    rw [← heq a (by omega)]
    exact h.supported a o ho

/-- An operation of the last of some settled moments finds its place there
    again, with those before it. -/
theorem Settled.earliest_eq {moments : List Moment} {m : Moment} (h : Settled (moments ++ [m]))
    {before after : List Operation} {op : Operation} (hm : m.operations = before ++ op :: after)
    {index : PlacementIndex} (ht : Tracks index (withLast moments before)) :
    index.earliest op = moments.length := by
  have hlast : opsAt (moments ++ [m]) moments.length = m.operations := by
    rw [opsAt_append_singleton, if_pos rfl]
  apply le_antisymm
  · refine (ht op _).2 fun a o ho hd => ?_
    rw [opsAt_withLast] at ho
    split_ifs at ho with ha
    · have hpair := h.independent moments.length
      rw [hlast, hm] at hpair
      exact absurd hd ((List.pairwise_append.1 hpair).2.2 o ho op List.mem_cons_self)
    · exact lt_length_of_mem_opsAt ho
  · rcases Nat.eq_zero_or_pos moments.length with h0 | hpos
    · omega
    -- the operation depends on one of the moment before the last
    · obtain ⟨b, hb⟩ : ∃ b, moments.length = b + 1 := ⟨moments.length - 1, by omega⟩
      have hop : op ∈ opsAt (moments ++ [m]) (b + 1) := by
        rw [← hb, hlast, hm]
        simp
      obtain ⟨o, ho, hd⟩ := h.supported b op hop
      rw [opsAt_append_singleton, if_neg (by omega)] at ho
      have hmem : o ∈ opsAt (withLast moments before) b := by
        rwa [opsAt_withLast, if_neg (by omega)]
      have hlt : b < index.earliest op := (ht op _).1 le_rfl b o hmem hd
      omega

/-- **The operations of settled moments are packed into these moments.** -/
theorem Settled.packed_operations {moments : List Moment} (h : Settled moments) :
    (packed (moments.flatMap Moment.operations)).1 = moments := by
  induction moments using List.reverseRecOn with
  | nil => rfl
  | append_singleton moments m ih =>
    -- the last moment is filled one operation after the other
    have hfill : ∀ before after, m.operations = before ++ after →
        (packed (moments.flatMap Moment.operations ++ before)).1 = withLast moments before := by
      intro before
      induction before using List.reverseRecOn with
      | nil =>
        intro _ _
        rw [List.append_nil, ih h.init]
        rfl
      | append_singleton before op ihb =>
        intro after hm
        rw [List.append_assoc, List.singleton_append] at hm
        have hbefore := ihb _ hm
        have ht := tracks_packed (moments.flatMap Moment.operations ++ before)
        rw [hbefore] at ht
        rw [← List.append_assoc, packed_concat, hbefore, h.earliest_eq hm ht, place_withLast]
    have hne : m.operations ≠ [] := by
      have hnonempty := h.nonempty moments.length (by simp)
      rwa [opsAt_append_singleton, if_pos rfl] at hnonempty
    have hall := hfill m.operations [] (List.append_nil _).symm
    rw [List.flatMap_append, List.flatMap_singleton, hall, withLast, if_neg hne]
    cases m
    rfl

/-! ## Swaps of neighbours -/

/-- Two neighbours that do not depend on each other are swapped. -/
inductive IndependentSwap : List Operation → List Operation → Prop
  | swap (before after : List Operation) {a b : Operation} (h : ¬ Dependent a b) :
      IndependentSwap (before ++ a :: b :: after) (before ++ b :: a :: after)

/-- The second list comes from the first by swaps of neighbours that do not
    depend on each other. -/
abbrev Swapped : List Operation → List Operation → Prop :=
  Relation.ReflTransGen IndependentSwap

theorem IndependentSwap.symm {ops ops' : List Operation} (h : IndependentSwap ops ops') :
    IndependentSwap ops' ops := by
  obtain ⟨before, after, hd⟩ := h
  exact .swap before after fun hd' => hd hd'.symm

theorem Swapped.symm {ops ops' : List Operation} (h : Swapped ops ops') : Swapped ops' ops := by
  induction h with
  | refl => exact .refl
  | tail _ hswap ih => exact .head hswap.symm ih

/-- What stands around the swapped operations does not matter. -/
theorem Swapped.around {ops ops' : List Operation} (h : Swapped ops ops')
    (before after : List Operation) :
    Swapped (before ++ ops ++ after) (before ++ ops' ++ after) := by
  refine h.lift (fun l => before ++ l ++ after) ?_
  rintro _ _ ⟨first, last, hd⟩
  have hswap := IndependentSwap.swap (before ++ first) (last ++ after) hd
  simpa only [Function.onFun, List.append_assoc, List.cons_append] using hswap

theorem Swapped.cons {ops ops' : List Operation} (h : Swapped ops ops') (op : Operation) :
    Swapped (op :: ops) (op :: ops') := by
  simpa using h.around [op] []

/-- An operation moves to the front of others that it does not depend on. -/
theorem swapped_move {op : Operation} : ∀ {ops : List Operation}, (∀ o ∈ ops, ¬ Dependent o op) →
    Swapped (ops ++ [op]) (op :: ops)
  | [], _ => .refl
  | o :: ops, h => by
    obtain ⟨ho, hops⟩ := List.forall_mem_cons.1 h
    have hrest : Swapped (o :: (ops ++ [op])) (o :: op :: ops) := (swapped_move hops).cons o
    exact hrest.tail (.swap [] ops ho)

/-- Elements that go in front of those that they do not depend on do so by
    swaps. -/
theorem swapped_of_rearranged {ops ops' : List Operation}
    (h : Rearranged (fun a b => ¬ Dependent a b) ops ops') : Swapped ops ops' := by
  induction h with
  | nil => exact .refl
  | @insert l before after x _ hx ih =>
    have hfirst : Swapped (l ++ [x]) (before ++ after ++ [x]) := by simpa using ih.around [] [x]
    have hthen : Swapped (before ++ after ++ [x]) (before ++ x :: after) := by
      simpa using (swapped_move hx).around before []
    exact hfirst.trans hthen

/-- Operations that do not depend on each other come in any order by swaps. -/
theorem swapped_of_perm {ops ops' : List Operation} (h : ops.Perm ops')
    (hind : ops.Pairwise fun a b => ¬ Dependent a b) : Swapped ops ops' := by
  induction h with
  | nil => exact .refl
  | cons x _ ih => exact (ih (List.pairwise_cons.1 hind).2).cons x
  | swap x y l =>
    have hd : ¬ Dependent y x := (List.pairwise_cons.1 hind).1 x List.mem_cons_self
    exact .single (.swap [] l hd)
  | trans hperm _ ih ih' =>
    exact (ih hind).trans (ih' (hind.perm hperm fun hd hd' => hd hd'.symm))

/-! ## Moments that hold the same operations -/

/-- Moment by moment the same operations, in whatever order. -/
abbrev Matching : List Moment → List Moment → Prop :=
  List.Forall₂ fun m m' => m.operations.Perm m'.operations

theorem matching_iff {moments moments' : List Moment} : Matching moments moments' ↔
    moments.length = moments'.length ∧ ∀ a, (opsAt moments a).Perm (opsAt moments' a) := by
  induction moments generalizing moments' with
  | nil =>
    cases moments' with
    | nil => simp [opsAt]
    | cons m' moments' => simp
  | cons m moments ih =>
    cases moments' with
    | nil => simp
    | cons m' moments' =>
      rw [Matching, List.forall₂_cons, ← Matching, ih, List.length_cons, List.length_cons,
        Nat.add_right_cancel_iff]
      constructor
      · rintro ⟨hm, hlength, hops⟩
        refine ⟨hlength, fun a => ?_⟩
        cases a with
        | zero => exact hm
        | succ a => exact hops a
      · rintro ⟨hlength, hops⟩
        exact ⟨hops 0, hlength, fun a => hops (a + 1)⟩

section
variable {moments moments' : List Moment}

theorem Matching.trans {moments'' : List Moment} (h : Matching moments moments')
    (h' : Matching moments' moments'') : Matching moments moments'' := by
  obtain ⟨hlength, hops⟩ := matching_iff.1 h
  obtain ⟨hlength', hops'⟩ := matching_iff.1 h'
  exact matching_iff.2 ⟨hlength.trans hlength', fun a => (hops a).trans (hops' a)⟩

theorem Matching.place (h : Matching moments moments') {i : ℕ} (hi : i ≤ moments.length)
    (op : Operation) : Matching (place moments op i) (Packing.place moments' op i) := by
  obtain ⟨hlength, hops⟩ := matching_iff.1 h
  refine matching_iff.2 ⟨?_, fun a => ?_⟩
  · rw [length_place hi, length_place (hlength ▸ hi), hlength]
  · rw [opsAt_place hi, opsAt_place (hlength ▸ hi)]
    exact (hops a).append_right _

/-- Two operations may be placed in either order. -/
theorem matching_place_place {i j : ℕ} (hi : i ≤ moments.length) (hj : j ≤ moments.length)
    (op op' : Operation) :
    Matching (Packing.place (Packing.place moments op i) op' j)
      (Packing.place (Packing.place moments op' j) op i) := by
  have hi' : i ≤ (Packing.place moments op' j).length := by
    rw [length_place hj]
    exact hi.trans (le_max_left _ _)
  have hj' : j ≤ (Packing.place moments op i).length := by
    rw [length_place hi]
    exact hj.trans (le_max_left _ _)
  refine matching_iff.2 ⟨?_, fun a => ?_⟩
  · rw [length_place hi', length_place hj', length_place hi, length_place hj, max_right_comm]
  · rw [opsAt_place hi', opsAt_place hj', opsAt_place hi, opsAt_place hj, List.append_assoc,
      List.append_assoc]
    exact List.perm_append_comm.append_left _

/-- An operation finds the same place in matching moments. -/
theorem Matching.earliest_eq (h : Matching moments moments') {index index' : PlacementIndex}
    (ht : Tracks index moments) (ht' : Tracks index' moments') (op : Operation) :
    index.earliest op = index'.earliest op := by
  refine eq_of_forall_ge_iff fun n => ?_
  rw [ht op n, ht' op n]
  simp only [((matching_iff.1 h).2 _).mem_iff]

end

/-- Lists that are packed alike are so with the same operations after them. -/
theorem Matching.append {ops ops' : List Operation} (h : Matching (packed ops).1 (packed ops').1)
    (after : List Operation) : Matching (packed (ops ++ after)).1 (packed (ops' ++ after)).1 := by
  induction after using List.reverseRecOn with
  | nil => simpa using h
  | append_singleton after op ih =>
    have hplace := ih.earliest_eq (tracks_packed _) (tracks_packed _) op
    rw [← List.append_assoc, ← List.append_assoc, packed_concat, packed_concat, ← hplace]
    exact ih.place ((tracks_packed _).earliest_le_length op) op

/-- An operation that does not depend on the one before it finds its place as if
    that were not there. -/
theorem packed_concat_concat (ops : List Operation) {a b : Operation} (h : ¬ Dependent a b) :
    (packed (ops ++ [a] ++ [b])).1 =
      place (place (packed ops).1 a ((packed ops).2.earliest a)) b ((packed ops).2.earliest b) := by
  have hb : (packed (ops ++ [a])).2.earliest b = (packed ops).2.earliest b := by
    refine eq_of_forall_ge_iff fun n => ?_
    rw [packed_concat, PlacementIndex.earliest_record_le_iff]
    exact and_iff_left fun hd => absurd hd h
  rw [packed_concat, hb, packed_concat]

theorem matching_of_swap {ops ops' : List Operation} (h : IndependentSwap ops ops') :
    Matching (packed ops).1 (packed ops').1 := by
  obtain @⟨before, after, a, b, hd⟩ := h
  have hswap : Matching (packed (before ++ [a] ++ [b])).1 (packed (before ++ [b] ++ [a])).1 := by
    rw [packed_concat_concat before hd, packed_concat_concat before fun hd' => hd hd'.symm]
    have ht := tracks_packed before
    exact matching_place_place (ht.earliest_le_length a) (ht.earliest_le_length b) a b
  simpa using hswap.append after

/-- Settled moments that hold the same operations are turned into each other by
    swaps. -/
theorem swapped_of_matching {moments moments' : List Moment} (h : Matching moments moments')
    (hind : ∀ m ∈ moments, m.operations.Pairwise fun a b => ¬ Dependent a b) :
    Swapped (moments.flatMap Moment.operations) (moments'.flatMap Moment.operations) := by
  induction h with
  | nil => exact .refl
  | @cons m m' rest rest' hm _ ih =>
    obtain ⟨hfirst, hrest⟩ := List.forall_mem_cons.1 hind
    rw [List.flatMap_cons, List.flatMap_cons]
    have hmoment : Swapped (m.operations ++ rest.flatMap Moment.operations)
        (m'.operations ++ rest.flatMap Moment.operations) := by
      simpa using (swapped_of_perm hm hfirst).around [] (rest.flatMap Moment.operations)
    have hlater : Swapped (m'.operations ++ rest.flatMap Moment.operations)
        (m'.operations ++ rest'.flatMap Moment.operations) := by
      simpa using (ih hrest).around m'.operations []
    exact hmoment.trans hlater

end Packing

namespace Program

open Packing

/-- **The earliest packing is a normal form of the order of dependent
    operations.**  Packing the operations of a packed program gives the program
    again, with the same order inside its moments; and two lists have the same
    operations in the same moments exactly if swaps of neighbours that do not
    depend on each other lead from one to the other. -/
theorem ofOperations_normalForm :
    (∀ ops, ofOperations (ofOperations ops).operations = ofOperations ops ∧
      (ofOperations (ofOperations ops).operations == ofOperations ops) = true) ∧
    ∀ ops ops', Swapped ops ops' ↔
      Matching (ofOperations ops).moments (ofOperations ops').moments := by
  refine ⟨fun ops => ?_, fun ops ops' => ⟨fun h => ?_, fun h => ?_⟩⟩
  · have hmoments : (ofOperations (ofOperations ops).operations).moments =
        (ofOperations ops).moments := (settled_packed ops).packed_operations
    have heq : ofOperations (ofOperations ops).operations = ofOperations ops :=
      congrArg (Program.mk · []) hmoments
    exact ⟨heq, by rw [heq]; exact beq_self_eq_true _⟩
  · induction h with
    | refl => exact List.forall₂_same.2 fun m _ => .refl m.operations
    | tail _ hswap ih => exact ih.trans (matching_of_swap hswap)
  · have hind : ∀ m ∈ (ofOperations ops).moments,
        m.operations.Pairwise fun a b => ¬ Dependent a b := fun m hm => by
      obtain ⟨a, ha, rfl⟩ := List.mem_iff_getElem.1 hm
      exact opsAt_eq ha ▸ (settled_packed ops).independent a
    have hpacked : Swapped ops (ofOperations ops).operations :=
      swapped_of_rearranged (rearranged_ofOperations ops)
    have hpacked' : Swapped ops' (ofOperations ops').operations :=
      swapped_of_rearranged (rearranged_ofOperations ops')
    exact (hpacked.trans (swapped_of_matching h hind)).trans hpacked'.symm

end Program

end QuantumProgram
