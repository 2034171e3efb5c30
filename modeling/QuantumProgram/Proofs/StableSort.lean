/-
  QuantumProgram — the sort of operations that all commute.

  Where every operation may pass those before it, only the keys count: the sort
  is the stable sort by the qubits of the operations, item by item in the order
  of qubits (`sort_stable`).  A stable sort is determined by being in order and
  keeping the order of elements with equal keys (`eq_of_pairwise_of_filter`);
  the packing after it keeps the order of the list inside each moment.
-/
import QuantumProgram.Proofs.SortOrder

namespace QuantumProgram

/-! ## The order of keys -/

/-- The order of qubits: line qubits by index, then grid qubits by row and
    column, then named ones by name. -/
inductive Qubit.Before : Qubit → Qubit → Prop
  | line {i j : Int64} (h : i < j) : Before (.line i) (.line j)
  | line_grid (i row col : Int64) : Before (.line i) (.grid row col)
  | line_named (i : Int64) (name : String) : Before (.line i) (.named name)
  | row {row row' col col' : Int64} (h : row < row') : Before (.grid row col) (.grid row' col')
  | col {row col col' : Int64} (h : col < col') : Before (.grid row col) (.grid row col')
  | grid_named (row col : Int64) (name : String) : Before (.grid row col) (.named name)
  | named {name name' : String} (h : compare name name' = .lt) : Before (.named name) (.named name')

theorem Qubit.before_iff {q r : Qubit} : q.Before r ↔ compare q r = .lt := by
  change _ ↔ order q r = .lt
  constructor
  · intro h
    cases h <;>
      simp_all [order, compareLex, compareOn, rank, major, minor, label, Ordering.then_eq_lt,
        Std.compare_eq_lt]
  · cases q <;> cases r <;>
      simp [order, compareLex, compareOn, rank, major, minor, label, Ordering.then_eq_lt,
        Std.compare_eq_lt]
    case line.line => exact .line
    case line.grid => exact .line_grid ..
    case line.named => exact .line_named ..
    case grid.grid =>
      rintro (h | ⟨rfl, h⟩)
      · exact .row h
      · exact .col h
    case grid.named => exact .grid_named ..
    case named.named => exact .named

theorem compare_eq_lt_iff_lex {qubits qubits' : List Qubit} :
    compare qubits qubits' = .lt ↔ List.Lex Qubit.Before qubits qubits' := by
  induction qubits generalizing qubits' with
  | nil => cases qubits' <;> simp
  | cons q qubits ih =>
    cases qubits' with
    | nil => simp
    | cons r qubits' =>
      rw [List.compare_cons_cons, Ordering.then_eq_lt, Std.compare_eq_iff_eq, ih,
        List.cons_lex_cons_iff, Qubit.before_iff]

namespace Operation

variable {a b c : Operation}

/-- **Keys are compared item by item.** -/
theorem keyLt_iff : a.keyLt b = true ↔ List.Lex Qubit.Before a.sortKey b.sortKey := by
  rw [keyLt, decide_eq_true_eq, compare_eq_lt_iff_lex]

theorem keyLt_eq_false_iff : a.keyLt b = false ↔ (compare b.sortKey a.sortKey).isLE := by
  rw [keyLt, decide_eq_false_iff_not, ← Std.OrientedCmp.gt_iff_lt, Ordering.isLE_iff_ne_gt]

theorem keyLt_asymm (h : a.keyLt b = true) : b.keyLt a = false := by
  rw [keyLt, decide_eq_true_eq] at h
  rw [keyLt_eq_false_iff, h]
  rfl

theorem keyLt_eq_false_trans (h : b.keyLt a = false) (h' : c.keyLt b = false) :
    c.keyLt a = false := by
  rw [keyLt_eq_false_iff] at h h' ⊢
  exact Std.TransCmp.isLE_trans h h'

end Operation

/-! ## Stable sorts -/

section
variable {α : Type} {le : α → α → Bool}

/-- Whether two elements compare both ways. -/
def tied (le : α → α → Bool) (a b : α) : Bool := le a b && le b a

theorem tied_iff {a b : α} : tied le a b = true ↔ le a b = true ∧ le b a = true := by
  rw [tied, Bool.and_eq_true]

theorem tied_self (total : ∀ a b, (le a b || le b a) = true) (a : α) : tied le a a = true := by
  simpa [tied] using total a a

theorem subset_of_filter_tied (total : ∀ a b, (le a b || le b a) = true) {l l' : List α}
    (h : ∀ a, l.filter (tied le a) = l'.filter (tied le a)) : l ⊆ l' := by
  intro a ha
  have hfilter : a ∈ l.filter (tied le a) := List.mem_filter.2 ⟨ha, tied_self total a⟩
  rw [h a] at hfilter
  exact (List.mem_filter.1 hfilter).1

/-- **Lists in order are equal** if those elements that are tied to a given one
    are the same in the same order. -/
theorem eq_of_pairwise_of_filter (total : ∀ a b, (le a b || le b a) = true) {l l' : List α}
    (hl : l.Pairwise fun a b => le a b = true) (hl' : l'.Pairwise fun a b => le a b = true)
    (h : ∀ a, l.filter (tied le a) = l'.filter (tied le a)) : l = l' := by
  induction l generalizing l' with
  | nil =>
    cases l' with
    | nil => rfl
    | cons b l' =>
      have hb := subset_of_filter_tied total (fun a => (h a).symm) List.mem_cons_self
      exact absurd hb List.not_mem_nil
  | cons a l ih =>
    cases l' with
    | nil => exact absurd (subset_of_filter_tied total h List.mem_cons_self) List.not_mem_nil
    | cons b l' =>
      obtain ⟨ha, hrest⟩ := List.pairwise_cons.1 hl
      obtain ⟨hb, hrest'⟩ := List.pairwise_cons.1 hl'
      -- each head is in the other list, so the heads are tied
      have hself : tied le a a = true := tied_self total a
      have htied : tied le a b = true := by
        have hmem : a ∈ b :: l' := subset_of_filter_tied total h List.mem_cons_self
        have hmem' : b ∈ a :: l :=
          subset_of_filter_tied total (fun a => (h a).symm) List.mem_cons_self
        rcases List.mem_cons.1 hmem with rfl | ha'
        · exact hself
        rcases List.mem_cons.1 hmem' with rfl | hb'
        · exact hself
        · exact tied_iff.2 ⟨ha b hb', hb a ha'⟩
      have hclass := h a
      rw [List.filter_cons_of_pos hself, List.filter_cons_of_pos htied] at hclass
      obtain rfl : a = b := (List.cons.inj hclass).1
      have hfilter (c : α) : l.filter (tied le c) = l'.filter (tied le c) := by
        have hc := h c
        by_cases hca : tied le c a = true
        · rw [List.filter_cons_of_pos hca, List.filter_cons_of_pos hca] at hc
          exact (List.cons.inj hc).2
        · rwa [List.filter_cons_of_neg hca, List.filter_cons_of_neg hca] at hc
      rw [ih hrest hrest' hfilter]

/-- The merge sort keeps the order of elements that are tied. -/
theorem filter_tied_mergeSort
    (trans : ∀ a b c, le a b = true → le b c = true → le a c = true)
    (total : ∀ a b, (le a b || le b a) = true) (l : List α) (a : α) :
    (l.mergeSort le).filter (tied le a) = l.filter (tied le a) := by
  have hpairwise : (l.filter (tied le a)).Pairwise fun b c => le b c = true := by
    refine List.pairwise_filter.2 (List.pairwise_of_forall fun b c hb hc => ?_)
    exact trans b a c (tied_iff.1 hb).2 (tied_iff.1 hc).1
  have hsub := (List.sublist_mergeSort trans total hpairwise List.filter_sublist).filter (tied le a)
  rw [List.filter_filter] at hsub
  simp only [Bool.and_self] at hsub
  have hlength : (l.filter (tied le a)).length = ((l.mergeSort le).filter (tied le a)).length :=
    ((List.mergeSort_perm l le).filter _).length_eq.symm
  exact (hsub.eq_of_length hlength).symm

/-- Elements of which none may pass another keep their order. -/
theorem Rearranged.filter_eq {R : α → α → Prop} {p : α → Bool} {l l' : List α}
    (hR : ∀ y x, R y x → p x = true → p y = false) (h : Rearranged R l l') :
    l'.filter p = l.filter p := by
  induction h with
  | nil => rfl
  | @insert l before after x _ hx ih =>
    rw [List.filter_append] at ih
    rw [List.filter_append, List.filter_append, ← ih]
    by_cases hp : p x = true
    · have hafter : after.filter p = [] :=
        List.filter_eq_nil_iff.2 fun y hy => by rw [hR y x (hx y hy) hp]; exact Bool.false_ne_true
      rw [List.filter_cons_of_pos hp, hafter, List.append_nil, List.filter_cons_of_pos hp,
        List.filter_nil]
    · rw [List.filter_cons_of_neg hp, List.filter_cons_of_neg hp, List.filter_nil, List.append_nil]

end

/-! ## The sort of operations that commute -/

namespace Sorting

variable {commutes : Commutation}

/-- An operation that may pass all others is put where its key belongs. -/
theorem pairwise_insertBack {op : Operation} {reversed : List Operation}
    (hcommutes : ∀ tail ∈ reversed, commutes tail op = some true)
    (h : reversed.Pairwise fun a b => a.keyLt b = false) :
    (insertBack commutes op reversed).Pairwise fun a b => a.keyLt b = false := by
  induction reversed with
  | nil => exact List.pairwise_singleton _ _
  | cons tail rest ih =>
    obtain ⟨htail, hrest⟩ := List.pairwise_cons.1 h
    obtain ⟨hpass, hcommutes⟩ := List.forall_mem_cons.1 hcommutes
    have hlt : passes commutes tail op = op.keyLt tail := by simp [passes, hpass]
    rw [insertBack, hlt]
    split_ifs with hkey
    · refine List.pairwise_cons.2 ⟨fun o ho => ?_, ih hcommutes hrest⟩
      rw [insertBack_eq, List.mem_append, List.mem_cons] at ho
      rcases ho with ho | rfl | ho
      · exact htail o (List.takeWhile_subset _ ho)
      · exact Operation.keyLt_asymm hkey
      · exact htail o (List.dropWhile_subset _ ho)
    · rw [Bool.not_eq_true] at hkey
      refine List.pairwise_cons.2 ⟨fun o ho => ?_, h⟩
      rcases List.mem_cons.1 ho with rfl | ho
      · exact hkey
      · exact Operation.keyLt_eq_false_trans (htail o ho) hkey

/-- **Operations that commute end in the order of their keys.** -/
theorem pairwise_sortOperations {ops : List Operation}
    (h : ops.Pairwise fun a b => commutes a b = some true) :
    (sortOperations commutes ops).Pairwise fun a b => b.keyLt a = false := by
  induction ops using List.reverseRecOn with
  | nil => exact .nil
  | append_singleton ops op ih =>
    obtain ⟨hops, -, hlast⟩ := List.pairwise_append.1 h
    rw [sortOperations_concat, List.pairwise_reverse]
    refine pairwise_insertBack (fun tail ht => ?_) (List.pairwise_reverse.2 (ih hops))
    have hmem := (rearranged_sortOperations commutes ops).perm.mem_iff.1 (List.mem_reverse.1 ht)
    exact hlast tail hmem op List.mem_cons_self

/-- Operations with equal keys stay in their order, whether they commute or
    not. -/
theorem filter_tied_sortOperations (commutes : Commutation) (ops : List Operation)
    (a : Operation) :
    (sortOperations commutes ops).filter (tied (fun a b => !b.keyLt a) a) =
      ops.filter (tied (fun a b => !b.keyLt a) a) := by
  refine (rearranged_sortOperations commutes ops).filter_eq fun y x hpass hx => ?_
  rw [passes, Bool.and_eq_true] at hpass
  rw [tied_iff, Bool.not_eq_true', Bool.not_eq_true'] at hx
  -- a tied `y` would come no later than `x`
  refine Bool.eq_false_iff.2 fun hy => ?_
  rw [tied_iff, Bool.not_eq_true', Bool.not_eq_true'] at hy
  have hxy : x.keyLt y = false := Operation.keyLt_eq_false_trans hy.2 hx.1
  exact absurd hpass.1 (by rw [hxy]; exact Bool.false_ne_true)

/-- **The sort of operations that commute is the stable sort by keys.** -/
theorem sortOperations_eq_mergeSort {ops : List Operation}
    (h : ops.Pairwise fun a b => commutes a b = some true) :
    sortOperations commutes ops = ops.mergeSort fun a b => !b.keyLt a := by
  have trans (a b c : Operation) (hab : (!b.keyLt a) = true) (hbc : (!c.keyLt b) = true) :
      (!c.keyLt a) = true := by
    rw [Bool.not_eq_true'] at hab hbc ⊢
    exact Operation.keyLt_eq_false_trans hab hbc
  have total (a b : Operation) : (!b.keyLt a || !a.keyLt b) = true := by
    cases hba : b.keyLt a with
    | false => rfl
    | true => rw [Operation.keyLt_asymm hba]; rfl
  refine eq_of_pairwise_of_filter total ?_ (List.pairwise_mergeSort trans total ops) fun a => ?_
  · exact (pairwise_sortOperations h).imp fun hkey => by rw [hkey]; rfl
  · rw [filter_tied_mergeSort trans total]
    exact filter_tied_sortOperations commutes ops a

end Sorting

/-- Each moment of the packing has its operations in the order of the list. -/
theorem Program.sublist_of_mem_ofOperations {ops : List Operation} {m : Moment}
    (hm : m ∈ (ofOperations ops).moments) : m.operations.Sublist ops := by
  obtain ⟨a, ha, rfl⟩ := List.mem_iff_getElem.1 hm
  rw [(isSchedule_ofOperations ops).operations_eq a ha]
  have hall : ((List.finRange ops.length).map ops.get).Sublist ops := by rw [List.map_get_finRange]
  exact (List.filter_sublist.map ops.get).trans hall

/-- **Operations that commute are sorted completely and stably.**  The key of an
    operation has its qubits in order, and keys are compared item by item.  If
    every operation commutes with those after it, the sort is the stable sort by
    keys.  The sorted program has the operations of that list, each in one moment
    and dependent ones in order, and in each moment they are in the order of their
    keys. -/
theorem Pass.sort_stable (commutes : Commutation) :
    (∀ op : Operation, op.sortKey.Perm op.qubits ∧
      op.sortKey.Pairwise fun q r => ¬ r.Before q) ∧
    (∀ a b : Operation, a.keyLt b = true ↔ List.Lex Qubit.Before a.sortKey b.sortKey) ∧
    (∀ ops : List Operation, (ops.Pairwise fun a b => commutes a b = some true) →
      sortOperations commutes ops = ops.mergeSort fun a b => !b.keyLt a) ∧
    ∀ (p : Program) (context : PassContext),
      (p.operations.Pairwise fun a b => commutes a b = some true) →
      ∃ q context', ((sort commutes).run p).run.run context = (.ok q, context') ∧
        q.tags = p.tags ∧
        (∃ slot : Fin (sortOperations commutes p.operations).length → ℕ,
          IsSchedule (sortOperations commutes p.operations) slot q.moments ∧
          ∀ i j, i < j → Dependent (sortOperations commutes p.operations)[i]
            (sortOperations commutes p.operations)[j] → slot i < slot j) ∧
        ∀ m ∈ q.moments, m.operations.Pairwise fun a b => b.keyLt a = false := by
  refine ⟨fun op => ⟨op.sortKey_perm, op.pairwise_sortKey.imp fun {q r} hle => ?_⟩,
    fun _ _ => Operation.keyLt_iff, fun _ => Sorting.sortOperations_eq_mergeSort,
    fun p context h => ⟨_, _, run_sort commutes p context, p.tags_sorted,
      ⟨_, Program.isSchedule_ofOperations _, fun i j => Program.slotAt_lt_of_dependent _⟩,
      fun m hm => ?_⟩⟩
  · rw [Qubit.before_iff, ← Std.OrientedCmp.gt_iff_lt]
    exact Ordering.isLE_iff_ne_gt.1 hle
  · have hmoments : m ∈ (Program.ofOperations (sortOperations commutes p.operations)).moments := hm
    exact (Sorting.pairwise_sortOperations h).sublist (Program.sublist_of_mem_ofOperations hmoments)

/-- Controlled phases on overlapping qubits, one of them twice, and a global
    phase, which acts on no qubit. -/
def crossedPhases : List Operation :=
  [⟨.gate (.standard .cz), [.line 2, .line 1], []⟩,
    ⟨.gate (.standard .cz), [.line 2, .line 4], []⟩,
    ⟨.gate (.standard .cz), [.line 0, .line 1], []⟩,
    ⟨.gate (.standard .cz), [.line 2, .line 1], []⟩,
    ⟨.gate (.standard (.globalPhase ⟨0, 1⟩)), [], []⟩]

theorem Pass.sort_stable_crossedPhases :
    (crossedPhases.Pairwise fun a b => ruleCommutes a b = some true) ∧
    sortOperations ruleCommutes crossedPhases = crossedPhases.mergeSort (fun a b => !b.keyLt a) ∧
    ∃ q context', ((sort ruleCommutes).run ⟨crossedPhases.map fun op => ⟨[op]⟩, []⟩).run.run {} =
        (.ok q, context') ∧
      (∃ slot, IsSchedule (sortOperations ruleCommutes crossedPhases) slot q.moments) ∧
      ∀ m ∈ q.moments, m.operations.Pairwise fun a b => b.keyLt a = false := by
  have hcommute : crossedPhases.Pairwise fun a b => ruleCommutes a b = some true := by decide
  obtain ⟨-, -, hsort, hrun⟩ := sort_stable ruleCommutes
  obtain ⟨q, context', hq, -, ⟨slot, hslot, -⟩, hmoments⟩ :=
    hrun ⟨crossedPhases.map fun op => ⟨[op]⟩, []⟩ {} hcommute
  exact ⟨hcommute, hsort crossedPhases hcommute, q, context', hq, ⟨slot, hslot⟩, hmoments⟩

end QuantumProgram
