/-
  QuantumProgram — computations that succeed.

  A computation in steps succeeds exactly if each of its steps does
  (`bind_eq_ok_iff`, `mapM_eq_ok_iff`), and fails with the error of the first
  that does not (`mapM_eq_error_iff`).  `FailsWith` lists all that can be wrong
  in the order of the steps, of which the first is the error.  A check succeeds
  exactly if it finds no fault.
-/
import Mathlib.Data.List.Forall2
import QuantumProgram.Proofs.WellFormed

namespace QuantumProgram

variable {ε ε' α β : Type}

theorem bind_eq_ok_iff {x : Except ε α} {f : α → Except ε β} {b : β} :
    x >>= f = .ok b ↔ ∃ a, x = .ok a ∧ f a = .ok b := by
  cases x <;> simp [bind, Except.bind]

theorem pure_eq_ok_iff {a b : α} : (pure a : Except ε α) = .ok b ↔ a = b := by
  simp [pure, Except.pure]

theorem map_eq_ok_iff {x : Except ε α} {f : α → β} {b : β} :
    x.map f = .ok b ↔ ∃ a, x = .ok a ∧ f a = b := by
  cases x <;> simp [Except.map]

theorem mapError_eq_ok_iff {x : Except ε α} {f : ε → ε'} {a : α} :
    x.mapError f = .ok a ↔ x = .ok a := by
  cases x <;> simp [Except.mapError]

/-- **A list is gone through if every element is.** -/
theorem mapM_eq_ok_iff {f : α → Except ε β} {l : List α} {l' : List β} :
    l.mapM f = .ok l' ↔ List.Forall₂ (fun a b => f a = .ok b) l l' := by
  induction l generalizing l' with
  | nil => cases l' <;> simp [pure, Except.pure]
  | cons a l ih =>
    rw [List.mapM_cons, bind_eq_ok_iff, List.forall₂_cons_left_iff]
    refine exists_congr fun b => ?_
    rw [bind_eq_ok_iff, ← exists_and_left]
    refine exists_congr fun bs => ?_
    rw [ih]
    simp only [pure, Except.pure, Except.ok.injEq, eq_comm]

/-- What may be missing is gone through if it is missing or succeeds. -/
theorem mapMOption_eq_ok_iff {f : α → Except ε β} {o : Option α} {o' : Option β} :
    o.mapM f = .ok o' ↔ Option.Rel (fun a b => f a = .ok b) o o' := by
  cases o with
  | none => cases o' <;> simp [pure, Except.pure]
  | some a =>
    rw [Option.mapM_some]
    cases o' <;> cases h : f a <;> simp [h, Functor.map, Except.map]

theorem bind_eq_error_iff {x : Except ε α} {f : α → Except ε β} {e : ε} :
    x >>= f = .error e ↔ x = .error e ∨ ∃ a, x = .ok a ∧ f a = .error e := by
  cases x <;> simp [bind, Except.bind]

/-- **A list is gone through up to the first element that fails**, whose error is
    the error of the whole. -/
theorem mapM_eq_error_iff {f : α → Except ε β} {l : List α} {e : ε} :
    l.mapM f = .error e ↔ ∃ (i : ℕ) (hi : i < l.length), f l[i] = .error e ∧
      ∀ (j : ℕ) (hj : j < i), ∃ b, f l[j] = .ok b := by
  induction l with
  | nil => simp [pure, Except.pure]
  | cons a l ih =>
    have hrest (b : β) : (do let bs ← l.mapM f; pure (b :: bs)) = .error e ↔
        l.mapM f = .error e := by
      rw [bind_eq_error_iff]
      simp [pure, Except.pure]
    rw [List.mapM_cons, bind_eq_error_iff]
    simp only [hrest, ih]
    constructor
    · rintro (he | ⟨b, hb, i, hi, he, hbefore⟩)
      · exact ⟨0, Nat.succ_pos _, he, fun j hj => absurd hj (Nat.not_lt_zero j)⟩
      · refine ⟨i + 1, Nat.succ_lt_succ hi, he, fun j hj => ?_⟩
        cases j with
        | zero => exact ⟨b, hb⟩
        | succ j => exact hbefore j (Nat.lt_of_succ_lt_succ hj)
    · rintro ⟨i, hi, he, hbefore⟩
      cases i with
      | zero => exact Or.inl he
      | succ i =>
        obtain ⟨b, hb⟩ := hbefore 0 (Nat.succ_pos i)
        exact Or.inr ⟨b, hb, i, Nat.lt_of_succ_lt_succ hi, he,
          fun j hj => hbefore (j + 1) (Nat.succ_lt_succ hj)⟩

/-- A list that corresponds to another has a partner for each of its elements. -/
theorem exists_of_forall₂ {R : α → β → Prop} {l : List α} {l' : List β} (h : List.Forall₂ R l l')
    {a : α} (ha : a ∈ l) : ∃ b ∈ l', R a b := by
  induction h with
  | nil => exact absurd ha List.not_mem_nil
  | @cons x y l l' hxy _ ih =>
    rcases List.mem_cons.1 ha with rfl | ha
    · exact ⟨y, List.mem_cons_self, hxy⟩
    · obtain ⟨b, hb, hab⟩ := ih ha
      exact ⟨b, List.mem_cons_of_mem _ hb, hab⟩

/-- If each element has a partner, some list corresponds to the list. -/
theorem exists_forall₂ {R : α → β → Prop} {l : List α} (h : ∀ a ∈ l, ∃ b, R a b) :
    ∃ l', List.Forall₂ R l l' := by
  induction l with
  | nil => exact ⟨[], .nil⟩
  | cons a rest ih =>
    obtain ⟨⟨b, hb⟩, hrest⟩ := List.forall_mem_cons.1 h
    obtain ⟨l', hl'⟩ := ih hrest
    exact ⟨b :: l', .cons hb hl'⟩

/-- Lists that correspond do so by what holds of their corresponding elements. -/
theorem forall₂_imp_of_mem {R S : α → β → Prop} {l : List α} {l' : List β}
    (h : List.Forall₂ R l l') (himp : ∀ a ∈ l, ∀ b ∈ l', R a b → S a b) : List.Forall₂ S l l' := by
  induction h with
  | nil => exact .nil
  | cons hab _ ih =>
    refine .cons (himp _ List.mem_cons_self _ List.mem_cons_self hab) (ih fun a ha b hb => ?_)
    exact himp a (List.mem_cons_of_mem _ ha) b (List.mem_cons_of_mem _ hb)

/-! ## The first fault -/

/-- The computation fails with the first of some faults, and succeeds if there are
    none. -/
def FailsWith (x : Except ε α) (faults : List ε) : Prop :=
  ∀ e, x = .error e ↔ faults.head? = some e

theorem failsWith_ok (a : α) : FailsWith (.ok a : Except ε α) [] := by simp [FailsWith]

theorem FailsWith.eq_nil {a : α} {faults : List ε} (h : FailsWith (.ok a) faults) :
    faults = [] := by
  rw [← List.head?_eq_none_iff, Option.eq_none_iff_forall_ne_some]
  exact fun e he => absurd ((h e).2 he) (by simp)

/-- **The faults of a later step** come after those of an earlier one. -/
theorem FailsWith.bind {x : Except ε α} {f : α → Except ε β} {faults later : List ε}
    (hx : FailsWith x faults) (hf : ∀ a, x = .ok a → FailsWith (f a) later) :
    FailsWith (x >>= f) (faults ++ later) := by
  cases x with
  | error e' =>
    -- the first fault is one of the earlier step, whatever comes later
    have he' : faults.head? = some e' := (hx e').1 rfl
    intro e
    rw [List.head?_append, he', Option.some_or]
    simp [Bind.bind, Except.bind]
  | ok a =>
    rw [hx.eq_nil, List.nil_append]
    exact hf a rfl

/-- Of a list, the leftmost element that fails decides. -/
theorem FailsWith.mapM {f : α → Except ε β} {faults : α → List ε} {l : List α}
    (h : ∀ a ∈ l, FailsWith (f a) (faults a)) : FailsWith (l.mapM f) (l.flatMap faults) := by
  induction l with
  | nil => exact failsWith_ok []
  | cons a l ih =>
    obtain ⟨ha, hl⟩ := List.forall_mem_cons.1 h
    rw [List.mapM_cons, List.flatMap_cons, ← List.append_nil (l.flatMap faults)]
    exact ha.bind fun b _ => (ih hl).bind fun bs _ => failsWith_ok (b :: bs)

theorem FailsWith.mapError {x : Except ε α} {faults : List ε} (h : FailsWith x faults)
    (f : ε → ε') : FailsWith (x.mapError f) (faults.map f) := by
  intro e'
  rw [List.head?_map]
  cases x with
  | ok a => simp [Except.mapError, h.eq_nil]
  | error e => simp [Except.mapError, (h e).1 rfl]

/-! ## Checks -/

theorem firstRepeated?_eq_none_iff {seen qubits : List Qubit} :
    firstRepeated? seen qubits = none ↔ qubits.Nodup ∧ ∀ q ∈ qubits, q ∉ seen := by
  induction qubits generalizing seen with
  | nil => simp [firstRepeated?]
  | cons q qubits ih =>
    rw [firstRepeated?, List.nodup_cons, List.forall_mem_cons]
    split_ifs with h
    · rw [List.contains_iff_mem] at h
      simp [h]
    · rw [List.contains_iff_mem] at h
      rw [ih]
      simp only [List.mem_cons, not_or]
      constructor
      · rintro ⟨hnodup, hnot⟩
        exact ⟨⟨fun hq => (hnot q hq).1 rfl, hnodup⟩, h, fun r hr => (hnot r hr).2⟩
      · rintro ⟨⟨hq, hnodup⟩, -, hnot⟩
        exact ⟨hnodup, fun r hr => ⟨fun he => hq (he ▸ hr), hnot r hr⟩⟩

theorem checkDistinct_eq_ok_iff {qubits : List Qubit} {operation : String} {u : Unit} :
    checkDistinct qubits operation = .ok u ↔ qubits.Nodup := by
  have hrepeated : firstRepeated? [] qubits = none ↔ qubits.Nodup := by
    simp [firstRepeated?_eq_none_iff]
  rw [checkDistinct, ← hrepeated]
  cases firstRepeated? [] qubits <;> simp

namespace Operation

variable {qubits : List Qubit} {op : Operation}

theorem ofGate_eq_ok_iff {g : Gate} : ofGate g qubits = .ok op ↔
    qubits.length = g.arity ∧ qubits.Nodup ∧ op = ⟨.gate g, qubits, []⟩ := by
  rw [ofGate]
  split_ifs with h
  · simp [h, throw, throwThe, MonadExceptOf.throw, bind, Except.bind]
  · rw [not_not] at h
    simp only [bind_eq_ok_iff, checkDistinct_eq_ok_iff, pure, Except.pure, Except.ok.injEq, h,
      true_and]
    exact ⟨fun ⟨_, hnodup, heq⟩ => ⟨hnodup, heq.symm⟩, fun ⟨hnodup, heq⟩ => ⟨(), hnodup, heq.symm⟩⟩

theorem measure_eq_ok_iff {key : String} : measure key qubits = .ok op ↔
    qubits.Nodup ∧ op = ⟨.measure key, qubits, []⟩ := by
  simp only [measure, bind_eq_ok_iff, checkDistinct_eq_ok_iff, pure, Except.pure, Except.ok.injEq]
  exact ⟨fun ⟨_, hnodup, heq⟩ => ⟨hnodup, heq.symm⟩, fun ⟨hnodup, heq⟩ => ⟨(), hnodup, heq.symm⟩⟩

end Operation

namespace Moment

variable {m m' : Moment} {ops : List Operation}

theorem push_eq_ok_iff {op : Operation} :
    m.push op = .ok m' ↔ (∀ o ∈ m.operations, o.Apart op) ∧ m' = m.add op := by
  constructor
  · intro h
    rw [push] at h
    split at h
    · exact absurd h (by simp)
    · next hnone =>
      refine ⟨fun o ho => ?_, (Except.ok.inj h).symm⟩
      exact (Operation.Apart.symm fun q hq => firstOverlap?_eq_none_iff.1 hnone o ho q hq)
  · rintro ⟨hapart, rfl⟩
    exact push_eq_ok hapart

theorem foldlM_push_eq_ok_iff : ops.foldlM push m = .ok m' ↔
    ops.Pairwise Operation.Apart ∧ (∀ o ∈ m.operations, ∀ op ∈ ops, o.Apart op) ∧
      m' = ⟨m.operations ++ ops⟩ := by
  induction ops generalizing m with
  | nil =>
    obtain ⟨_⟩ := m
    simp [pure, Except.pure, eq_comm]
  | cons op ops ih =>
    rw [List.foldlM_cons, bind_eq_ok_iff]
    simp only [push_eq_ok_iff, ih, List.pairwise_cons, List.forall_mem_cons]
    constructor
    · rintro ⟨_, ⟨hop, rfl⟩, hops, hrest, rfl⟩
      simp only [add, List.forall_mem_append, List.forall_mem_singleton] at hrest
      exact ⟨⟨hrest.2, hops⟩, fun o ho => ⟨hop o ho, hrest.1 o ho⟩, by simp [add]⟩
    · rintro ⟨⟨hop, hops⟩, hrest, rfl⟩
      refine ⟨m.add op, ⟨fun o ho => (hrest o ho).1, rfl⟩, hops, ?_, by simp [add]⟩
      simp only [add, List.forall_mem_append, List.forall_mem_singleton]
      exact ⟨fun o ho => (hrest o ho).2, hop⟩

/-- **Operations make a moment exactly if they act on different qubits.** -/
theorem ofOperations_eq_ok_iff : ofOperations ops = .ok m ↔
    ops.Pairwise Operation.Apart ∧ m = ⟨ops⟩ := by
  rw [ofOperations, foldlM_push_eq_ok_iff]
  simp [empty]

end Moment

namespace Call

/-- A check returns the call itself. -/
theorem checked_eq_ok_iff {c c' : Call} :
    c.checked = .ok c' ↔ c.fault? c.program.isInvertible = none ∧ c' = c := by
  rw [checked]
  cases c.fault? c.program.isInvertible <;> simp [eq_comm]

/-- To repeat a call needs room for the names and returns the call with its number
    multiplied, if that is valid. -/
theorem repeated_eq_ok_iff {c c' : Call} {factor : Int64} : c.repeated factor = .ok c' ↔
    CallSettings.namesFit factor = true ∧
      (c.scaled factor).fault? c.program.isInvertible = none ∧ c' = c.scaled factor := by
  rw [repeated]
  split_ifs with hfit
  · rw [mapError_eq_ok_iff, checked_eq_ok_iff, and_iff_right hfit]
    rfl
  · simp [hfit]

end Call

end QuantumProgram
