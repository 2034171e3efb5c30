/-
  QuantumProgram — repeating a call.

  To repeat a call makes the names of the repetitions, which may be too many, and
  checks the call again with its number of repetitions and its ids multiplied.  Of
  the checks only three can fail then: the ids are too many where the product was
  held at the end of its range, a termination condition stands alone no longer, and
  a program without an inverse would run backwards
  (`Call.fault?_scaled_eq_none_iff`).  The ids of the repeated call are different
  if those of the call are, since the numbers before them have no `-`
  (`Call.nodup_expandedIds`).
-/
import QuantumProgram.Proofs.DoubleInverse
import QuantumProgram.Proofs.Numerals

namespace QuantumProgram

/-! ## Lists divided at a separator -/

/-- Two divisions of a list at a separator are the same, or the part before it goes on
    with a separator in one of them. -/
theorem append_cons_eq_append_cons_iff {α : Type} {x : α} {l l' r r' : List α} :
    l ++ x :: r = l' ++ x :: r' ↔
      (l = l' ∧ r = r') ∨
      (∃ s, l' = l ++ x :: s ∧ r = s ++ x :: r') ∨
      ∃ s, l = l' ++ x :: s ∧ r' = s ++ x :: r := by
  rw [List.append_eq_append_iff]
  simp only [List.cons_eq_append_iff]
  constructor
  · rintro (⟨_, hl, ⟨rfl, hr⟩ | ⟨s, rfl, hr⟩⟩ | ⟨_, hl, ⟨rfl, hr⟩ | ⟨s, rfl, hr⟩⟩)
    · exact Or.inl ⟨by simpa using hl.symm, (List.cons.inj hr).2.symm⟩
    · exact Or.inr (Or.inl ⟨s, hl, hr⟩)
    · exact Or.inl ⟨by simpa using hl, (List.cons.inj hr).2⟩
    · exact Or.inr (Or.inr ⟨s, hl, hr⟩)
  · rintro (⟨rfl, rfl⟩ | ⟨s, rfl, rfl⟩ | ⟨s, rfl, rfl⟩)
    · exact Or.inl ⟨[], by simp⟩
    · exact Or.inl ⟨x :: s, by simp⟩
    · exact Or.inr ⟨x :: s, by simp⟩

/-- Lists that go up to the same separator, which they do not contain, are equal
    before it and after it. -/
theorem append_separator_inj {α : Type} {x : α} {l l' r r' : List α} (hl : x ∉ l) (hl' : x ∉ l') :
    l ++ x :: r = l' ++ x :: r' ↔ l = l' ∧ r = r' := by
  rw [append_cons_eq_append_cons_iff, or_iff_left]
  rintro (⟨s, rfl, -⟩ | ⟨s, rfl, -⟩)
  · exact hl' (by simp)
  · exact hl (by simp)

namespace Call

/-! ## Products -/

theorem toInt_saturatingMul (a b : Int64) :
    (saturatingMul a b).toInt = max (-2 ^ 63) (min (2 ^ 63 - 1) (a.toInt * b.toInt)) := by
  rw [saturatingMul, Int64.toInt_minValue, Int64.toInt_maxValue,
    Int64.toInt_ofInt_of_le (by omega) (by omega)]

/-- The first `-` of a numbered id ends the number. -/
theorem numbered_inj {i j : ℕ} {id id' : String} :
    toString i ++ "-" ++ id = toString j ++ "-" ++ id' ↔ i = j ∧ id = id' := by
  have hnumber (k : ℕ) : '-' ∉ (toString k).toList := fun h =>
    absurd (Json.isDigit_toString h) (by decide)
  have hlist (k : ℕ) (s : String) :
      (toString k ++ "-" ++ s).toList = (toString k).toList ++ '-' :: s.toList := by
    rw [String.toList_append, String.toList_append, List.append_assoc]
    rfl
  rw [← String.toList_inj, hlist, hlist, append_separator_inj (hnumber i) (hnumber j),
    String.toList_inj, String.toList_inj]
  exact and_congr_left fun _ => ⟨fun h => Nat.repr_injective h, fun h => h ▸ rfl⟩

variable {factor : Int64} {ids : List String}

/-- The ids of a call with the given ids that is repeated `factor` times. -/
def expandedIds (factor : Int64) (ids : List String) : List String :=
  if factor.toInt.natAbs = 1 then ids
  else (List.range factor.toInt.natAbs).flatMap fun i => ids.map fun id => toString i ++ "-" ++ id

/-- The outer names make no difference where there are no ids. -/
theorem repeatedIds_eq (factor : Int64) (ids? : Option (List String)) :
    repeatedIds factor ids? = ids?.map (expandedIds factor) := by
  cases ids? with
  | none => rfl
  | some ids =>
    unfold repeatedIds CallSettings.defaultIds expandedIds
    split_ifs
    · rfl
    · simp [List.flatMap_map]

theorem expandedIds_of_natAbs_eq_one (h : factor.toInt.natAbs = 1) : expandedIds factor = id :=
  funext fun _ => if_pos h

theorem length_expandedIds :
    (expandedIds factor ids).length = factor.toInt.natAbs * ids.length := by
  rw [expandedIds]
  split_ifs with h
  · rw [h, Nat.one_mul]
  · rw [List.length_flatMap]
    simp

/-- **Repeating keeps ids apart.** -/
theorem nodup_expandedIds (h : ids.Nodup) : (expandedIds factor ids).Nodup := by
  rw [expandedIds]
  split_ifs
  · exact h
  · rw [List.nodup_flatMap]
    refine ⟨fun i _ => h.map fun id id' heq => (numbered_inj.1 heq).2, ?_⟩
    refine List.nodup_range.imp fun {i j} hij => ?_
    rw [Function.onFun, List.disjoint_left]
    intro id hi hj
    obtain ⟨idi, -, rfl⟩ := List.mem_map.1 hi
    obtain ⟨idj, -, heq⟩ := List.mem_map.1 hj
    exact hij (numbered_inj.1 heq).1.symm

theorem repetitionIds_scaled (c : Call) (factor : Int64) :
    (c.scaled factor).settings.repetitionIds =
      c.settings.repetitionIds.map (expandedIds factor) := repeatedIds_eq _ _

variable {c c' : Call} {invertible : Bool}

theorem idsFault?_eq_none_iff :
    c.idsFault? = none ↔ ∀ ids, c.settings.repetitionIds = some ids → ids.length = c.runs := by
  rw [idsFault?]
  cases c.settings.repetitionIds with
  | none => simp
  | some ids => simp

theorem untilFault?_eq_none_iff : c.untilFault? = none ↔
    ∀ condition, c.settings.repeatUntil = some condition →
      c.settings.useIds = false ∧ c.settings.repetitions = 1 ∧
        condition.measured ∈ c.program.measurementKeys.map c.settings.renameKey := by
  rw [untilFault?]
  cases c.settings.repeatUntil with
  | none => simp
  | some condition =>
    cases huse : c.settings.useIds with
    | true => simp
    | false =>
      by_cases hone : c.settings.repetitions = 1
      · simp [hone]
      · simp [hone]

/-- The ids fit if the product of the numbers was not cut off. -/
theorem idsFault?_scaled_eq_none_iff (h : c.idsFault? = none) :
    (c.scaled factor).idsFault? = none ↔ c.settings.repetitionIds = none ∨
      c.settings.repetitions.toInt.natAbs * factor.toInt.natAbs =
        (saturatingMul c.settings.repetitions factor).toInt.natAbs := by
  rw [idsFault?_eq_none_iff] at *
  rw [repetitionIds_scaled, runs]
  cases hids : c.settings.repetitionIds with
  | none => simp
  | some ids =>
    have hlength : ids.length = c.settings.repetitions.toInt.natAbs := h ids hids
    simp [length_expandedIds, hlength, Nat.mul_comm, scaled]

/-- A condition stays alone if the call still runs once. -/
theorem untilFault?_scaled_eq_none_iff (h : c.untilFault? = none) :
    (c.scaled factor).untilFault? = none ↔ c.settings.repeatUntil = none ∨
      saturatingMul c.settings.repetitions factor = 1 := by
  rw [untilFault?_eq_none_iff] at *
  constructor
  · intro hscaled
    cases huntil : c.settings.repeatUntil with
    | none => exact Or.inl rfl
    | some condition => exact Or.inr (hscaled condition huntil).2.1
  · rintro (hnone | hone) condition huntil
    · exact absurd (hnone.symm.trans huntil) (by simp)
    · obtain ⟨huse, -, hmeasured⟩ := h condition huntil
      exact ⟨huse, hone, hmeasured⟩

theorem directionFault?_scaled_eq_none_iff :
    (c.scaled factor).directionFault? c.program.isInvertible = none ↔
      0 ≤ saturatingMul c.settings.repetitions factor ∨ ∃ q, c.program.inverse? = some q := by
  rw [directionFault?_eq_none_iff, Program.isInvertible, Option.isSome_iff_exists, ← Int64.not_lt,
    ← Decidable.imp_iff_not_or]
  rfl

/-- **What can keep a valid call from being repeated.** -/
theorem fault?_scaled_eq_none_iff (h : c.fault? c.program.isInvertible = none) :
    (c.scaled factor).fault? c.program.isInvertible = none ↔
      (c.settings.repetitionIds = none ∨
        c.settings.repetitions.toInt.natAbs * factor.toInt.natAbs =
          (saturatingMul c.settings.repetitions factor).toInt.natAbs) ∧
      (c.settings.repeatUntil = none ∨ saturatingMul c.settings.repetitions factor = 1) ∧
      (0 ≤ saturatingMul c.settings.repetitions factor ∨
        ∃ q, c.program.inverse? = some q) := by
  obtain ⟨hids, huntil, -, hqubits⟩ := fault?_eq_none_iff.1 h
  have hscaled : (c.scaled factor).qubitsFault? = none := hqubits
  rw [fault?_eq_none_iff, idsFault?_scaled_eq_none_iff hids, untilFault?_scaled_eq_none_iff huntil,
    directionFault?_scaled_eq_none_iff, and_iff_left hscaled]

/-- What a repeated call has in common with the call, and what becomes of its
    number of repetitions and of its ids. -/
structure RepeatedFrom (c : Call) (factor : Int64) (c' : Call) : Prop where
  program : c'.program = c.program
  qubitMap : c'.settings.qubitMap = c.settings.qubitMap
  keyMap : c'.settings.keyMap = c.settings.keyMap
  bindings : c'.settings.bindings = c.settings.bindings
  useIds : c'.settings.useIds = c.settings.useIds
  repeatUntil : c'.settings.repeatUntil = c.settings.repeatUntil
  repetitions : c'.settings.repetitions = saturatingMul c.settings.repetitions factor
  noIds : c'.settings.repetitionIds = none ↔ c.settings.repetitionIds = none
  ids_eq : factor.toInt.natAbs = 1 → c'.settings.repetitionIds = c.settings.repetitionIds
  /-- The outer repetitions are counted from `0`, and their numbers stand before
      the ids, number after number. -/
  ids_numbered : factor.toInt.natAbs ≠ 1 → ∀ ids, c.settings.repetitionIds = some ids →
    c'.settings.repetitionIds = some ((List.range factor.toInt.natAbs).flatMap fun i =>
      ids.map fun id => toString i ++ "-" ++ id)
  length_ids : ∀ ids, c'.settings.repetitionIds = some ids →
    ids.length = c'.settings.repetitions.toInt.natAbs
  nodup_ids : ∀ ids ids', c.settings.repetitionIds = some ids →
    c'.settings.repetitionIds = some ids' → ids.Nodup → ids'.Nodup

theorem repeatedFrom_of_repeated (h : c.repeated factor = .ok c') : c.RepeatedFrom factor c' := by
  obtain ⟨-, hvalid, rfl⟩ := repeated_eq_ok_iff.1 h
  refine ⟨rfl, rfl, rfl, rfl, rfl, rfl, rfl, ?_, fun hone => ?_, fun hne ids hids => ?_, ?_,
    fun ids ids' hids hids' hnodup => ?_⟩
  · rw [repetitionIds_scaled, Option.map_eq_none_iff]
  · rw [repetitionIds_scaled, expandedIds_of_natAbs_eq_one hone, Option.map_id_fun, id]
  · rw [repetitionIds_scaled, hids, Option.map_some, expandedIds, if_neg hne]
  · exact idsFault?_eq_none_iff.1 (fault?_eq_none_iff.1 hvalid).1
  · obtain rfl : expandedIds factor ids = ids' := by
      rw [repetitionIds_scaled, hids] at hids'
      exact Option.some.inj hids'
    exact nodup_expandedIds hnodup

theorem built_twoPhases : Built (.call Program.twoPhases.call) := by
  have hphase : Built (.operation ⟨.gate (.standard .s), [.line 1], []⟩) :=
    .gate (Operation.ofGate_eq_ok_iff.2 ⟨rfl, by decide, rfl⟩)
  have hphases : Built (.program Program.twoPhases.program) :=
    .ofMoments (List.forall_mem_singleton.2
      (.ofOperations (List.forall_mem_singleton.2 hphase) rfl)) []
  exact .build hphases rfl

end Call

end QuantumProgram
