/-
  QuantumProgram — the search for cycles among references.

  The walk along the references leaves an entry only after all that it refers
  to, unless that is still open and so leads back to the entry
  (`Walk.Sound.closed`).  So an entry that refers to one listed before it is on
  a cycle, and if there is none the list is an order without cycles: the search
  finds an entry on a cycle exactly if there is a cycle
  (`findsCycles_cyclicPlace?`).
-/
import Mathlib.Data.List.Nodup
import Mathlib.Logic.Relation
import Mathlib.Tactic
import QuantumProgram.Record.References

namespace QuantumProgram

namespace References

open Relation (TransGen)

variable {refs : References} {path : List ℕ} {w w' : Walk} {i j : ℕ}

/-- The entry `i` refers to the entry `j`.  Places past the end are no
    entries. -/
def Refers (refs : References) (i j : ℕ) : Prop := j ∈ refs.targets i

/-- The references lead from the entry `i` back to it. -/
def OnCycle (refs : References) (i : ℕ) : Prop := TransGen refs.Refers i i

theorem refers_iff : refs.Refers i j ↔ j < refs.length ∧ ∃ places, refs[i]? = some places ∧
    j ∈ places := by
  rw [Refers, targets, List.mem_filter, decide_eq_true_eq, and_comm]
  cases refs[i]? <;> simp

theorem Refers.lt_target (h : refs.Refers i j) : j < refs.length := (refers_iff.1 h).1

theorem Refers.lt_source (h : refs.Refers i j) : i < refs.length := by
  obtain ⟨-, places, hi, -⟩ := refers_iff.1 h
  exact (List.getElem?_eq_some_iff.1 hi).1

theorem mem_sources : j ∈ refs.sources i ↔ refs.Refers j i := by
  rw [sources, List.mem_filter, List.mem_range, List.contains_iff_mem, ← Refers]
  exact and_iff_right_of_imp Refers.lt_source

/-! ## The walk -/

/-- What holds during the walk.  The entries of `path` are entered and not left,
    all others that are entered are left, and all that an entry refers to is
    left before it or leads back to it. -/
structure Walk.Sound (refs : References) (path : List ℕ) (w : Walk) : Prop where
  mem_entered : ∀ i, i ∈ w.entered ↔ i ∈ path ∨ i ∈ w.left
  not_left : ∀ i ∈ path, i ∉ w.left
  nodup_entered : w.entered.Nodup
  nodup_left : w.left.Nodup
  lt : ∀ i ∈ w.entered, i < refs.length
  not_self : ∀ i ∈ w.entered, ¬ refs.Refers i i
  closed : ∀ i before, i :: before <:+ w.left →
    ∀ j, refs.Refers i j → j ∈ before ∨ TransGen refs.Refers j i

theorem Walk.sound_empty : Walk.Sound refs [] {} :=
  ⟨by simp, by simp, .nil, .nil, by simp, by simp, fun i before h => by simp at h⟩

/-- An entry is entered for the first time. -/
theorem Walk.Sound.enter (h : w.Sound refs path) (hi : i < refs.length) (hnew : i ∉ w.entered)
    (hself : ¬ refs.Refers i i) :
    Walk.Sound refs (i :: path) { w with entered := i :: w.entered } where
  mem_entered j := by simp [h.mem_entered j, or_assoc]
  not_left j hj := by
    rcases List.mem_cons.1 hj with rfl | hj
    · exact fun hl => hnew ((h.mem_entered j).2 (Or.inr hl))
    · exact h.not_left j hj
  nodup_entered := List.nodup_cons.2 ⟨hnew, h.nodup_entered⟩
  nodup_left := h.nodup_left
  lt := List.forall_mem_cons.2 ⟨hi, h.lt⟩
  not_self := List.forall_mem_cons.2 ⟨hself, h.not_self⟩
  closed := h.closed

/-- An entry is left when all that it refers to has been entered. -/
theorem Walk.Sound.leave (h : w.Sound refs (i :: path)) (hpath : i ∉ path)
    (hback : ∀ k ∈ path, TransGen refs.Refers k i) (hall : ∀ j ∈ refs.targets i, j ∈ w.entered) :
    Walk.Sound refs path { w with left := i :: w.left } where
  mem_entered j := by
    rw [h.mem_entered j, List.mem_cons, List.mem_cons]
    tauto
  not_left j hj := by
    rw [List.mem_cons, not_or]
    exact ⟨fun he => hpath (he ▸ hj), h.not_left j (List.mem_cons_of_mem _ hj)⟩
  nodup_entered := h.nodup_entered
  nodup_left := List.nodup_cons.2 ⟨h.not_left i List.mem_cons_self, h.nodup_left⟩
  lt := h.lt
  not_self := h.not_self
  closed k before hsuffix j hj := by
    rcases List.suffix_cons_iff.1 hsuffix with heq | hsuffix
    · obtain ⟨rfl, rfl⟩ := List.cons_eq_cons.1 heq
      -- a target on the path is still open, so that it leads back to here
      rcases (h.mem_entered j).1 (hall j hj) with hopen | hleft
      · rcases List.mem_cons.1 hopen with rfl | hopen
        · exact absurd hj (h.not_self j ((h.mem_entered j).2 (Or.inl List.mem_cons_self)))
        · exact Or.inr (hback j hopen)
      · exact Or.inl hleft
    · exact h.closed k before hsuffix j hj

/-- What a part of the walk comes to that goes on to some entries: an entry on a
    cycle, or a sound walk in which they are entered. -/
def Reached (refs : References) (path : List ℕ) (w : Walk) (goals : List ℕ) :
    Except ℕ Walk → Prop
  | .error j => OnCycle refs j
  | .ok w' => w'.Sound refs path ∧ w.entered ⊆ w'.entered ∧ ∀ j ∈ goals, j ∈ w'.entered

/-- Entries that are all entered leave no step to do. -/
theorem Walk.Sound.mem_of_length_le (h : w.Sound refs path)
    (hlen : refs.length ≤ w.entered.length) (hi : i < refs.length) : i ∈ w.entered := by
  have hsub : w.entered ⊆ List.range refs.length := fun j hj => List.mem_range.2 (h.lt j hj)
  have hperm : w.entered.Perm (List.range refs.length) :=
    (h.nodup_entered.subperm hsub).perm_of_length_le (by simpa using hlen)
  exact hperm.mem_iff.2 (List.mem_range.2 hi)

/-- Going on to entry after entry, if each single one is reached. -/
theorem reached_foldlM {steps : ℕ}
    (step : ∀ {w : Walk} {i : ℕ}, w.Sound refs path → i < refs.length →
      (∀ k ∈ path, TransGen refs.Refers k i) → refs.length ≤ steps + w.entered.length →
        Reached refs path w [i] (enter refs steps w i)) :
    ∀ {goals : List ℕ} {w : Walk}, w.Sound refs path →
      (∀ i ∈ goals, i < refs.length ∧ ∀ k ∈ path, TransGen refs.Refers k i) →
      refs.length ≤ steps + w.entered.length →
        Reached refs path w goals (goals.foldlM (enter refs steps) w)
  | [], w, hw, _, _ => ⟨hw, List.Subset.refl _, by simp⟩
  | i :: goals, w, hw, hgoals, hlen => by
    obtain ⟨hi, hback⟩ := hgoals i List.mem_cons_self
    have hstep := step hw hi hback hlen
    rw [List.foldlM_cons]
    cases hrun : enter refs steps w i with
    | error j => rw [hrun] at hstep; exact hstep
    | ok w' =>
      rw [hrun] at hstep
      obtain ⟨hw', hsub, hmem⟩ := hstep
      have hmore : w.entered.length ≤ w'.entered.length :=
        (hw.nodup_entered.subperm hsub).length_le
      have hrest := reached_foldlM step hw' (fun j hj => hgoals j (List.mem_cons_of_mem _ hj))
        (by omega)
      change Reached refs path w (i :: goals) (goals.foldlM (enter refs steps) w')
      cases hrun' : goals.foldlM (enter refs steps) w' with
      | error j => rw [hrun'] at hrest; exact hrest
      | ok w'' =>
        rw [hrun'] at hrest
        obtain ⟨hw'', hsub', hmem'⟩ := hrest
        refine ⟨hw'', List.Subset.trans hsub hsub', List.forall_mem_cons.2 ⟨?_, hmem'⟩⟩
        exact hsub' (hmem i (List.mem_singleton_self i))

/-- **Entering an entry** from the end of a path that leads to it. -/
theorem reached_enter (steps : ℕ) : ∀ {path : List ℕ} {w : Walk} {i : ℕ}, w.Sound refs path →
    i < refs.length → (∀ k ∈ path, TransGen refs.Refers k i) →
    refs.length ≤ steps + w.entered.length → Reached refs path w [i] (enter refs steps w i) := by
  induction steps with
  | zero =>
    intro path w i hw hi _ hlen
    exact ⟨hw, List.Subset.refl _,
      List.forall_mem_singleton.2 (hw.mem_of_length_le (by omega) hi)⟩
  | succ steps ih =>
    intro path w i hw hi hback hlen
    rw [enter]
    split_ifs with hentered hself
    · exact ⟨hw, List.Subset.refl _,
        List.forall_mem_singleton.2 (List.contains_iff_mem.1 hentered)⟩
    · exact TransGen.single (List.contains_iff_mem.1 hself)
    · rw [List.contains_iff_mem] at hentered hself
      have hopen := hw.enter hi hentered hself
      have hpath : i ∉ path := fun h => hentered ((hw.mem_entered i).2 (Or.inl h))
      have hgoals : ∀ j ∈ refs.targets i, j < refs.length ∧
          ∀ k ∈ i :: path, TransGen refs.Refers k j := by
        intro j hj
        refine ⟨Refers.lt_target hj, List.forall_mem_cons.2 ⟨TransGen.single hj, fun k hk => ?_⟩⟩
        exact (hback k hk).tail hj
      have hdown := reached_foldlM ih hopen hgoals (by
        rw [List.length_cons]; omega)
      cases hrun : (refs.targets i).foldlM (enter refs steps)
          { w with entered := i :: w.entered } with
      | error j => rw [hrun] at hdown; exact hdown
      | ok w' =>
        rw [hrun] at hdown
        obtain ⟨hw', hsub, hall⟩ := hdown
        refine ⟨hw'.leave hpath hback hall, fun j hj => hsub (List.mem_cons_of_mem _ hj), ?_⟩
        exact List.forall_mem_singleton.2 (hsub List.mem_cons_self)

/-- The whole walk comes upon a cycle, or it leaves every entry. -/
theorem reached_walk : Reached refs [] {} (List.range refs.length) refs.walk :=
  reached_foldlM (reached_enter refs.length) Walk.sound_empty
    (fun i hi => ⟨List.mem_range.1 hi, by simp⟩) (by simp)

/-! ## The search in the list of entries -/

/-- If nothing is found, an entry of the list is referred to by itself and from
    before it only. -/
theorem lateSource?_eq_none : ∀ {l before : List ℕ}, refs.lateSource? before l = none →
    ∀ {done i rest}, l = done ++ i :: rest → ∀ j, refs.Refers j i →
      j = i ∨ j ∈ done ∨ j ∈ before
  | [], _, _, done, i, rest, hl, _, _ => by simp at hl
  | k :: l, before, h, done, i, rest, hl, j, hj => by
    rw [lateSource?] at h
    split at h
    · exact absurd h (Option.some_ne_none _)
    · next hnone =>
      cases done with
      | nil =>
        obtain ⟨rfl, -⟩ := List.cons_eq_cons.1 hl
        have hin := List.find?_eq_none.1 hnone j (mem_sources.2 hj)
        simp only [Bool.not_eq_true', Bool.not_eq_false, List.contains_eq_mem,
          decide_eq_true_eq, List.mem_cons] at hin
        exact hin.imp_right Or.inr
      | cons k' done =>
        rw [List.cons_append] at hl
        obtain ⟨rfl, hl'⟩ := List.cons_eq_cons.1 hl
        have hrec := lateSource?_eq_none h hl' j hj
        simp only [List.mem_cons] at hrec ⊢
        tauto

/-- What is found refers to an entry that stands before it in the list. -/
theorem lateSource?_eq_some : ∀ {l before : List ℕ}, refs.lateSource? before l = some j →
    ∃ done i rest, l = done ++ i :: rest ∧ refs.Refers j i ∧ j ≠ i ∧ j ∉ done ∧ j ∉ before
  | [], _, h => by simp [lateSource?] at h
  | k :: l, before, h => by
    rw [lateSource?] at h
    split at h
    · next j' hfind =>
      obtain rfl : j' = j := by simpa using h
      have hnot := List.find?_some hfind
      simp only [Bool.not_eq_true', List.contains_eq_mem, decide_eq_false_iff_not, List.mem_cons,
        not_or] at hnot
      exact ⟨[], k, l, rfl, mem_sources.1 (List.mem_of_find?_eq_some hfind), hnot.1,
        List.not_mem_nil, hnot.2⟩
    · obtain ⟨done, i, rest, rfl, hj, hne, hdone, hbefore⟩ := lateSource?_eq_some h
      rw [List.mem_cons, not_or] at hbefore
      refine ⟨k :: done, i, rest, rfl, hj, hne, ?_, hbefore.2⟩
      rw [List.mem_cons, not_or]
      exact ⟨hbefore.1, hdone⟩

/-! ## Cycles -/

/-- The walk that comes to its end, for the search after it. -/
theorem sound_of_walk_eq_ok (h : refs.walk = .ok w) :
    w.Sound refs [] ∧ ∀ i < refs.length, i ∈ w.left := by
  have hreached : Reached refs [] {} (List.range refs.length) (.ok w) := h ▸ reached_walk
  obtain ⟨hw, -, hall⟩ := hreached
  refine ⟨hw, fun i hi => ?_⟩
  have hentered := (hw.mem_entered i).1 (hall i (List.mem_range.2 hi))
  simpa using hentered

/-- **The entry that the search finds is on a cycle.** -/
theorem onCycle_of_cyclicPlace? (h : refs.cyclicPlace? = some i) : OnCycle refs i := by
  rw [cyclicPlace?] at h
  split at h
  · next j hrun =>
    obtain rfl : j = i := by simpa using h
    have hreached : Reached refs [] {} (List.range refs.length) (.error j) := hrun ▸ reached_walk
    exact hreached
  · next w hrun =>
    obtain ⟨hw, hall⟩ := sound_of_walk_eq_ok hrun
    obtain ⟨done, k, rest, hl, hik, hne, hdone, -⟩ := lateSource?_eq_some h
    -- the source was left before the entry, while the entry was still open
    have hrest : i ∈ rest := by
      have hmem := hall i hik.lt_source
      rw [hl, List.mem_append, List.mem_cons] at hmem
      tauto
    obtain ⟨after, before, rfl⟩ := List.append_of_mem hrest
    have hsuffix : i :: before <:+ w.left := ⟨done ++ k :: after, by rw [hl]; simp⟩
    have hnodup := hw.nodup_left
    rw [hl] at hnodup
    have hk : k ∉ before := by
      have hk' := (List.nodup_cons.1 (List.nodup_append.1 hnodup).2.1).1
      simp only [List.mem_append, List.mem_cons, not_or] at hk'
      exact hk'.2.2
    exact TransGen.head hik ((hw.closed i before hsuffix k hik).resolve_left hk)

/-- Without a find, references go forward in the list. -/
theorem idxOf_lt_of_refers (hw : w.Sound refs []) (hall : ∀ i < refs.length, i ∈ w.left)
    (hnone : refs.lateSource? [] w.left = none) (h : refs.Refers i j) :
    w.left.idxOf i < w.left.idxOf j := by
  obtain ⟨done, rest, hl⟩ := List.append_of_mem (hall j h.lt_target)
  have hentered : j ∈ w.entered := (hw.mem_entered j).2 (Or.inr (hall j h.lt_target))
  have hdone : i ∈ done := by
    rcases lateSource?_eq_none hnone hl i h with rfl | hdone | hbefore
    · exact absurd h (hw.not_self i hentered)
    · exact hdone
    · exact absurd hbefore List.not_mem_nil
  have hnodup := hw.nodup_left
  rw [hl] at hnodup ⊢
  have hj : j ∉ done := fun hd =>
    (List.nodup_append.1 hnodup).2.2 j hd j List.mem_cons_self rfl
  rw [List.idxOf_append_of_mem hdone, List.idxOf_append_of_notMem hj, List.idxOf_cons_self]
  exact List.idxOf_lt_length_of_mem hdone

/-- **The search finds nothing exactly if there is no cycle.** -/
theorem cyclicPlace?_eq_none_iff : refs.cyclicPlace? = none ↔ ∀ i, ¬ OnCycle refs i := by
  constructor
  · intro h i hi
    rw [cyclicPlace?] at h
    split at h
    · exact absurd h (Option.some_ne_none _)
    · next w hrun =>
      obtain ⟨hw, hall⟩ := sound_of_walk_eq_ok hrun
      have hforward : ∀ {k l}, TransGen refs.Refers k l → w.left.idxOf k < w.left.idxOf l := by
        intro k l hkl
        induction hkl with
        | single h' => exact idxOf_lt_of_refers hw hall h h'
        | tail _ h' ih => exact ih.trans (idxOf_lt_of_refers hw hall h h')
      exact Nat.lt_irrefl _ (hforward hi)
  · intro h
    by_contra hne
    obtain ⟨i, hi⟩ := Option.ne_none_iff_exists'.1 hne
    exact h i (onCycle_of_cyclicPlace? hi)

/-- What a search for cycles is relied on for, whatever its order: it finds nothing
    exactly if there is no cycle, and else an entry on one. -/
structure FindsCycles (search : CycleSearch) : Prop where
  eq_none_iff : ∀ refs, search refs = none ↔ ∀ i, ¬ OnCycle refs i
  onCycle : ∀ refs i, search refs = some i → OnCycle refs i

/-- **The walk finds cycles.** -/
theorem findsCycles_cyclicPlace? : FindsCycles cyclicPlace? :=
  ⟨fun _ => cyclicPlace?_eq_none_iff, fun _ _ => onCycle_of_cyclicPlace?⟩

/-- References that only go to smaller places make no cycle. -/
theorem not_onCycle_of_descending (h : ∀ i j, refs.Refers i j → j < i) (i : ℕ) :
    ¬ OnCycle refs i := by
  intro hi
  have hdown : ∀ {k l}, TransGen refs.Refers k l → l < k := by
    intro k l hkl
    induction hkl with
    | single h' => exact h _ _ h'
    | tail _ h' ih => exact (h _ _ h').trans ih
  exact Nat.lt_irrefl _ (hdown hi)

end References

end QuantumProgram
