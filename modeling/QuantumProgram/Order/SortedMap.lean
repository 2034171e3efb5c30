/-
  QuantumProgram — finite maps kept in the order of their keys.

  The renamings and bindings of a call are shown and persisted as pairs in key
  order, and a key given twice keeps its last value.  A map is the list of its
  entries with the proof that the keys strictly increase.  `get?_insert` says
  what insertion does to a look-up, `ofList_toList` that a map is rebuilt from
  its own entries.
-/

namespace QuantumProgram

open Std

/-- A finite map, held as its entries in strictly increasing key order. -/
structure SortedMap (κ ν : Type) [Ord κ] where
  toList : List (κ × ν)
  sorted : toList.Pairwise (fun a b => compare a.1 b.1 = .lt)

namespace SortedMap

variable {κ ν : Type} [Ord κ]

/-! ## Insertion into an increasing list -/

/-- Give `k` the value `v` in a list of entries with increasing keys. -/
def insertInto (k : κ) (v : ν) : List (κ × ν) → List (κ × ν)
  | [] => [(k, v)]
  | e :: l =>
    match compare k e.1 with
    | .lt => (k, v) :: e :: l
    | .eq => (k, v) :: l
    | .gt => e :: insertInto k v l

theorem mem_insertInto {k : κ} {v : ν} {e : κ × ν} {l : List (κ × ν)}
    (h : e ∈ insertInto k v l) : e = (k, v) ∨ e ∈ l := by
  induction l with
  | nil => simpa [insertInto] using h
  | cons f l ih =>
    simp only [insertInto] at h
    split at h <;> grind

theorem insertInto_sorted [TransOrd κ] [LawfulEqOrd κ] {k : κ} {v : ν} {l : List (κ × ν)}
    (h : l.Pairwise (fun a b => compare a.1 b.1 = .lt)) :
    (insertInto k v l).Pairwise (fun a b => compare a.1 b.1 = .lt) := by
  induction l with
  | nil => simp [insertInto]
  | cons e l ih =>
    have he := List.pairwise_cons.1 h
    simp only [insertInto]
    split
    · next hlt =>
      refine List.pairwise_cons.2 ⟨fun f hf => ?_, h⟩
      rcases List.mem_cons.1 hf with rfl | hf
      · exact hlt
      · exact TransCmp.lt_trans hlt (he.1 f hf)
    · next heq =>
      cases LawfulEqCmp.compare_eq_iff_eq.1 heq
      exact List.pairwise_cons.2 ⟨fun f hf => he.1 f hf, he.2⟩
    · next hgt =>
      refine List.pairwise_cons.2 ⟨fun f hf => ?_, ih he.2⟩
      rcases mem_insertInto hf with rfl | hf
      · exact OrientedCmp.gt_iff_lt.1 hgt
      · exact he.1 f hf

/-! ## Operations -/

/-- The value of `k` in a list of entries. -/
def find? [DecidableEq κ] (k : κ) (l : List (κ × ν)) : Option ν :=
  (l.find? fun e => decide (e.1 = k)).map (·.2)

def empty : SortedMap κ ν := ⟨[], .nil⟩

instance : EmptyCollection (SortedMap κ ν) := ⟨empty⟩

/-- The value of a key, if the map has the key. -/
def get? [DecidableEq κ] (m : SortedMap κ ν) (k : κ) : Option ν := find? k m.toList

/-- The value of a key, or `v` if the map does not have the key. -/
def getD [DecidableEq κ] (m : SortedMap κ ν) (k : κ) (v : ν) : ν := (m.get? k).getD v

def keys (m : SortedMap κ ν) : List κ := m.toList.map (·.1)

section
variable [TransOrd κ] [LawfulEqOrd κ]

/-- Give `k` the value `v`, in place of a value that it may have. -/
def insert (m : SortedMap κ ν) (k : κ) (v : ν) : SortedMap κ ν :=
  ⟨insertInto k v m.toList, insertInto_sorted m.sorted⟩

/-- Insert the pairs from left to right, so that the last value of a key stays. -/
def insertMany (m : SortedMap κ ν) (l : List (κ × ν)) : SortedMap κ ν :=
  l.foldl (fun m e => m.insert e.1 e.2) m

def ofList (l : List (κ × ν)) : SortedMap κ ν := insertMany empty l

end

/-! ## Look-up -/

@[simp] theorem get?_empty [DecidableEq κ] {k : κ} : (∅ : SortedMap κ ν).get? k = none := rfl

theorem mem_keys_of_get? [DecidableEq κ] {m : SortedMap κ ν} {k : κ} {v : ν}
    (h : m.get? k = some v) : k ∈ m.keys := by
  obtain ⟨e, he, -⟩ := Option.map_eq_some_iff.1 h
  have hk := List.find?_some he
  obtain rfl : e.1 = k := of_decide_eq_true hk
  exact List.mem_map_of_mem (List.mem_of_find?_eq_some he)

theorem find?_insertInto [DecidableEq κ] [LawfulEqOrd κ] {k k' : κ} {v : ν}
    {l : List (κ × ν)} :
    find? k' (insertInto k v l) = if k = k' then some v else find? k' l := by
  induction l with
  | nil => simp only [insertInto, find?, List.find?]; split <;> simp_all
  | cons e l ih =>
    simp only [insertInto]
    split
    · simp only [find?, List.find?]; split <;> simp_all
    · next heq =>
      have he := LawfulEqCmp.compare_eq_iff_eq.1 heq
      simp only [find?, List.find?]; split <;> simp_all
    · next hgt =>
      have hne : k ≠ e.1 := fun h => by simp [h] at hgt
      simp only [find?, List.find?] at ih ⊢
      split
      · next he => have := of_decide_eq_true he; grind
      · exact ih

theorem get?_insert [DecidableEq κ] [TransOrd κ] [LawfulEqOrd κ] {m : SortedMap κ ν}
    {k k' : κ} {v : ν} :
    (m.insert k v).get? k' = if k = k' then some v else m.get? k' :=
  find?_insertInto

/-- The last value that a list gives to a key stays. -/
theorem get?_insertMany [DecidableEq κ] [TransOrd κ] [LawfulEqOrd κ] {m : SortedMap κ ν}
    {l : List (κ × ν)} {k : κ} :
    (m.insertMany l).get? k = (find? k l.reverse).or (m.get? k) := by
  induction l generalizing m with
  | nil => rfl
  | cons e l ih =>
    have hstep : m.insertMany (e :: l) = (m.insert e.1 e.2).insertMany l := rfl
    rw [hstep, ih, get?_insert, find?, find?, List.reverse_cons, List.find?_append,
      List.find?_singleton]
    by_cases h : e.1 = k <;> cases List.find? (fun e => decide (e.1 = k)) l.reverse <;> simp [h]

theorem get?_ofList [DecidableEq κ] [TransOrd κ] [LawfulEqOrd κ] {l : List (κ × ν)} {k : κ} :
    (ofList l).get? k = find? k l.reverse :=
  get?_insertMany.trans Option.or_none

/-- The value that a list gives to a key is the one that no later pair replaces. -/
theorem get?_ofList_eq_some_iff [DecidableEq κ] [TransOrd κ] [LawfulEqOrd κ] {l : List (κ × ν)}
    {k : κ} {v : ν} : (ofList l).get? k = some v ↔
      ∃ before after, l = before ++ (k, v) :: after ∧ ∀ e ∈ after, e.1 ≠ k := by
  rw [get?_ofList, find?, Option.map_eq_some_iff]
  constructor
  · rintro ⟨e, he, rfl⟩
    obtain ⟨hk, after, before, hl, hafter⟩ := List.find?_eq_some_iff_append.1 he
    obtain rfl : e.1 = k := of_decide_eq_true hk
    refine ⟨before.reverse, after.reverse, ?_, fun f hf => ?_⟩
    · rw [← List.reverse_reverse l, hl]
      simp
    · simpa using hafter f (List.mem_reverse.1 hf)
  · rintro ⟨before, after, rfl, hafter⟩
    refine ⟨(k, v), List.find?_eq_some_iff_append.2 ⟨decide_eq_true rfl, ?_⟩, rfl⟩
    refine ⟨after.reverse, before.reverse, by simp, fun e he => ?_⟩
    simpa using hafter e (List.mem_reverse.1 he)

theorem get?_ofList_eq_none_iff [DecidableEq κ] [TransOrd κ] [LawfulEqOrd κ] {l : List (κ × ν)}
    {k : κ} : (ofList l).get? k = none ↔ ∀ e ∈ l, e.1 ≠ k := by
  simp [get?_ofList, find?]

/-- An entry that comes after all others is put at the end. -/
theorem insertInto_append [OrientedOrd κ] {k : κ} {v : ν} :
    ∀ {l : List (κ × ν)}, (∀ e ∈ l, compare e.1 k = .lt) →
      insertInto k v l = l ++ [(k, v)]
  | [], _ => rfl
  | e :: l, h => by
    have hgt : compare k e.1 = .gt := OrientedCmp.gt_iff_lt.2 (h e List.mem_cons_self)
    simp [insertInto, hgt, insertInto_append fun f hf => h f (List.mem_cons_of_mem _ hf)]

/-- **A map is rebuilt from its own entries.** -/
theorem ofList_toList [TransOrd κ] [LawfulEqOrd κ] (m : SortedMap κ ν) :
    ofList m.toList = m := by
  suffices ∀ (l : List (κ × ν)) (s : SortedMap κ ν),
      (s.toList ++ l).Pairwise (fun a b => compare a.1 b.1 = .lt) →
      (s.insertMany l).toList = s.toList ++ l by
    have h := this m.toList empty (by simpa [empty] using m.sorted)
    obtain ⟨l, hl⟩ := m
    simp only [ofList] at h ⊢
    generalize insertMany empty l = n at h ⊢
    obtain ⟨l', hl'⟩ := n
    simp only [empty, List.nil_append] at h
    subst h; rfl
  intro l
  induction l with
  | nil => intro s _; simp [insertMany]
  | cons e l ih =>
    intro s h
    have hs : (s.insert e.1 e.2).toList = s.toList ++ [e] :=
      insertInto_append fun f hf =>
        (List.pairwise_append.1 h).2.2 f hf e List.mem_cons_self
    have := ih (s.insert e.1 e.2) (by rw [hs]; simpa using h)
    rw [hs] at this
    simpa [insertMany] using this

end SortedMap

end QuantumProgram
