/-
  QuantumProgram — keys that are marked with the repetition.

  A call with ids in use writes each key of its program once for each id, with
  the id and a `:` in front.  The id and the key cannot always be told from the
  text: ids and keys may hold a `:` themselves, and then one id can go on as
  another one with a key (`markedKey_assoc`, `markedKey_eq_iff`).  So a call
  writes as many keys as it has pairs of an id and a key exactly if no two ids
  and keys overlap in this way (`Call.size_measurementKeys`).
-/
import QuantumProgram.Proofs.OutsideReads
import QuantumProgram.Proofs.Repetition

namespace QuantumProgram

/-! ## Sizes of sets -/

namespace SortedSet

variable {α : Type} [Ord α] [Std.TransOrd α]

theorem nodup_toList (s : SortedSet α) : s.toList.Nodup := by
  refine s.sorted.imp fun {a b} hlt heq => ?_
  subst heq
  simp at hlt

variable [Std.LawfulEqOrd α]

/-- The members of a list without repetition are counted by its length. -/
theorem size_ofList {l : List α} (h : l.Nodup) : (ofList l).size = l.length :=
  ((List.perm_ext_iff_of_nodup (nodup_toList _) h).2 fun _ => mem_ofList).length_eq

/-- **A list has as many members as places** exactly if none is repeated. -/
theorem size_ofList_eq_length_iff [DecidableEq α] {l : List α} :
    (ofList l).size = l.length ↔ l.Nodup := by
  constructor
  · intro h
    have hsame : ofList l = ofList l.dedup := ext fun a => by simp
    rw [hsame, size_ofList l.nodup_dedup] at h
    rw [← (List.dedup_sublist l).eq_of_length h]
    exact l.nodup_dedup
  · exact size_ofList

end SortedSet

/-! ## Marks -/

/-- A key with the id of a repetition in front. -/
def markedKey (id key : String) : String := id ++ ":" ++ key

theorem toList_markedKey (id key : String) :
    (markedKey id key).toList = id.toList ++ ':' :: key.toList := by
  rw [markedKey, String.toList_append, String.toList_append, List.append_assoc]
  rfl

/-- An id marked as a key can be taken for the mark of a longer id. -/
theorem markedKey_assoc (id s key : String) :
    markedKey id (markedKey s key) = markedKey (markedKey id s) key := by
  simp only [← String.toList_inj, toList_markedKey, List.append_assoc, List.cons_append]

theorem markedKey_ne_left (id s : String) : markedKey id s ≠ id := by
  intro h
  have hlength := congrArg (fun t => t.toList.length) h
  simp only [toList_markedKey, List.length_append, List.length_cons] at hlength
  omega

/-- **Where a marked key can be divided.**  Two pairs of an id and a key make the
    same marked key only if one id goes on with a `:` after the other one, and the
    keys make up for it. -/
theorem markedKey_eq_iff {id key id' key' : String} :
    markedKey id key = markedKey id' key' ↔
      (id = id' ∧ key = key') ∨
      (∃ s, id' = markedKey id s ∧ key = markedKey s key') ∨
      ∃ s, id = markedKey id' s ∧ key' = markedKey s key := by
  constructor
  · intro h
    rw [← String.toList_inj, toList_markedKey, toList_markedKey, append_cons_eq_append_cons_iff] at h
    rcases h with ⟨hid, hkey⟩ | ⟨s, hid, hkey⟩ | ⟨s, hid, hkey⟩
    · exact Or.inl ⟨String.toList_inj.1 hid, String.toList_inj.1 hkey⟩
    · refine Or.inr (Or.inl ⟨.ofList s, ?_, ?_⟩) <;>
        simpa only [← String.toList_inj, toList_markedKey, String.toList_ofList]
    · refine Or.inr (Or.inr ⟨.ofList s, ?_, ?_⟩) <;>
        simpa only [← String.toList_inj, toList_markedKey, String.toList_ofList]
  · rintro (⟨rfl, rfl⟩ | ⟨s, rfl, rfl⟩ | ⟨s, rfl, rfl⟩)
    · rfl
    · exact markedKey_assoc id s key'
    · exact (markedKey_assoc id' s key).symm

/-- Two of the ids and two of the keys make one marked key in two ways: with an id
    and a text `s`, the id that goes on with `s` is there as well, and with a key
    the one that has `s` in front. -/
def MarksOverlap (ids : List String) (keys : SortedSet String) : Prop :=
  ∃ id ∈ ids, ∃ key ∈ keys, ∃ s, markedKey id s ∈ ids ∧ markedKey s key ∈ keys

/-- Different pairs of an id and a key make different marked keys. -/
def MarksDiffer (ids : List String) (keys : SortedSet String) : Prop :=
  ∀ id ∈ ids, ∀ key ∈ keys, ∀ id' ∈ ids, ∀ key' ∈ keys,
    markedKey id key = markedKey id' key' → id = id' ∧ key = key'

section
variable {ids : List String} {keys : SortedSet String}

/-- **Marks differ exactly if they do not overlap.** -/
theorem marksDiffer_iff : MarksDiffer ids keys ↔ ¬ MarksOverlap ids keys := by
  constructor
  · rintro hdiffer ⟨id, hid, key, hkey, s, hlonger, hmarked⟩
    have hsame := hdiffer id hid _ hmarked _ hlonger key hkey (markedKey_assoc id s key)
    exact markedKey_ne_left id s hsame.1.symm
  · intro hoverlap id hid key hkey id' hid' key' hkey' heq
    rcases markedKey_eq_iff.1 heq with hsame | ⟨s, rfl, rfl⟩ | ⟨s, rfl, rfl⟩
    · exact hsame
    · exact absurd ⟨id, hid, key', hkey', s, hid', hkey⟩ hoverlap
    · exact absurd ⟨id', hid', key, hkey, s, hid, hkey'⟩ hoverlap

theorem mem_toList_markedKey (id key : String) : ':' ∈ (markedKey id key).toList := by
  simp [toList_markedKey]

/-- Ids without a `:` do not overlap. -/
theorem not_marksOverlap_of_ids (h : ∀ id ∈ ids, ':' ∉ id.toList) : ¬ MarksOverlap ids keys := by
  rintro ⟨id, -, key, -, s, hlonger, -⟩
  exact h _ hlonger (mem_toList_markedKey id s)

/-- Neither do keys without a `:`. -/
theorem not_marksOverlap_of_keys (h : ∀ key ∈ keys, ':' ∉ key.toList) :
    ¬ MarksOverlap ids keys := by
  rintro ⟨id, -, key, -, s, -, hmarked⟩
  exact h _ hmarked (mem_toList_markedKey s key)

/-- All marked keys, id by id. -/
def markedKeys (ids : List String) (keys : SortedSet String) : List String :=
  ids.flatMap fun id => keys.toList.map (markedKey id)

theorem markedKeys_eq : markedKeys ids keys =
    (ids ×ˢ keys.toList).map fun pair => markedKey pair.1 pair.2 := by
  show _ = (ids.flatMap fun id => keys.toList.map (Prod.mk id)).map _
  simp only [markedKeys, List.map_flatMap, List.map_map]
  rfl

theorem length_markedKeys : (markedKeys ids keys).length = ids.length * keys.size := by
  rw [markedKeys_eq, List.length_map, List.length_product]
  rfl

/-- No marked key occurs twice exactly if the marks differ. -/
theorem nodup_markedKeys_iff (hids : ids.Nodup) :
    (markedKeys ids keys).Nodup ↔ MarksDiffer ids keys := by
  have hpairs : (ids ×ˢ keys.toList).Nodup := hids.product keys.nodup_toList
  rw [markedKeys_eq]
  constructor
  · intro hnodup id hid key hkey id' hid' key' hkey' heq
    have hpair := List.inj_on_of_nodup_map hnodup (List.mem_product.2 ⟨hid, hkey⟩)
      (List.mem_product.2 ⟨hid', hkey'⟩) heq
    exact Prod.mk.inj hpair
  · intro hdiffer
    refine hpairs.map_on fun a ha b hb heq => ?_
    have ha' := List.mem_product.1 ha
    have hb' := List.mem_product.1 hb
    exact Prod.ext_iff.2 (hdiffer a.1 ha'.1 a.2 ha'.2 b.1 hb'.1 b.2 hb'.2 heq)

end

/-! ## What a call writes -/

/-- The numbers of repetitions hold no `:`. -/
theorem CallSettings.not_mem_defaultIds {n : Int64} {ids : List String}
    (h : defaultIds n = some ids) : ∀ id ∈ ids, ':' ∉ id.toList := by
  rw [defaultIds] at h
  split_ifs at h
  obtain rfl := Option.some.inj h
  intro id hid hcolon
  obtain ⟨i, -, rfl⟩ := List.mem_map.1 hid
  exact absurd (Json.isDigit_toString hcolon) (by decide)

namespace Call

/-- The keys that the program of a call writes, under their new names. -/
def renamedKeys (c : Call) : SortedSet String :=
  c.program.measurementKeys.map c.settings.renameKey

variable {c : Call} {ids : List String}

theorem measurementKeys_eq_ofList (hids : c.settings.effectiveIds = some ids) :
    c.measurementKeys = .ofList (markedKeys ids c.renamedKeys) := by
  rw [measurementKeys, CallSettings.outerKeys, hids]
  rfl

/-- **How many keys a call writes that marks them.**  There are as many as pairs of
    an id and a renamed key if no two of them overlap, and only then; so it is if no
    id or no key holds a `:`, and if the ids are the numbers of the repetitions. -/
theorem size_measurementKeys (hids : c.settings.effectiveIds = some ids) (hdistinct : ids.Nodup) :
    (c.measurementKeys.size = ids.length * c.renamedKeys.size ↔
      ¬ MarksOverlap ids c.renamedKeys) ∧
    (MarksDiffer ids c.renamedKeys ↔ ¬ MarksOverlap ids c.renamedKeys) ∧
    ((∀ id ∈ ids, ':' ∉ id.toList) → ¬ MarksOverlap ids c.renamedKeys) ∧
    ((∀ key ∈ c.renamedKeys, ':' ∉ key.toList) → ¬ MarksOverlap ids c.renamedKeys) ∧
    (c.settings.repetitionIds = none → ¬ MarksOverlap ids c.renamedKeys) := by
  refine ⟨?_, marksDiffer_iff, not_marksOverlap_of_ids, not_marksOverlap_of_keys, fun hnone => ?_⟩
  · rw [measurementKeys_eq_ofList hids, ← length_markedKeys, SortedSet.size_ofList_eq_length_iff,
      nodup_markedKeys_iff hdistinct, marksDiffer_iff]
  · have hdefault : CallSettings.defaultIds c.settings.repetitions = some ids := by
      rw [CallSettings.effectiveIds, hnone] at hids
      split_ifs at hids
      exact hids
    exact not_marksOverlap_of_ids (CallSettings.not_mem_defaultIds hdefault)

/-- A measurement under two ids. -/
def labelledLoop : Call :=
  ⟨⟨[⟨[⟨.measure "m", [.line 0], []⟩]⟩], []⟩,
    { repetitions := 2, repetitionIds := some ["a", "b"], useIds := true }⟩

/-- It writes two keys. -/
theorem size_measurementKeys_labelledLoop :
    labelledLoop.settings.effectiveIds = some ["a", "b"] ∧ ["a", "b"].Nodup ∧
      labelledLoop.measurementKeys.size = 2 := by
  have hids : labelledLoop.settings.effectiveIds = some ["a", "b"] := rfl
  have hdistinct : ["a", "b"].Nodup := by decide
  obtain ⟨hsize, -, hcolon, -, -⟩ := size_measurementKeys hids hdistinct
  exact ⟨hids, hdistinct, hsize.2 (hcolon (by decide))⟩

end Call

/-! ## Marks that overlap -/

/-- A program that measures two keys, of which one is the other with a mark. -/
def markedTwice : Program :=
  ⟨[⟨[⟨.measure "m", [.line 0], []⟩, ⟨.measure "b:m", [.line 1], []⟩]⟩], []⟩

/-- That program under two ids, of which one is the other with a mark. -/
def overlappingLoop : Call :=
  ⟨markedTwice, { repetitions := 2, repetitionIds := some ["a", "a:b"], useIds := true }⟩

theorem built_overlappingLoop : Built (.call overlappingLoop) := by
  have hfirst : Built (.operation ⟨.measure "m", [.line 0], []⟩) :=
    .measure (Operation.measure_eq_ok_iff.2 ⟨by decide, rfl⟩)
  have hsecond : Built (.operation ⟨.measure "b:m", [.line 1], []⟩) :=
    .measure (Operation.measure_eq_ok_iff.2 ⟨by decide, rfl⟩)
  have hprogram : Built (.program markedTwice) :=
    .ofMoments (List.forall_mem_singleton.2 (.ofOperations
      (List.forall_mem_cons.2 ⟨hfirst, List.forall_mem_singleton.2 hsecond⟩) rfl)) []
  exact .build (d := { program := markedTwice, repetitionIds := some ["a", "a:b"] }) hprogram rfl

/-- The ids are different, and two of the four measurements are under one key. -/
theorem overlappingLoop_merges_keys :
    Built (.call overlappingLoop) ∧
      overlappingLoop.settings.effectiveIds = some ["a", "a:b"] ∧ ["a", "a:b"].Nodup ∧
      overlappingLoop.renamedKeys.size = 2 ∧ overlappingLoop.measurementKeys.size = 3 ∧
      overlappingLoop.measurementKeys.size ≠ ["a", "a:b"].length * overlappingLoop.renamedKeys.size ∧
      markedKey "a" "b:m" = markedKey "a:b" "m" :=
  ⟨built_overlappingLoop, rfl, by decide, by decide, by decide, by decide, by decide⟩

end QuantumProgram
