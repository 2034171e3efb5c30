/-
  QuantumProgram — tables of constants from records.

  A table is decoded from records if each entry is what its record describes
  against the entries before it.  The table that a list of records resolves to
  is the one decoded from it, if there is one: a program that decodes calls
  programs from before it only, so that there is no cycle for a search to find
  (`resolve_bottomUp`).
-/
import QuantumProgram.Proofs.Cycles
import QuantumProgram.Proofs.Outcomes
import QuantumProgram.Record.Resolve

namespace QuantumProgram

/-! ## Calls in decoded programs -/

/-- The program that an operation calls, plainly or under guards. -/
def Operation.callee? : Operation → Option Program
  | ⟨.call c, _, _⟩ => some c.program
  | ⟨.guarded op _, _, _⟩ => op.callee?
  | ⟨.gate _, _, _⟩ => none
  | ⟨.measure _, _, _⟩ => none
  | ⟨.reset, _, _⟩ => none
termination_by structural op => op

theorem Operation.callee?_withTags (op : Operation) (tags : List Tag) :
    (op.withTags tags).callee? = op.callee? := by
  obtain ⟨_ | _ | _ | _ | _, _, _⟩ := op <;> simp [withTags, callee?]

theorem Operation.callee?_guarded_ofCall (c : Call) (conditions : List Condition) :
    ((ofCall c).withConditions conditions).callee? = some c.program := by
  cases conditions <;> simp [withConditions, ofCall, callee?]

namespace ConstantTable

variable {table t : ConstantTable} {place : ℕ}

theorem program_eq_ok_iff {p : Program} :
    table.program place = .ok p ↔ table.entries[place]? = some (.program p) := by
  rw [program, get]
  cases table.entries[place]? with
  | none => simp [bind, Except.bind]
  | some c => cases c <;> simp [bind, Except.bind, pure, Except.pure, throw, throwThe,
      MonadExceptOf.throw]

end ConstantTable

theorem CallRecord.callee?_decode {r : CallRecord} {table : ConstantTable} {op : Operation}
    (h : r.decode table = .ok op) :
    ∃ p, table.entries[r.place]? = some (.program p) ∧ op.callee? = some p := by
  simp only [decode, bind_eq_ok_iff, RecordResult.ofBuild, mapError_eq_ok_iff, CallDraft.build,
    Call.checked_eq_ok_iff] at h
  obtain ⟨p, hp, bindings, -, repeatUntil, -, call, ⟨-, rfl⟩, guards, -, hop⟩ := h
  obtain rfl := Except.ok.inj hop
  exact ⟨p, ConstantTable.program_eq_ok_iff.1 hp, Operation.callee?_guarded_ofCall _ _⟩

theorem OperationRecord.callee?_decode {r : OperationRecord} {table : ConstantTable}
    {op : Operation} (h : r.decode table = .ok op) {c : CallRecord} (hc : r.action = .call c) :
    ∃ p, table.entries[c.place]? = some (.program p) ∧ op.callee? = some p := by
  simp only [decode, bind_eq_ok_iff] at h
  obtain ⟨op', hop', hop⟩ := h
  obtain rfl := Except.ok.inj hop
  rw [hc, ActionRecord.decode] at hop'
  rw [Operation.callee?_withTags]
  exact CallRecord.callee?_decode hop'

theorem decodeMoment_eq_ok_iff {table : ConstantTable} {records : List OperationRecord}
    {m : Moment} : decodeMoment table records = .ok m ↔
      List.Forall₂ (fun r op => r.decode table = .ok op) records m.operations ∧
        m.operations.Pairwise Operation.Apart := by
  simp only [decodeMoment, bind_eq_ok_iff, mapM_eq_ok_iff, RecordResult.ofBuild,
    mapError_eq_ok_iff, Moment.ofOperations_eq_ok_iff]
  constructor
  · rintro ⟨ops, hops, hapart, rfl⟩
    exact ⟨hops, hapart⟩
  · rintro ⟨hops, hapart⟩
    exact ⟨m.operations, hops, hapart, by cases m; rfl⟩

/-- **A program is decoded moment by moment.** -/
theorem ProgramRecord.decode_eq_ok_iff {table : ConstantTable} {r : ProgramRecord} {p : Program} :
    r.decode table = .ok p ↔
      List.Forall₂ (fun records m => decodeMoment table records = .ok m) r.moments p.moments ∧
        p.tags = r.tags := by
  simp only [decode, bind_eq_ok_iff, mapM_eq_ok_iff]
  constructor
  · rintro ⟨moments, hmoments, heq⟩
    obtain rfl := Except.ok.inj heq
    exact ⟨hmoments, rfl⟩
  · obtain ⟨moments, tags⟩ := p
    rintro ⟨hmoments, rfl⟩
    exact ⟨moments, hmoments, rfl⟩

/-- The operations of a decoded program, record by record. -/
theorem ProgramRecord.forall₂_decode {table : ConstantTable} {r : ProgramRecord} {p : Program}
    (h : r.decode table = .ok p) :
    List.Forall₂ (fun r op => r.decode table = .ok op) r.moments.flatten p.operations := by
  obtain ⟨hmoments, -⟩ := decode_eq_ok_iff.1 h
  rw [Program.operations, List.flatMap_def]
  refine List.rel_flatten ?_
  rw [List.forall₂_map_right_iff]
  exact hmoments.imp fun _ _ hm => (decodeMoment_eq_ok_iff.1 hm).1

/-! ## Tables decoded from the first entry on -/

/-- The kind of the entry that a record describes. -/
def ConstantRecord.kind : ConstantRecord → String
  | text _ => "text"
  | qubit _ => "qubit"
  | program _ => "program"

theorem ConstantRecord.kind_decode {r : ConstantRecord} {table : ConstantTable} {c : Constant}
    (h : r.decode table = .ok c) : c.kind = r.kind := by
  cases r with
  | text s => obtain rfl := Except.ok.inj h; rfl
  | qubit id => obtain rfl := Except.ok.inj h; rfl
  | program r =>
    obtain ⟨p, -, hc⟩ := bind_eq_ok_iff.1 h
    obtain rfl := Except.ok.inj hc
    rfl

namespace ConstantTable

variable {t t' : ConstantTable} {records : List ConstantRecord} {i n : ℕ}

/-- The first `n` entries. -/
def upTo (t : ConstantTable) (n : ℕ) : ConstantTable := ⟨t.entries.take n⟩

/-- Each entry is what its record describes against the entries before it. -/
structure DecodedFrom (t : ConstantTable) (records : List ConstantRecord) : Prop where
  size_eq : t.size = records.length
  decode_eq : ∀ i (r : ConstantRecord), records[i]? = some r →
    ∃ c, t.entries[i]? = some c ∧ r.decode (t.upTo i) = .ok c

theorem upTo_upTo {k : ℕ} (h : i ≤ k) : (t.upTo k).upTo i = t.upTo i := by
  simp [upTo, List.take_take, Nat.min_eq_left h]

theorem upTo_push {c : Constant} (h : i ≤ t.size) : (t.push c).upTo i = t.upTo i := by
  rw [upTo, upTo, push, List.take_append_of_le_length h]

theorem upTo_size : t.upTo t.size = t := by simp [upTo, size]

/-- A table decoded from records has decoded a part of them at every place. -/
theorem DecodedFrom.take (h : t.DecodedFrom records) (n : ℕ) :
    (t.upTo n).DecodedFrom (records.take n) where
  size_eq := by
    have hsize : t.entries.length = records.length := h.size_eq
    simp [size, upTo, hsize]
  decode_eq i r hr := by
    rw [List.getElem?_take] at hr
    split_ifs at hr with hi
    obtain ⟨c, hc, hdecode⟩ := h.decode_eq i r hr
    refine ⟨c, by simpa [upTo, hi] using hc, ?_⟩
    rwa [upTo_upTo (Nat.le_of_lt hi)]

theorem decodedFrom_concat_iff {r : ConstantRecord} : t.DecodedFrom (records ++ [r]) ↔
    ∃ t' c, t'.DecodedFrom records ∧ r.decode t' = .ok c ∧ t = t'.push c := by
  constructor
  · intro h
    obtain ⟨c, hc, hdecode⟩ := h.decode_eq records.length r (by simp)
    refine ⟨t.upTo records.length, c, by simpa using h.take records.length, hdecode, ?_⟩
    have hsize : t.entries.length = records.length + 1 := by simpa [size] using h.size_eq
    obtain ⟨hlt, rfl⟩ := List.getElem?_eq_some_iff.1 hc
    obtain ⟨entries⟩ := t
    simp only [upTo, push, ConstantTable.mk.injEq]
    rw [← List.take_succ_eq_append_getElem hlt, ← hsize, List.take_length]
  · rintro ⟨t', c, h, hdecode, rfl⟩
    have hsize : t'.size = records.length := h.size_eq
    refine ⟨by simpa [size, push] using hsize, fun i r' hr' => ?_⟩
    rcases Nat.lt_trichotomy i records.length with hi | rfl | hi
    · rw [List.getElem?_append_left hi] at hr'
      obtain ⟨c', hc', hdecode'⟩ := h.decode_eq i r' hr'
      refine ⟨c', ?_, by rwa [upTo_push (by omega)]⟩
      rw [push, List.getElem?_append_left (by rw [← size]; omega), hc']
    · obtain rfl : r = r' := by simpa using hr'
      refine ⟨c, ?_, ?_⟩
      · rw [← hsize, size, push, List.getElem?_concat_length]
      · rwa [← hsize, upTo_push le_rfl, upTo_size]
    · rw [List.getElem?_eq_none (by simp; omega)] at hr'
      exact absurd hr' (by simp)

/-- **Decoding entry after entry** gives the table decoded from the records. -/
theorem ofRecords_eq_ok_iff : ofRecords records = .ok t ↔ t.DecodedFrom records := by
  induction records using List.reverseRecOn generalizing t with
  | nil =>
    constructor
    · intro h
      obtain rfl := Except.ok.inj h
      exact ⟨rfl, by simp⟩
    · intro h
      obtain ⟨entries⟩ := t
      obtain rfl : entries = [] := List.eq_nil_of_length_eq_zero h.size_eq
      rfl
  | append_singleton records r ih =>
    rw [ofRecords, List.foldlM_append, bind_eq_ok_iff, decodedFrom_concat_iff]
    simp only [List.foldlM_cons, List.foldlM_nil, bind_eq_ok_iff, pushRecord]
    constructor
    · rintro ⟨t', ht', t'', ⟨c, hc, hpush⟩, heq⟩
      obtain rfl := Except.ok.inj heq
      exact ⟨t', c, ih.1 ht', hc, (Except.ok.inj hpush).symm⟩
    · rintro ⟨t', c, ht', hc, rfl⟩
      exact ⟨t', ih.2 ht', t'.push c, ⟨c, hc, rfl⟩, rfl⟩

namespace DecodedFrom

variable (h : t.DecodedFrom records)
include h

theorem map_kind : t.entries.map Constant.kind = records.map ConstantRecord.kind := by
  refine List.ext_getElem? fun i => ?_
  rw [List.getElem?_map, List.getElem?_map]
  cases hr : records[i]? with
  | none =>
    have hlen : t.entries.length ≤ i := by
      have hsize : t.entries.length = records.length := h.size_eq
      rw [hsize]
      exact List.getElem?_eq_none_iff.1 hr
    rw [List.getElem?_eq_none hlen]
    rfl
  | some r =>
    obtain ⟨c, hc, hdecode⟩ := h.decode_eq i r hr
    rw [hc, Option.map_some, Option.map_some, ConstantRecord.kind_decode hdecode]

/-- A record of a program describes the program at its place. -/
theorem decode_program {r : ProgramRecord} (hr : records[i]? = some (.program r)) :
    ∃ p, t.entries[i]? = some (.program p) ∧ r.decode (t.upTo i) = .ok p := by
  obtain ⟨c, hc, hdecode⟩ := h.decode_eq i _ hr
  obtain ⟨p, hp, heq⟩ := bind_eq_ok_iff.1 hdecode
  obtain rfl := Except.ok.inj heq
  exact ⟨p, hc, hp⟩

end DecodedFrom

end ConstantTable

/-! ## References go back -/

/-- If the record calls a place, it is one before `i` that holds a program, and
    this is the program that the operation calls. -/
def ConstantTable.CallsBelow (t : ConstantTable) (i : ℕ) (r : OperationRecord)
    (op : Operation) : Prop :=
  ∀ place, r.reference? = some place →
    place < i ∧ ∃ p, t.entries[place]? = some (.program p) ∧ op.callee? = some p

theorem OperationRecord.callsBelow {t : ConstantTable} {i : ℕ} {r : OperationRecord}
    {op : Operation} (h : r.decode (t.upTo i) = .ok op) : t.CallsBelow i r op := by
  intro place hplace
  rw [reference?] at hplace
  split at hplace
  · next c hc =>
    obtain rfl := Option.some.inj hplace
    obtain ⟨p, hp, hop⟩ := r.callee?_decode h hc
    rw [ConstantTable.upTo, List.getElem?_take] at hp
    split_ifs at hp with hlt
    exact ⟨hlt, p, hp, hop⟩
  · exact absurd hplace (by simp)

namespace ConstantTable

variable {t : ConstantTable} {records : List ConstantRecord}

/-- A table that can be decoded has references to earlier entries only. -/
theorem DecodedFrom.lt_of_refers (h : t.DecodedFrom records) {i j : ℕ}
    (hij : (references records).Refers i j) : j < i := by
  obtain ⟨-, places, hplaces, hj⟩ := References.refers_iff.1 hij
  rw [references, List.getElem?_map] at hplaces
  obtain ⟨record, hrecord, rfl⟩ := Option.map_eq_some_iff.1 hplaces
  cases record with
  | text s => exact absurd hj List.not_mem_nil
  | qubit id => exact absurd hj List.not_mem_nil
  | program r =>
    obtain ⟨p, -, hp⟩ := h.decode_program hrecord
    obtain ⟨o, ho, hplace⟩ := List.mem_filterMap.1 hj
    obtain ⟨op, -, hop⟩ := exists_of_forall₂ (ProgramRecord.forall₂_decode hp) ho
    exact (o.callsBelow hop j hplace).1

section
variable {search : CycleSearch} (hsearch : References.FindsCycles search)
include hsearch

/-- Records resolve to a table exactly if it is decoded from them: the search never
    stands in the way of decoding. -/
theorem resolveBy_eq_ok_iff : resolveBy search records = .ok t ↔ t.DecodedFrom records := by
  rw [resolveBy]
  constructor
  · intro h
    split at h
    · exact absurd h (by simp)
    · exact ofRecords_eq_ok_iff.1 h
  · intro h
    have hnone : search (references records) = none :=
      (hsearch.eq_none_iff _).2 (References.not_onCycle_of_descending fun _ _ => h.lt_of_refers)
    rw [hnone]
    exact ofRecords_eq_ok_iff.2 h

/-- A cycle is reported whatever else is wrong with the records. -/
theorem resolveBy_eq_cyclicReference {i : ℕ} (hi : (references records).OnCycle i) :
    ∃ j, (references records).OnCycle j ∧
      resolveBy search records = .error (.cyclicReference j) := by
  have hcyclic : search (references records) ≠ none := fun hnone =>
    (hsearch.eq_none_iff _).1 hnone i hi
  obtain ⟨j, hj⟩ := Option.ne_none_iff_exists'.1 hcyclic
  refine ⟨j, hsearch.onCycle _ j hj, ?_⟩
  rw [resolveBy, hj]

/-- **Records resolve to the table that is decoded from them entry after
    entry**, whichever way cycles are searched for.  It has an entry of the right
    kind for each record, its programs call programs that stand before them, and the
    first records resolve to the first entries.  If entries refer to each other in a
    cycle, this is the error, whatever else is wrong. -/
theorem resolve_bottomUp (records : List ConstantRecord) :
    (∀ t, resolveBy search records = .ok t ↔ ofRecords records = .ok t) ∧
    (∀ t, ofRecords records = .ok t ↔ t.DecodedFrom records) ∧
    (∀ t, resolveBy search records = .ok t →
      t.entries.map Constant.kind = records.map ConstantRecord.kind ∧
      (∀ i r, records[i]? = some (.program r) → ∃ p, t.entries[i]? = some (.program p) ∧
        List.Forall₂ (t.CallsBelow i) r.moments.flatten p.operations) ∧
      ∀ n, resolveBy search (records.take n) = .ok (t.upTo n)) ∧
    ((∃ i, (references records).OnCycle i) → ∃ j, (references records).OnCycle j ∧
      resolveBy search records = .error (.cyclicReference j)) := by
  refine ⟨fun t => (resolveBy_eq_ok_iff hsearch).trans ofRecords_eq_ok_iff.symm,
    fun t => ofRecords_eq_ok_iff, fun t ht => ?_,
    fun ⟨i, hi⟩ => resolveBy_eq_cyclicReference hsearch hi⟩
  have hdecoded := (resolveBy_eq_ok_iff hsearch).1 ht
  refine ⟨hdecoded.map_kind, fun i r hr => ?_,
    fun n => (resolveBy_eq_ok_iff hsearch).2 (hdecoded.take n)⟩
  obtain ⟨p, hp, hdecode⟩ := hdecoded.decode_program hr
  exact ⟨p, hp, (ProgramRecord.forall₂_decode hdecode).imp fun _ _ => OperationRecord.callsBelow⟩

end

/-- A program without operations, and one that calls the entry at the given
    place. -/
def emptyAndCaller (place : ℕ) : List ConstantRecord :=
  [.program ⟨[], []⟩, .program ⟨[[⟨.call { place }, []⟩]], []⟩]

/-- The call of the first entry resolves, and so does that entry alone; the call of
    the entry that it stands in is a cycle. -/
theorem resolve_emptyAndCaller :
    (∃ t, resolve (emptyAndCaller 0) = .ok t ∧
      t.entries.map Constant.kind = ["program", "program"] ∧
      resolve ((emptyAndCaller 0).take 1) = .ok (t.upTo 1)) ∧
    ∃ j, resolve (emptyAndCaller 1) = .error (.cyclicReference j) := by
  obtain ⟨hiff, -, hresolved, -⟩ :=
    resolve_bottomUp References.findsCycles_cyclicPlace? (emptyAndCaller 0)
  obtain ⟨-, -, -, hcycle⟩ :=
    resolve_bottomUp References.findsCycles_cyclicPlace? (emptyAndCaller 1)
  constructor
  · obtain ⟨t, ht⟩ : ∃ t, ofRecords (emptyAndCaller 0) = .ok t := ⟨_, rfl⟩
    have hok := (hiff t).2 ht
    obtain ⟨hkinds, -, hfirst⟩ := hresolved t hok
    exact ⟨t, hok, hkinds, hfirst 1⟩
  · have hself : (references (emptyAndCaller 1)).Refers 1 1 :=
      show 1 ∈ References.targets _ 1 by decide
    obtain ⟨j, -, hj⟩ := hcycle ⟨1, .single hself⟩
    exact ⟨j, hj⟩

end ConstantTable

end QuantumProgram
