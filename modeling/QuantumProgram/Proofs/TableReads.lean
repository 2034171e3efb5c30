/-
  QuantumProgram — what decoding reads from a table.

  A record is decoded against a table of constants, of which it sees no more than
  the programs at the places that it refers to: with the same entries there the
  result is the same (`ProgramRecord.decode_congr`), and with equal ones it is equal
  (`ProgramRecord.corresponds_decode`).  Nothing else of the table comes out in an
  error either, but for its size where a place is past its end.
-/
import QuantumProgram.Proofs.EqualPrograms
import QuantumProgram.Proofs.Resolution

namespace QuantumProgram

/-! ## Results that correspond -/

section
variable {ε ε' α α' β β' γ : Type}

/-- Two results are values or errors that correspond. -/
inductive Corresponds (F : ε → ε → Prop) (E : α → β → Prop) : Except ε α → Except ε β → Prop
  | ok {a : α} {b : β} (h : E a b) : Corresponds F E (.ok a) (.ok b)
  | error {e e' : ε} (h : F e e') : Corresponds F E (.error e) (.error e')

namespace Corresponds

variable {F : ε → ε → Prop} {E : α → β → Prop} {E' : α' → β' → Prop}

theorem bind {x : Except ε α} {y : Except ε β} {f : α → Except ε α'} {g : β → Except ε β'}
    (hxy : Corresponds F E x y) (hfg : ∀ a b, E a b → Corresponds F E' (f a) (g b)) :
    Corresponds F E' (x >>= f) (y >>= g) := by
  cases hxy with
  | ok h => exact hfg _ _ h
  | error h => exact .error h

/-- A common first step is left out of account. -/
theorem bind_left (hF : ∀ e, F e e) (x : Except ε γ) {f : γ → Except ε α} {g : γ → Except ε β}
    (hfg : ∀ c, Corresponds F E (f c) (g c)) : Corresponds F E (x >>= f) (x >>= g) := by
  cases x with
  | ok c => exact hfg c
  | error e => exact .error (hF e)

theorem mapError {x : Except ε α} {y : Except ε β} (h : Corresponds Eq E x y) {G : ε' → ε' → Prop}
    (hG : ∀ e, G e e) (f : ε → ε') : Corresponds G E (x.mapError f) (y.mapError f) := by
  cases h with
  | ok h => exact .ok h
  | error h => exact .error (h ▸ hG _)

theorem mapM {l : List γ} {f : γ → Except ε α} {g : γ → Except ε β}
    (hfg : ∀ c ∈ l, Corresponds F E (f c) (g c)) :
    Corresponds F (List.Forall₂ E) (l.mapM f) (l.mapM g) := by
  induction l with
  | nil => exact .ok .nil
  | cons c l ih =>
    obtain ⟨hc, hl⟩ := List.forall_mem_cons.1 hfg
    rw [List.mapM_cons, List.mapM_cons]
    exact hc.bind fun a b hab => (ih hl).bind fun as bs habs => .ok (.cons hab habs)

end Corresponds

theorem mapM_congr {l : List γ} {f g : γ → Except ε α} (h : ∀ c ∈ l, f c = g c) :
    l.mapM f = l.mapM g := by
  induction l with
  | nil => rfl
  | cons c l ih =>
    obtain ⟨hc, hl⟩ := List.forall_mem_cons.1 h
    rw [List.mapM_cons, List.mapM_cons, hc, ih hl]

end

/-! ## Calls and moments -/

/-- **Calls of equal programs are checked alike.** -/
theorem Call.corresponds_checked {p q : Program} (h : (p == q) = true) (s : CallSettings) :
    Corresponds Eq (fun c d => c = ⟨p, s⟩ ∧ d = ⟨q, s⟩) (checked ⟨p, s⟩) (checked ⟨q, s⟩) := by
  rw [checked, checked, fault?_eq_of_beq h]
  cases fault? q.isInvertible ⟨q, s⟩ with
  | none => exact .ok ⟨rfl, rfl⟩
  | some fault => exact .error rfl

namespace Moment

theorem corresponds_push {m m' : Moment} {op op' : Operation} (hm : (m == m') = true)
    (hop : op.beq op' = true) :
    Corresponds Eq (fun n n' => (n == n') = true) (m.push op) (m'.push op') := by
  have hops := sameOperations_iff.1 hm
  have hfirst := firstOverlap?_eq_of_beq hops op'.qubits
  rw [push, push, Operation.qubits_eq_of_beq hop]
  cases hleft : firstOverlap? op'.qubits m.operations with
  | none =>
    rw [hleft, Option.map_none, eq_comm, Option.map_eq_none_iff] at hfirst
    rw [hfirst]
    exact .ok (sameOperations_iff.2 (List.rel_append hops (.cons hop .nil)))
  | some found =>
    rw [hleft, Option.map_some, eq_comm, Option.map_eq_some_iff] at hfirst
    obtain ⟨found', hright, heq⟩ := hfirst
    obtain ⟨hname, hqubit⟩ := Prod.mk.inj heq
    rw [hright]
    refine .error ?_
    rw [hname, hqubit, Operation.name_eq_of_beq hop]

/-- **Equal operations make equal moments**, or fail on the same qubit. -/
theorem corresponds_ofOperations {ops ops' : List Operation}
    (h : List.Forall₂ (fun a b => a.beq b = true) ops ops') :
    Corresponds Eq (fun m m' => (m == m') = true) (ofOperations ops) (ofOperations ops') := by
  have hfold : ∀ {m m' : Moment}, (m == m') = true →
      Corresponds Eq (fun n n' => (n == n') = true) (ops.foldlM push m) (ops'.foldlM push m') := by
    induction h with
    | nil => exact fun hm => .ok hm
    | cons hop _ ih =>
      intro m m' hm
      rw [List.foldlM_cons, List.foldlM_cons]
      exact (corresponds_push hm hop).bind fun _ _ hnext => ih hnext
  exact hfold rfl

end Moment

/-! ## Entries -/

namespace Constant

protected def beq : Constant → Constant → Bool
  | text s, text s' => s = s'
  | qubit q, qubit q' => q = q'
  | program p, program p' => p == p'
  | _, _ => false

instance : BEq Constant := ⟨Constant.beq⟩

/-- The entry as a program. -/
def asProgram (place : ℕ) : Constant → RecordResult Program
  | program p => .ok p
  | c => .error (.notAProgram place c.kind)

theorem corresponds_asProgram {F : RecordError → RecordError → Prop} (hF : ∀ e, F e e)
    {c c' : Constant} (h : (c == c') = true) (place : ℕ) :
    Corresponds F (fun p q => (p == q) = true) (c.asProgram place) (c'.asProgram place) := by
  change c.beq c' = true at h
  cases c <;> cases c'
  case program.program => exact .ok h
  case text.text | qubit.qubit => exact .error (hF _)
  all_goals exact absurd h Bool.false_ne_true

end Constant

namespace ConstantTable

variable {t t' : ConstantTable} {place : ℕ}

theorem program_of_some {c : Constant} (h : t.entries[place]? = some c) :
    t.program place = c.asProgram place := by
  rw [program, get, h]
  cases c <;> rfl

theorem program_of_none (h : t.entries[place]? = none) :
    t.program place = .error (.outOfRange place t.size) := by
  rw [program, get, h]
  rfl

end ConstantTable

/-! ## The same entries -/

section
variable {t t' : ConstantTable}

theorem CallRecord.decode_congr {r : CallRecord} (h : t.program r.place = t'.program r.place) :
    r.decode t = r.decode t' := by
  rw [decode, decode, h]

theorem OperationRecord.decode_congr {r : OperationRecord}
    (h : ∀ i, r.reference? = some i → t.program i = t'.program i) : r.decode t = r.decode t' := by
  obtain ⟨action, tags⟩ := r
  cases action with
  | gate | measure | reset => rfl
  | call c =>
    have hcall : c.decode t = c.decode t' := CallRecord.decode_congr (h c.place rfl)
    rw [decode, decode, ActionRecord.decode, ActionRecord.decode, hcall]

/-- The places that an operation of a program refers to are places that the program
    refers to. -/
theorem ProgramRecord.mem_references {r : ProgramRecord} {i : ℕ} :
    i ∈ r.references ↔ ∃ records ∈ r.moments, ∃ op ∈ records, op.reference? = some i := by
  simp only [references, List.mem_filterMap, List.mem_flatten]
  constructor
  · rintro ⟨op, ⟨records, hrecords, hop⟩, hi⟩
    exact ⟨records, hrecords, op, hop, hi⟩
  · rintro ⟨records, hrecords, op, hop, hi⟩
    exact ⟨op, ⟨records, hrecords, hop⟩, hi⟩

/-- **Decoding sees the programs at the places referred to**, and nothing else of a
    table. -/
theorem ProgramRecord.decode_congr {r : ProgramRecord}
    (h : ∀ i ∈ r.references, t.program i = t'.program i) : r.decode t = r.decode t' := by
  have hmoments : r.moments.mapM (decodeMoment t) = r.moments.mapM (decodeMoment t') := by
    refine mapM_congr fun records hrecords => ?_
    have hops : records.mapM (OperationRecord.decode t) = records.mapM (OperationRecord.decode t') := by
      refine mapM_congr fun op hop => OperationRecord.decode_congr fun i hi => ?_
      exact h i (mem_references.2 ⟨records, hrecords, op, hop, hi⟩)
    rw [decodeMoment, decodeMoment, hops]
  rw [decode, decode, hmoments]

/-! ## Equal entries -/

variable {F : RecordError → RecordError → Prop} (hF : ∀ e, F e e)
include hF

theorem CallRecord.corresponds_decode {r : CallRecord}
    (h : Corresponds F (fun p q => (p == q) = true) (t.program r.place) (t'.program r.place)) :
    Corresponds F (fun a b => a.beq b = true) (r.decode t) (r.decode t') := by
  refine h.bind fun p q hpq => .bind_left hF _ fun bindings => .bind_left hF _ fun condition => ?_
  have hchecked := Call.corresponds_checked hpq (r.draft p bindings condition).call.settings
  refine (hchecked.mapError hF .build).bind ?_
  rintro _ _ ⟨rfl, rfl⟩
  refine .bind_left hF _ fun guards => .ok ?_
  exact Operation.beq_guarded_ofCall hpq _ guards

theorem OperationRecord.corresponds_decode {r : OperationRecord}
    (h : ∀ i, r.reference? = some i →
      Corresponds F (fun p q => (p == q) = true) (t.program i) (t'.program i)) :
    Corresponds F (fun a b => a.beq b = true) (r.decode t) (r.decode t') := by
  obtain ⟨action, tags⟩ := r
  cases action with
  | gate | measure | reset =>
    exact .bind_left hF _ fun op => .ok (op.withTags tags).beq_self
  | call c =>
    have hcall := CallRecord.corresponds_decode hF (h c.place rfl)
    exact hcall.bind fun a b hab => .ok (Operation.beq_withTags hab tags)

/-- **Decoding against equal entries gives equal programs or the same error.** -/
theorem ProgramRecord.corresponds_decode {r : ProgramRecord}
    (h : ∀ i ∈ r.references,
      Corresponds F (fun p q => (p == q) = true) (t.program i) (t'.program i)) :
    Corresponds F (fun p q => (p == q) = true) (r.decode t) (r.decode t') := by
  have hmoments : Corresponds F (List.Forall₂ fun m m' => (m == m') = true)
      (r.moments.mapM (decodeMoment t)) (r.moments.mapM (decodeMoment t')) := by
    refine .mapM fun records hrecords => ?_
    have hops : Corresponds F (List.Forall₂ fun a b => a.beq b = true)
        (records.mapM (OperationRecord.decode t)) (records.mapM (OperationRecord.decode t')) := by
      refine .mapM fun op hop => OperationRecord.corresponds_decode hF fun i hi => ?_
      exact h i (mem_references.2 ⟨records, hrecords, op, hop, hi⟩)
    exact hops.bind fun ops ops' hsame => (Moment.corresponds_ofOperations hsame).mapError hF .build
  refine hmoments.bind fun moments moments' hsame => .ok ?_
  exact Program.beq_iff.2 ⟨sameMoments_iff.2 hsame, rfl⟩

end

/-! ## Longer tables -/

section
variable {t : ConstantTable} {later : List Constant}

theorem ConstantTable.program_append {place : ℕ} (h : place < t.size) :
    ConstantTable.program ⟨t.entries ++ later⟩ place = t.program place := by
  have hentry : t.entries[place]? = some t.entries[place] := List.getElem?_eq_getElem h
  have hlonger : (t.entries ++ later)[place]? = some t.entries[place] := by
    rw [List.getElem?_append_left h, hentry]
  rw [program_of_some hentry, program_of_some (t := ⟨_⟩) hlonger]

/-- What was decoded refers to entries of the table. -/
theorem OperationRecord.lt_size_of_decode {r : OperationRecord} {op : Operation}
    (h : r.decode t = .ok op) {i : ℕ} (hi : r.reference? = some i) : i < t.size := by
  obtain ⟨action, tags⟩ := r
  cases action with
  | gate | measure | reset => exact absurd hi nofun
  | call c =>
    obtain rfl : c.place = i := Option.some.inj hi
    obtain ⟨p, hp, -⟩ := callee?_decode h rfl
    exact (List.getElem?_eq_some_iff.1 hp).1

/-- **Further entries do not change what was decoded.** -/
theorem OperationRecord.decode_append {r : OperationRecord} {op : Operation}
    (h : r.decode t = .ok op) : r.decode ⟨t.entries ++ later⟩ = .ok op := by
  rw [← h]
  exact decode_congr fun i hi => ConstantTable.program_append (lt_size_of_decode h hi)

theorem ProgramRecord.decode_append {r : ProgramRecord} {p : Program} (h : r.decode t = .ok p) :
    r.decode ⟨t.entries ++ later⟩ = .ok p := by
  rw [← h]
  refine decode_congr fun i hi => ConstantTable.program_append ?_
  obtain ⟨records, hrecords, op, hop, hi⟩ := mem_references.1 hi
  obtain ⟨op', -, hdecode⟩ := exists_of_forall₂ (forall₂_decode h)
    (List.mem_flatten.2 ⟨records, hrecords, hop⟩)
  exact OperationRecord.lt_size_of_decode hdecode hi

end

/-! ## What a program record reads -/

namespace ConstantTable

/-- Two tables have equal entries at a place. -/
def EqualAt (t t' : ConstantTable) (place : ℕ) : Prop :=
  ∃ c c', t.entries[place]? = some c ∧ t'.entries[place]? = some c' ∧ (c == c') = true

/-- A place is past the end of both tables. -/
def MissingAt (t t' : ConstantTable) (place : ℕ) : Prop :=
  t.entries[place]? = none ∧ t'.entries[place]? = none

variable {t t' : ConstantTable} {place : ℕ}

theorem EqualAt.corresponds_program {F : RecordError → RecordError → Prop} (hF : ∀ e, F e e)
    (h : t.EqualAt t' place) :
    Corresponds F (fun p q => (p == q) = true) (t.program place) (t'.program place) := by
  obtain ⟨c, c', hc, hc', hequal⟩ := h
  rw [program_of_some hc, program_of_some hc']
  exact Constant.corresponds_asProgram hF hequal place

end ConstantTable

namespace ProgramRecord

/-- The same error, but for the sizes of the tables where a place that the record refers
    to is past the end of both. -/
def SameFault (r : ProgramRecord) (t t' : ConstantTable) (e e' : RecordError) : Prop :=
  e = e' ∨ ∃ i ∈ r.references, e = .outOfRange i t.size ∧ e' = .outOfRange i t'.size

/-- **Decoding depends on a table only through the places referred to.**  If two tables
    have the same entries there, then they give the same result; if they have equal
    ones, then they give equal programs or the same error.  A place that is past the end
    of both tables shows no more than their sizes.  Further entries do not change what a
    program or an operation is decoded to. -/
theorem decode_reads_references (r : ProgramRecord) (t t' : ConstantTable) :
    ((∀ i ∈ r.references, ∃ c, t.entries[i]? = some c ∧ t'.entries[i]? = some c) →
      r.decode t = r.decode t') ∧
    ((∀ i ∈ r.references, t.EqualAt t' i) →
      Corresponds Eq (fun p q => (p == q) = true) (r.decode t) (r.decode t')) ∧
    ((∀ i ∈ r.references, t.EqualAt t' i ∨ t.MissingAt t' i) →
      Corresponds (r.SameFault t t') (fun p q => (p == q) = true) (r.decode t) (r.decode t')) ∧
    (∀ later p, r.decode t = .ok p → r.decode ⟨t.entries ++ later⟩ = .ok p) ∧
    ∀ (o : OperationRecord) later op, o.decode t = .ok op →
      o.decode ⟨t.entries ++ later⟩ = .ok op := by
  refine ⟨fun h => decode_congr fun i hi => ?_, fun h => ?_, fun h => ?_,
    fun later p => decode_append, fun o later op => OperationRecord.decode_append⟩
  · obtain ⟨c, hc, hc'⟩ := h i hi
    rw [ConstantTable.program_of_some hc, ConstantTable.program_of_some hc']
  · exact corresponds_decode (fun _ => rfl) fun i hi => (h i hi).corresponds_program fun _ => rfl
  · have hF : ∀ e, r.SameFault t t' e e := fun _ => Or.inl rfl
    refine corresponds_decode hF fun i hi => ?_
    rcases h i hi with hequal | ⟨hnone, hnone'⟩
    · exact hequal.corresponds_program hF
    · rw [ConstantTable.program_of_none hnone, ConstantTable.program_of_none hnone']
      exact .error (Or.inr ⟨i, hi, rfl, rfl⟩)

/-- A call of the program at place `1`. -/
def secondCall : ProgramRecord := ⟨[[⟨.call { place := 1 }, []⟩]], []⟩

/-- A text, or something else, and a program. -/
def secondTable (first : Constant) : ConstantTable :=
  ⟨[first, .program ⟨[⟨[.reset (.line 0)]⟩], []⟩]⟩

/-- What stands at place `0` does not matter, and neither does what stands after. -/
theorem decode_reads_references_secondCall :
    (∀ i ∈ secondCall.references, ∃ c, (secondTable (.text "a")).entries[i]? = some c ∧
      (secondTable (.qubit (.line 7))).entries[i]? = some c) ∧
    secondCall.decode (secondTable (.text "a")) =
      secondCall.decode (secondTable (.qubit (.line 7))) ∧
    ∃ p, secondCall.decode (secondTable (.text "a")) = .ok p ∧
      secondCall.decode ⟨(secondTable (.text "a")).entries ++ [.text "b"]⟩ = .ok p := by
  have hsame : ∀ i ∈ secondCall.references, ∃ c,
      (secondTable (.text "a")).entries[i]? = some c ∧
        (secondTable (.qubit (.line 7))).entries[i]? = some c :=
    List.forall_mem_singleton.2 ⟨_, rfl, rfl⟩
  have hdecode : ∃ p, secondCall.decode (secondTable (.text "a")) = .ok p := ⟨_, rfl⟩
  obtain ⟨hequal, -, -, hlonger, -⟩ :=
    decode_reads_references secondCall (secondTable (.text "a")) (secondTable (.qubit (.line 7)))
  obtain ⟨p, hp⟩ := hdecode
  exact ⟨hsame, hequal hsame, p, hp, hlonger _ p hp⟩

end ProgramRecord

end QuantumProgram
