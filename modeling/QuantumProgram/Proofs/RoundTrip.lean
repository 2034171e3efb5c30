/-
  QuantumProgram — programs are read back as they were written.

  Reading checks everything again: that a gate fits its qubits, that qubits are
  different, that the operations of a moment are apart, that a call is without
  fault.  All of this holds of programs that could be built, and the qubits and
  maps of a call are computed anew as they were (`Program.reads`).
-/
import QuantumProgram.Proofs.Built
import QuantumProgram.Proofs.Equality
import QuantumProgram.Proofs.Persistable
import QuantumProgram.Proofs.ReadingParts

namespace QuantumProgram

open Decoder (Reads unfolded)

/-! ## Calls -/

/-- The draft that is read for a call. -/
def Call.draft (c : Call) : CallDraft where
  program := c.program
  repetitions := some c.settings.repetitions
  repetitionIds := c.settings.repetitionIds
  qubitMap := c.settings.qubitMap
  keyMap := c.settings.keyMap
  bindings := c.settings.bindings
  useIds := some c.settings.useIds
  repeatUntil := c.settings.repeatUntil

/-- A call without fault is built from its draft. -/
theorem Call.build_draft {c : Call} (h : c.WellFormed) : c.draft.build = .ok c := by
  obtain ⟨p, s⟩ := c
  exact Call.checked_eq_ok h.valid

/-- The settings of a call are read as its draft, after the program. -/
theorem CallSettings.reads_draft {program : Decoder Program} {p : Program} {v : Json}
    (hp : Reads program p v) {s : CallSettings}
    (hfloats : ∀ x ∈ s.bindings.toList.flatMap fun e => e.2.floats, x.isFinite = true) :
    Reads (CallDraft.decoder program) (Call.draft ⟨p, s⟩)
      (.object (("program", v) :: s.members)) := by
  have hbindings : ∀ e ∈ s.bindings.toList, Reads BindingValue.decoder e.2 e.2.toJson :=
    fun e he => BindingValue.reads fun x hx => hfloats x (List.mem_flatMap.2 ⟨e, he, hx⟩)
  have hread : Reads (CallDraft.decoder program)
      { Call.draft ⟨p, s⟩ with
        qubitMap := .ofList s.qubitMap.toList
        keyMap := .ofList s.keyMap.toList
        bindings := .ofList s.bindings.toList }
      (.object (("program", v) :: s.members)) := by
    refine .record (t := (p, s.repetitions, s.repetitionIds, s.qubitMap.toList, s.keyMap.toList,
      s.bindings.toList, s.useIds, s.repeatUntil, ())) (.given hp ?_)
      (by decide : ["program", "repetitions", "repetition_ids", "qubit_map", "measurement_key_map",
        "param_map", "use_repetition_ids", "repeat_until"].Nodup)
    rw [CallSettings.members, List.append_assoc, List.append_assoc]
    refine .given (.int64 _) (.optional (fun ids => .ofList fun id _ => .text id) nofun ?_)
    refine .given (.pairs (fun e _ => e.1.reads) fun e _ => e.2.reads) ?_
    refine .given (.pairs (fun e _ => .text e.1) fun e _ => .text e.2) ?_
    refine .given (.pairs (fun e _ => e.1.reads) hbindings) (.given (.bool _) ?_)
    exact .optional_last Condition.reads fun c => by cases c <;> nofun
  simpa only [SortedMap.ofList_toList, Call.draft] using hread

/-! ## From the operations to the program -/

theorem Tag.reads_list {tags : List Tag} {v : Json} (h : listToJson tags = .ok v) :
    Reads (.list decoder) tags v := by
  obtain ⟨vs, hvs, rfl⟩ := listToJson_eq_ok_iff.1 h
  exact .list (hvs.imp fun _ _ => Tag.reads)

section
variable {operation : Decoder Operation}

/-- A moment is read if its operations are. -/
theorem Moment.reads_of {m : Moment} {v : Json} (hm : m.WellFormed) (h : m.toJson = .ok v)
    (hops : ∀ op ∈ m.operations, ∀ w, op.toJson = .ok w → w.depth < v.depth →
      Reads operation op w) : Reads (decoderOf operation) m v := by
  obtain ⟨vs, hvs, rfl⟩ := toJson_eq_ok_iff.1 h
  obtain ⟨ops⟩ := m
  have hread : List.Forall₂ (Reads operation) ops vs :=
    forall₂_imp_of_mem hvs fun op hop w hw hopw => hops op hop w hopw (Json.depth_lt_array hw)
  exact .validated (.list hread) (Moment.ofOperations_eq_ok hm.apart)

/-- A program is read if its operations are. -/
theorem Program.reads_of {p : Program} {v : Json} (hp : p.WellFormed) (h : p.toJson = .ok v)
    (hops : ∀ op ∈ p.operations, ∀ w, op.toJson = .ok w → w.depth < v.depth →
      Reads operation op w) : Reads (decoderOf operation) p v := by
  obtain ⟨vs, hvs, written, hwritten, rfl⟩ := toJson_eq_ok_iff.1 h
  have hmoments : List.Forall₂ (Reads (Moment.decoderOf operation)) p.moments vs := by
    refine forall₂_imp_of_mem hvs fun m hm u hu hmu => ?_
    refine Moment.reads_of (wellFormed_iff.1 hp m hm) hmu fun op hop w hopw hw => ?_
    refine hops op (List.mem_flatMap.2 ⟨m, hm, hop⟩) w hopw ?_
    calc w.depth < u.depth := hw
      _ < (Json.array vs).depth := Json.depth_lt_array hu
      _ < _ := Json.depth_lt_first
  obtain ⟨moments, tags⟩ := p
  exact .record (t := (moments, tags, ())) (.given (.list hmoments)
    (.given (Tag.reads_list hwritten) .nil)) (by decide : ["moments", "tags"].Nodup)

/-! ## From the action to the operation -/

/-- The check of what is read for a well-formed operation gives the operation. -/
theorem Operation.ofParts_eq_ok {action : Action} {qubits : List Qubit} {tags : List Tag}
    (h : (Operation.mk action qubits tags).WellFormed) :
    ofParts action qubits tags = .ok ⟨action, qubits, tags⟩ := by
  cases h with
  | gate count distinct =>
    exact bind_eq_ok_iff.2 ⟨_, ofGate_eq_ok_iff.2 ⟨count, distinct, rfl⟩, rfl⟩
  | measure distinct | reset distinct | guarded _ distinct =>
    simp only [ofParts]
    exact bind_eq_ok_iff.2 ⟨(), checkDistinct_eq_ok_iff.2 distinct, rfl⟩
  | call => rfl

/-- An operation is read if its action is. -/
theorem Operation.reads_of {action : Action} {qubits : List Qubit} {tags : List Tag} {v : Json}
    (hwf : (Operation.mk action qubits tags).WellFormed)
    (h : (Operation.mk action qubits tags).toJson = .ok v)
    (haction : ∀ kind, action.toJson = .ok kind → kind.depth < v.depth →
      Reads (Action.decoderOf operation) action kind) :
    Reads (decoderOf operation) ⟨action, qubits, tags⟩ v := by
  obtain ⟨kind, hkind, written, hwritten, rfl⟩ := toJson_eq_ok_iff.1 h
  refine .validated (.record (t := (action, qubits, tags, ())) ?_
    (by decide : ["kind", "qubits", "tags"].Nodup)) (ofParts_eq_ok hwf)
  refine .given (haction kind hkind Json.depth_lt_first) (.given (.ofList fun q _ => q.reads) ?_)
  cases tags with
  | nil => exact .left .nil
  | cons t tags => exact .given (Tag.reads_list hwritten) .nil

theorem Operation.depth_pos {op : Operation} {v : Json} (h : op.toJson = .ok v) : 0 < v.depth := by
  obtain ⟨action, qubits, tags⟩ := op
  obtain ⟨kind, -, written, -, rfl⟩ := toJson_eq_ok_iff.1 h
  exact Nat.zero_lt_of_lt Json.depth_lt_first

namespace Action

variable {v : Json}

theorem reads_gate {g : Gate} (hfloats : ∀ x ∈ g.floats, x.isFinite = true)
    (h : (gate g).toJson = .ok v) : Reads (decoderOf operation) (.gate g) v := by
  obtain rfl := Except.ok.inj h
  exact .variant rfl (.map (Gate.reads hfloats))

theorem reads_measure {key : String} (h : (measure key).toJson = .ok v) :
    Reads (decoderOf operation) (.measure key) v := by
  obtain rfl := Except.ok.inj h
  refine .variant rfl (.caseFields (t := (key, ())) ?_ (by decide))
  exact .given (.text key) .nil

theorem reads_reset (h : reset.toJson = .ok v) : Reads (decoderOf operation) .reset v := by
  obtain rfl := Except.ok.inj h
  exact .unit rfl

/-- A call is read if its program is. -/
theorem reads_call {c : Call} (hwf : c.WellFormed)
    (hfloats : ∀ x ∈ c.settings.bindings.toList.flatMap fun e => e.2.floats, x.isFinite = true)
    (h : (call c).toJson = .ok v)
    (hprogram : ∀ w, c.program.toJson = .ok w → w.depth < v.depth →
      Reads (Program.decoderOf operation) c.program w) :
    Reads (decoderOf operation) (.call c) v := by
  obtain ⟨program, hwritten, rfl⟩ := toJson_call_eq_ok_iff.1 h
  have hdepth : program.depth <
      (Json.variant "SubProgram" (.object (("program", program) :: c.settings.members))).depth :=
    Json.depth_lt_first.trans Json.depth_lt_first
  have hdraft := CallSettings.reads_draft (hprogram program hwritten hdepth) hfloats
  exact .variant rfl (.map (.validated hdraft (Call.build_draft hwf)))

/-- A guarded operation is read if the operation is. -/
theorem reads_guarded {op : Operation} {conditions : List Condition}
    (h : (guarded op conditions).toJson = .ok v)
    (hop : ∀ w, op.toJson = .ok w → w.depth < v.depth → Reads operation op w) :
    Reads (decoderOf operation) (.guarded op conditions) v := by
  obtain ⟨w, hw, rfl⟩ := toJson_guarded_eq_ok_iff.1 h
  refine .variant rfl (.caseFields (t := (op, conditions, ())) ?_ ?_)
  · have hread : Reads operation op w := hop w hw (Json.depth_lt_first.trans Json.depth_lt_first)
    exact .given hread (.given (.ofList fun c _ => c.reads) .nil)
  · exact (by decide : ["operation", "conditions"].Nodup)

end Action

end

/-! ## The round trip -/

/-- **An operation is read back**, with as many unfoldings as its value has
    arrays and objects inside each other. -/
theorem Operation.reads_unfolded {op : Operation} (hwf : op.WellFormed)
    (hfloats : ∀ x ∈ op.floatsWithin, x.isFinite = true) {v : Json} (h : op.toJson = .ok v) :
    ∀ depth, v.depth ≤ depth → Reads (unfolded decoderOf depth) op v := by
  -- Each unfolding reads the action, and leaves one less for the operations inside,
  -- whose values have less depth.
  induction op using Operation.nestingInduction generalizing v with
  | gate g qubits tags =>
    rw [floatsWithin_gate] at hfloats
    refine .unfolded_of_pos (depth_pos h) fun depth hdepth => reads_of hwf h fun kind hkind _ => ?_
    exact Action.reads_gate hfloats hkind
  | measure key qubits tags =>
    refine .unfolded_of_pos (depth_pos h) fun depth hdepth => reads_of hwf h fun kind hkind _ => ?_
    exact Action.reads_measure hkind
  | reset qubits tags =>
    refine .unfolded_of_pos (depth_pos h) fun depth hdepth => reads_of hwf h fun kind hkind _ => ?_
    exact Action.reads_reset hkind
  | call c qubits tags ih =>
    rw [floatsWithin_call, List.forall_mem_append, Program.floatsWithin, Program.flatMap_parts]
      at hfloats
    obtain ⟨hbindings, hinside⟩ := hfloats
    have hc : c.WellFormed := hwf.callee
    refine .unfolded_of_pos (depth_pos h) fun depth hdepth => reads_of hwf h fun kind hkind hlt => ?_
    refine Action.reads_call hc hbindings hkind fun program hprogram hprogramLt => ?_
    refine Program.reads_of hc.program hprogram fun op hop w hw hwLt => ?_
    have hopFloats : ∀ x ∈ op.floatsWithin, x.isFinite = true := fun x hx =>
      hinside x (List.mem_flatMap.2 ⟨op, hop, hx⟩)
    exact ih op hop (hc.program.operations op hop) hopFloats hw depth (by omega)
  | guarded op conditions qubits tags ih =>
    rw [floatsWithin_guarded] at hfloats
    refine .unfolded_of_pos (depth_pos h) fun depth hdepth => reads_of hwf h fun kind hkind hlt => ?_
    refine Action.reads_guarded hkind fun w hw hwLt => ?_
    exact ih hwf.guardedInner hfloats hw depth (by omega)

/-- **A program is read back.** -/
theorem Program.reads {p : Program} (hp : p.WellFormed)
    (hfloats : ∀ x ∈ p.floatsWithin, x.isFinite = true) {v : Json} (h : p.toJson = .ok v) :
    Reads decoder p v := by
  rw [floatsWithin, flatMap_parts] at hfloats
  refine reads_of hp h fun op hop w hw _ => .recursive ?_
  have hopFloats : ∀ x ∈ op.floatsWithin, x.isFinite = true := fun x hx =>
    hfloats x (List.mem_flatMap.2 ⟨op, hop, hx⟩)
  exact Operation.reads_unfolded (hp.operations op hop) hopFloats hw

/-- **A program that could be built is persisted and read back**, if its tags have
    a persisted form and its floats are finite: from the value that is written,
    and from its text as well if the text has room for the value and gives its
    document again. -/
theorem Program.ofJson_toJson {p : Program} (hp : Built (.program p))
    (htags : ∀ t ∈ p.tagsWithin, t.isPersistable = true)
    (hfloats : ∀ x ∈ p.floatsWithin, x.isFinite = true) :
    ∃ v, p.toJson = .ok v ∧ p.persist? = .ok v.render ∧
      (∃ q, decoder.ofJson v = .ok q ∧ q = p ∧ (q == p) = true) ∧
      (v.depth ≤ Decoder.depthLimit → Document.ofText v.render = (.ofJson v, false) →
        ofText v.render = .ok p) := by
  obtain ⟨v, hv⟩ := exists_toJson htags
  have hread : Reads decoder p v := reads hp.wellFormed hfloats hv
  refine ⟨v, hv, ?_, ⟨p, hread.ofJson_eq, rfl, beq_self_eq_true p⟩,
    fun hdepth hdocument => hread.ofTextIn_eq (T := .compact) hdepth hdocument⟩
  have hnone : p.firstAttachment? = none :=
    p.firstAttachment?_eq.trans (firstAttached?_eq_none_iff.2 htags)
  rw [persist?, persistIn?, hnone, hv]
  rfl

/-- A loop with a guarded gate, called with ids, renamings, a bound symbol and a
    condition to end. -/
def turnedLoop : CallDraft where
  program := ⟨[⟨[⟨.measure "m", [.line 0], []⟩]⟩,
    ⟨[⟨.guarded ⟨.gate (.standard (.rx (.mul (.symbol "t") (.constant 0.25)))), [.line 1], []⟩
      [.key "m"], [.line 1], [.int 3]⟩]⟩], [.name "loop"]⟩
  repetitionIds := some ["a"]
  qubitMap := .ofList [(.line 1, .grid 0 2)]
  keyMap := .ofList [("m", "n")]
  bindings := .ofList [(.symbol "t", .float 0.5)]
  useIds := some false
  repeatUntil := some (.key "n")

theorem built_turnedLoop : Built (.program turnedLoop.program) := by
  have hmeasure : Built (.operation ⟨.measure "m", [.line 0], []⟩) :=
    .measure (Operation.measure_eq_ok_iff.2 ⟨by decide, rfl⟩)
  have hgate : Built (.operation
      ⟨.gate (.standard (.rx (.mul (.symbol "t") (.constant 0.25)))), [.line 1], []⟩) :=
    .gate (Operation.ofGate_eq_ok_iff.2 ⟨rfl, by decide, rfl⟩)
  have hguarded := hgate.withConditions [.key "m"] |>.withTags [.int 3]
  refine .ofMoments (List.forall_mem_cons.2 ⟨?_, List.forall_mem_singleton.2 ?_⟩) _
  · exact .ofOperations (List.forall_mem_singleton.2 hmeasure) rfl
  · exact .ofOperations (List.forall_mem_singleton.2 hguarded) rfl

/-- The call comes back from its value, and the loop from its text. -/
theorem Program.ofJson_toJson_turnedLoop :
    (∃ v, toJson ⟨[⟨[.ofCall turnedLoop.call]⟩], []⟩ = .ok v ∧
      decoder.ofJson v = .ok ⟨[⟨[.ofCall turnedLoop.call]⟩], []⟩) ∧
    ∃ s, turnedLoop.program.persist? = .ok s ∧ ofText s = .ok turnedLoop.program := by
  have hcall : Built (.program ⟨[⟨[.ofCall turnedLoop.call]⟩], []⟩) :=
    .ofMoments (List.forall_mem_singleton.2 (.ofOperations
      (List.forall_mem_singleton.2 (.call (.build built_turnedLoop rfl))) rfl)) []
  obtain ⟨v, hv, -, ⟨_, hread, rfl, -⟩, -⟩ := ofJson_toJson hcall (by decide) (by decide)
  obtain ⟨w, hw, hpersist, -, htext⟩ := ofJson_toJson built_turnedLoop (by decide) (by decide)
  obtain rfl := Except.ok.inj hw
  refine ⟨⟨v, hv, hread⟩, _, hpersist, htext (by decide) ?_⟩
  exact Document.ofText_eq_of_isOf (by decide +kernel)

end QuantumProgram
