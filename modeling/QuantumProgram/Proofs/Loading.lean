/-
  QuantumProgram — which persisted programs are loaded again.

  Writing a program looks at its tags only.  In every lawful format the text that
  is written is read as the program again exactly if every float of the program is
  restored from its own text, and no more arrays and objects are inside each other
  than a reader opens (`Program.ofText_persist_iff`).
-/
import QuantumProgram.Proofs.DemandingParts
import QuantumProgram.Proofs.Legibility
import QuantumProgram.Proofs.RoundTrip

namespace QuantumProgram

open Decoder (Demands Inner)

variable {T : JsonFormat}

/-! ## Calls -/

/-- Entries with the keys of a map are the entries of a map. -/
theorem SortedMap.toList_ofList {κ ν : Type} [Ord κ] [Std.TransOrd κ] [Std.LawfulEqOrd κ]
    {m : SortedMap κ ν} {l : List (κ × ν)} (h : l.map (·.1) = m.toList.map (·.1)) :
    (ofList l).toList = l := by
  have hsorted : l.Pairwise fun a b => compare a.1 b.1 = .lt := by
    have hkeys : (m.toList.map (·.1)).Pairwise fun k k' => compare k k' = .lt :=
      List.pairwise_map.2 m.sorted
    exact List.pairwise_map.1 (h ▸ hkeys)
  exact congrArg toList (ofList_toList ⟨l, hsorted⟩)

theorem CallSettings.restored_of_sameBindings {l l' : List (BindingKey × BindingValue)}
    (h : List.Forall₂ (fun e e' => e'.1 = e.1 ∧
      ((e'.2 == e.2) = true → ∀ x ∈ e.2.floats, T.Restores x)) l l')
    (hsame : sameBindings l' l = true) : ∀ x ∈ l.flatMap fun e => e.2.floats, T.Restores x := by
  induction h with
  | nil => exact nofun
  | cons he _ ih =>
    simp only [sameBindings, Bool.and_eq_true] at hsame
    exact List.forall_mem_append.2 ⟨he.2 hsame.1.2, ih hsame.2⟩

/-- Settings that were read with these bindings, and are equal, show that the floats
    of the bindings are restored. -/
theorem CallSettings.restored_of_beq {s s' : CallSettings}
    {bindings : List (BindingKey × BindingValue)}
    (h : List.Forall₂ (fun e e' => e'.1 = e.1 ∧
      ((e'.2 == e.2) = true → ∀ x ∈ e.2.floats, T.Restores x)) s.bindings.toList bindings)
    (hread : s'.bindings = .ofList bindings) (hsame : (s' == s) = true) :
    ∀ x ∈ s.bindings.toList.flatMap fun e => e.2.floats, T.Restores x := by
  -- the keys come back as they were, so that no entry is moved or dropped
  have hkeys : bindings.map (·.1) = s.bindings.toList.map (·.1) := by
    rw [map_eq_map_iff_forall₂]
    exact h.flip.imp fun _ _ he => he.1
  have hlist : s'.bindings.toList = bindings := by
    rw [hread, SortedMap.toList_ofList hkeys]
  change CallSettings.beq s' s = true at hsame
  simp only [CallSettings.beq, Bool.and_eq_true, hlist] at hsame
  exact restored_of_sameBindings h hsame.1.1.2

/-- What is read for a call with equal settings shows that the floats of its
    bindings are restored. -/
theorem CallSettings.demands [T.Lawful] {program : Decoder Program} {v : Json} {P : Program → Prop}
    (hp : Demands T program v P) (s : CallSettings) :
    Demands T (CallDraft.decoder program) (.object (("program", v) :: s.members)) fun d =>
      P d.program ∧ ((d.call.settings == s) = true →
        ∀ x ∈ s.bindings.toList.flatMap fun e => e.2.floats, T.Restores x) := by
  have htexts (ids : List String) : Demands T (.list .text) (.ofList .string ids) fun _ => True :=
    .room (.ofList fun id _ => .text id)
  have hqubits : Demands T (.list (.pair Qubit.decoder Qubit.decoder))
      (.ofList (fun e => .pair e.1.toJson e.2.toJson) s.qubitMap.toList) fun _ => True :=
    .room (.ofList fun e _ => .pair e.1.demands e.2.demands)
  have hkeys : Demands T (.list (.pair .text .text))
      (.ofList (fun e => .pair (.string e.1) (.string e.2)) s.keyMap.toList) fun _ => True :=
    .room (.ofList fun e _ => .pair (.text e.1) (.text e.2))
  have hbindings : Demands T (.list (.pair BindingKey.decoder BindingValue.decoder))
      (.ofList (fun e => .pair e.1.toJson e.2.toJson) s.bindings.toList)
      (List.Forall₂ (fun e e' => e'.1 = e.1 ∧
        ((e'.2 == e.2) = true → ∀ x ∈ e.2.floats, T.Restores x)) s.bindings.toList) :=
    .ofList fun e _ => .pair e.1.demands e.2.demands
  rw [members, List.append_assoc, List.append_assoc]
  refine .record (.given hp (.given (.int64 _) (.optional htexts (.given hqubits (.given hkeys
    (.given hbindings (.given (.bool _) (.optional_last Condition.demands))))))))
    (by decide : ["program", "repetitions", "repetition_ids", "qubit_map", "measurement_key_map",
      "param_map", "use_repetition_ids", "repeat_until"].Nodup) ?_
  rintro ⟨p, repetitions, ids, qubits, keys, bindings, t⟩ ⟨hP, -, -, -, h, -⟩
  exact ⟨hP, fun hsame => restored_of_beq h rfl hsame⟩

/-! ## From the operations to the program -/

section
variable {operation : Decoder Operation} {C : Operation → Prop}

theorem forall_of_sameOperations {ops ops' : List Operation}
    (h : List.Forall₂ (fun op op' => op'.beq op = true → C op) ops ops')
    (hsame : sameOperations ops' ops = true) : ∀ op ∈ ops, C op := by
  induction h with
  | nil => exact nofun
  | cons hop _ ih =>
    rw [sameOperations, Bool.and_eq_true] at hsame
    exact List.forall_mem_cons.2 ⟨hop hsame.1, ih hsame.2⟩

theorem forall_of_sameMoments {moments moments' : List Moment}
    (h : List.Forall₂ (fun m m' => m'.beq m = true → ∀ op ∈ m.operations, C op) moments moments')
    (hsame : sameMoments moments' moments = true) :
    ∀ op ∈ moments.flatMap Moment.operations, C op := by
  induction h with
  | nil => exact nofun
  | @cons m m' _ _ hm _ ih =>
    obtain ⟨ops⟩ := m
    obtain ⟨ops'⟩ := m'
    rw [sameMoments, Bool.and_eq_true] at hsame
    exact List.forall_mem_append.2 ⟨hm hsame.1, ih hsame.2⟩

/-- What equal operations show of the operations of a moment. -/
theorem Moment.demands_of {m : Moment} {v : Json} (h : m.toJson = .ok v)
    (hops : ∀ op ∈ m.operations, ∀ w, op.toJson = .ok w →
      Demands T operation w fun op' => op'.beq op = true → C op) :
    Demands T (decoderOf operation) v fun m' => m'.beq m = true → ∀ op ∈ m.operations, C op := by
  obtain ⟨vs, hvs, rfl⟩ := toJson_eq_ok_iff.1 h
  have hlist := Demands.list (forall₂_imp_of_mem hvs fun op hop w _ hw => hops op hop w hw)
  refine .validated hlist fun ops' m' hm' hops' hsame => ?_
  obtain ⟨-, rfl⟩ := ofOperations_eq_ok_iff.1 hm'
  exact forall_of_sameOperations hops' hsame

theorem Tag.demands_list {tags : List Tag} {v : Json} (h : listToJson tags = .ok v) :
    Demands T (.list decoder) v fun _ => True := by
  obtain ⟨vs, hvs, rfl⟩ := listToJson_eq_ok_iff.1 h
  exact .room (.list (hvs.imp fun _ _ => Tag.demands))

/-- What equal operations show of the operations of a program. -/
theorem Program.demands_of {p : Program} {v : Json} (h : p.toJson = .ok v)
    (hops : ∀ op ∈ p.operations, ∀ w, op.toJson = .ok w →
      Demands T operation w fun op' => op'.beq op = true → C op) :
    Demands T (decoderOf operation) v fun q => (q == p) = true → ∀ op ∈ p.operations, C op := by
  obtain ⟨vs, hvs, written, hwritten, rfl⟩ := toJson_eq_ok_iff.1 h
  have hmoments := Demands.list (forall₂_imp_of_mem hvs fun m hm w _ hw =>
    Moment.demands_of hw fun op hop => hops op (List.mem_flatMap.2 ⟨m, hm, hop⟩))
  refine .record (.given hmoments (.given (Tag.demands_list hwritten) .nil))
    (by decide : ["moments", "tags"].Nodup) fun t ht hsame => ?_
  exact forall_of_sameMoments ht.1 (beq_iff.1 hsame).1

/-! ## From the action to the operation -/

/-- The check of what is read for an operation leaves the action. -/
theorem Operation.action_ofParts {action : Action} {qubits : List Qubit} {tags : List Tag}
    {op : Operation} (h : ofParts action qubits tags = .ok op) : op.action = action := by
  cases action with
  | gate g =>
    obtain ⟨_, hop', h⟩ := bind_eq_ok_iff.1 h
    obtain ⟨-, -, rfl⟩ := ofGate_eq_ok_iff.1 hop'
    exact Except.ok.inj h ▸ rfl
  | call c => exact Except.ok.inj h ▸ rfl
  | measure | reset | guarded =>
    obtain ⟨_, -, h⟩ := bind_eq_ok_iff.1 h
    exact Except.ok.inj h ▸ rfl

variable {D : Prop}

/-- What an equal action shows is shown by an equal operation. -/
theorem Operation.demands_of {action : Action} {qubits : List Qubit} {tags : List Tag} {v : Json}
    (h : (Operation.mk action qubits tags).toJson = .ok v)
    (haction : ∀ kind, action.toJson = .ok kind →
      Demands T (Action.decoderOf operation) kind fun action' => action'.beq action = true → D) :
    Demands T (decoderOf operation) v fun op' => op'.beq ⟨action, qubits, tags⟩ = true → D := by
  obtain ⟨kind, hkind, written, hwritten, rfl⟩ := toJson_eq_ok_iff.1 h
  have hqubits : Demands T (.list Qubit.decoder) (.ofList Qubit.toJson qubits) fun _ => True :=
    .room (.ofList fun q _ => q.demands)
  have htags : (Decoder.Fields.cons "tags" (.list Tag.decoder) (some []) .nil).Asks T
      (if tags.isEmpty then [] else [("tags", written)]) fun _ => True := by
    split
    · exact .imp (.left .nil) fun _ _ => trivial
    · exact .imp (.given (Tag.demands_list hwritten) .nil) fun _ _ => trivial
  refine .validated (P := fun t => (t.1.beq action = true → D) ∧ True ∧ True)
    (.record (.given (haction kind hkind) (.given hqubits htags))
      (by decide : ["kind", "qubits", "tags"].Nodup) fun _ ht => ht) ?_
  rintro ⟨action', qubits', tags', _⟩ ⟨_, _, _⟩ hop ⟨hD, -⟩ hsame
  obtain rfl := action_ofParts hop
  exact hD (beq_iff.1 hsame).1

namespace Action

variable {v : Json}

theorem demands_gate [T.Lawful] {g : Gate} (h : (gate g).toJson = .ok v) :
    Demands T (decoderOf operation) v fun action => action.beq (.gate g) = true →
      ∀ x ∈ g.floats, T.Restores x := by
  obtain rfl := Except.ok.inj h
  exact .variant rfl (.map g.demands fun _ hg => hg)

theorem demands_measure {key : String} (h : (measure key).toJson = .ok v) :
    Demands T (decoderOf operation) v fun _ => True := by
  obtain rfl := Except.ok.inj h
  refine .variant rfl (.caseFields (.given (.text key) .nil) ?_ fun _ _ => trivial)
  exact (by decide : ["key"].Nodup)

theorem demands_reset (h : reset.toJson = .ok v) :
    Demands T (decoderOf operation) v fun _ => True := by
  obtain rfl := Except.ok.inj h
  exact .room (.unit rfl)

/-- An equal call shows that the floats of its bindings are restored, and what an
    equal program shows. -/
theorem demands_call [T.Lawful] {c : Call} (h : (call c).toJson = .ok v)
    (hprogram : ∀ w, c.program.toJson = .ok w →
      Demands T (Program.decoderOf operation) w fun q => (q == c.program) = true → D) :
    Demands T (decoderOf operation) v fun action => action.beq (.call c) = true →
      (∀ x ∈ c.settings.bindings.toList.flatMap fun e => e.2.floats, T.Restores x) ∧ D := by
  obtain ⟨program, hwritten, rfl⟩ := toJson_call_eq_ok_iff.1 h
  have hdraft := CallSettings.demands (hprogram program hwritten) c.settings
  refine .variant rfl (.map (.validated hdraft fun d c' hbuild hd => ?_) fun _ hc => hc)
  intro hsame
  obtain ⟨-, rfl⟩ := Call.checked_eq_ok_iff.1 hbuild
  obtain ⟨hsameProgram, hsettings⟩ := Call.beq_iff.1 (beq_call_iff.1 hsame)
  exact ⟨hd.2 hsettings, hd.1 hsameProgram⟩

/-- An equal guarded operation shows what an equal operation shows. -/
theorem demands_guarded {op : Operation} {conditions : List Condition}
    (h : (guarded op conditions).toJson = .ok v)
    (hop : ∀ w, op.toJson = .ok w → Demands T operation w fun op' => op'.beq op = true → D) :
    Demands T (decoderOf operation) v fun action =>
      action.beq (.guarded op conditions) = true → D := by
  obtain ⟨w, hw, rfl⟩ := toJson_guarded_eq_ok_iff.1 h
  have hconditions : Demands T (.list Condition.decoder) (.ofList Condition.toJson conditions)
      fun _ => True := .room (.ofList fun c _ => c.demands)
  refine .variant rfl (.caseFields (.given (hop w hw) (.given hconditions .nil))
    (by decide : ["operation", "conditions"].Nodup) fun t ht hsame => ?_)
  rw [Action.beq, Bool.and_eq_true] at hsame
  exact ht.1 hsame.1

end Action

end

/-! ## Whole programs -/

theorem Program.persistIn?_eq_ok_iff {p : Program} {s : String} : p.persistIn? T = .ok s ↔
    (∀ t ∈ p.tagsWithin, t.isPersistable = true) ∧ ∃ v, p.toJson = .ok v ∧ T.write v = s := by
  rw [← firstAttached?_eq_none_iff, ← firstAttachment?_eq, persistIn?]
  split
  · next heq => simp [heq]
  · next heq => simp only [heq, mapError_eq_ok_iff, map_eq_ok_iff, true_and]

variable [T.Lawful]

/-- What is read for an operation and is equal to it shows that all floats inside
    are restored. -/
theorem Operation.demands_inner {op : Operation} {v : Json} (h : op.toJson = .ok v) :
    ∀ inner, Inner decoderOf inner →
      Demands T inner v fun op' => op'.beq op = true → ∀ x ∈ op.floatsWithin, T.Restores x := by
  -- Every inner decoder is a step of another one, so no unfoldings are counted: where
  -- none is left there is nothing to show.
  induction op using Operation.nestingInduction generalizing v with
  | gate g qubits tags =>
    rw [floatsWithin_gate]
    exact .inner fun inner _ => demands_of h fun kind hkind => Action.demands_gate hkind
  | measure key qubits tags =>
    refine .inner fun inner _ => demands_of h fun kind hkind => ?_
    exact .imp (Action.demands_measure hkind) fun _ _ _ => nofun
  | reset qubits tags =>
    refine .inner fun inner _ => demands_of h fun kind hkind => ?_
    exact .imp (Action.demands_reset hkind) fun _ _ _ => nofun
  | call c qubits tags ih =>
    rw [floatsWithin_call, Program.floatsWithin, Program.flatMap_parts]
    refine .inner fun inner hinner => demands_of h fun kind hkind => ?_
    refine .imp (Action.demands_call hkind fun w hw => Program.demands_of hw fun op hop w hw =>
      ih op hop hw inner hinner) fun action haction hsame => ?_
    obtain ⟨hbindings, hinside⟩ := haction hsame
    exact List.forall_mem_append.2 ⟨hbindings, List.forall_mem_flatMap.2 hinside⟩
  | guarded op conditions qubits tags ih =>
    rw [floatsWithin_guarded]
    refine .inner fun inner hinner => demands_of h fun kind hkind => ?_
    exact Action.demands_guarded hkind fun w hw => ih hw inner hinner

/-- **A program that is read from the text of an equal one shows that all floats of
    that one are restored.** -/
theorem Program.demands {p : Program} {v : Json} (h : p.toJson = .ok v) :
    Demands T decoder v fun q => (q == p) = true → ∀ x ∈ p.floatsWithin, T.Restores x := by
  rw [floatsWithin, flatMap_parts]
  refine .imp (demands_of h fun op _ w hw => .recursive (Operation.demands_inner hw)) ?_
  exact fun q hq hsame => List.forall_mem_flatMap.2 (hq hsame)

/-- A program whose floats are restored is read from its text if there is room. -/
theorem Program.ofTextIn_write {p : Program} (hp : p.WellFormed)
    (hfloats : ∀ x ∈ p.floatsWithin, T.Restores x) {v : Json} (h : p.toJson = .ok v)
    (hdepth : v.depth ≤ T.room) : ofTextIn T (T.write v) = .ok p := by
  have hfinite : v.Legible fun x => x.isFinite = true := legible (fun _ _ hx => hx) h
  have hrestored : v.Legible T.Restores := legible (fun x hx _ => hfloats x hx) h
  refine (reads hp (fun x hx => (hfloats x hx).isFinite) h).ofTextIn_eq hdepth ?_
  rw [JsonFormat.Lawful.read_write hfinite, hrestored.reread_eq fun _ hx => hx.float_eq]

/-- What is read from the text of a program and is equal to it takes no more room
    than there is, and has the floats of the program. -/
theorem Program.of_ofTextIn_write {p q : Program} {v : Json} (h : p.toJson = .ok v)
    (hq : ofTextIn T (T.write v) = .ok q) (hsame : (q == p) = true) :
    v.depth ≤ T.room ∧ ∀ x ∈ p.floatsWithin, T.Restores x := by
  have hfinite : v.Legible fun x => x.isFinite = true := legible (fun _ _ hx => hx) h
  have hread := (demands h).of_ofTextIn (JsonFormat.Lawful.read_write hfinite) hq
  exact hread.imp_right fun hfloats => hfloats hsame

/-- **Which programs are persisted, and which of these are loaded**, in every lawful
    format.  Every program is persisted whose tags have a persisted form.  An equal
    program is loaded from the text exactly if all floats are restored from their own
    texts and no more arrays and objects are inside each other than a reader opens;
    it is then the same program. -/
theorem Program.ofText_persist_iff {p : Program} (hp : Built (.program p)) :
    ((∃ s, p.persistIn? T = .ok s) ↔ ∀ t ∈ p.tagsWithin, t.isPersistable = true) ∧
    ∀ s, p.persistIn? T = .ok s →
      ((∃ q, ofTextIn T s = .ok q ∧ (q == p) = true) ↔ ofTextIn T s = .ok p) ∧
      (ofTextIn T s = .ok p ↔ (∀ x ∈ p.floatsWithin, T.Restores x) ∧
        ∃ v, p.toJson = .ok v ∧ v.depth ≤ T.room) := by
  refine ⟨⟨?_, fun htags => ?_⟩, fun s hs => ?_⟩
  · rintro ⟨s, hs⟩
    exact (persistIn?_eq_ok_iff.1 hs).1
  · obtain ⟨v, hv⟩ := exists_toJson htags
    exact ⟨_, persistIn?_eq_ok_iff.2 ⟨htags, v, hv, rfl⟩⟩
  · obtain ⟨-, v, hv, rfl⟩ := persistIn?_eq_ok_iff.1 hs
    have hloaded {q : Program} (hq : ofTextIn T (T.write v) = .ok q) (hsame : (q == p) = true) :
        v.depth ≤ T.room ∧ ∀ x ∈ p.floatsWithin, T.Restores x :=
      of_ofTextIn_write hv hq hsame
    refine ⟨⟨?_, fun h => ⟨p, h, beq_self_eq_true p⟩⟩, fun h => ?_, ?_⟩
    · rintro ⟨q, hq, hsame⟩
      obtain ⟨hdepth, hfloats⟩ := hloaded hq hsame
      exact ofTextIn_write hp.wellFormed hfloats hv hdepth
    · obtain ⟨hdepth, hfloats⟩ := hloaded h (beq_self_eq_true p)
      exact ⟨hfloats, v, hv, hdepth⟩
    · rintro ⟨hfloats, w, hw, hdepth⟩
      obtain rfl := Except.ok.inj (hv.symm.trans hw)
      exact ofTextIn_write hp.wellFormed hfloats hv hdepth

/-- The loop is loaded again. -/
theorem Program.ofText_persist_turnedLoop :
    ∃ s, turnedLoop.program.persist? = .ok s ∧ ofText s = .ok turnedLoop.program := by
  obtain ⟨hpersist, hload⟩ := ofText_persist_iff (T := .compact) built_turnedLoop
  obtain ⟨s, hs⟩ := hpersist.2 (by decide)
  exact ⟨s, hs, (hload s hs).2.2 ⟨by decide +kernel, _, rfl, by decide +kernel⟩⟩

/-! ## Programs that are lost -/

/-- One qubit turned by an angle. -/
def turn (angle : Expr) : Program := ⟨[⟨[⟨.gate (.standard (.rx angle)), [.line 0], []⟩]⟩], []⟩

theorem built_turn (angle : Expr) : Built (.program (turn angle)) := by
  have hgate : Built (.operation ⟨.gate (.standard (.rx angle)), [.line 0], []⟩) :=
    .gate (Operation.ofGate_eq_ok_iff.2 ⟨rfl, by decide, rfl⟩)
  exact .ofMoments (List.forall_mem_singleton.2
    (.ofOperations (List.forall_mem_singleton.2 hgate) rfl)) []

theorem Program.tagsWithin_turn (angle : Expr) : (turn angle).tagsWithin = [] := rfl

theorem Program.floatsWithin_turn (angle : Expr) : (turn angle).floatsWithin = angle.floats := by
  rw [floatsWithin, flatMap_parts]
  show [Operation.mk (.gate (.standard (.rx angle))) _ _].flatMap Operation.floatsWithin = _
  rw [List.flatMap_singleton, Operation.floatsWithin_gate]
  exact List.flatMap_singleton ..

/-- **A program is persisted that cannot be loaded**: the angle is no number, and
    `null` is written for it. -/
theorem Program.persisted_not_loaded :
    Built (.program (turn (.constant (0.0 / 0.0)))) ∧
    ∃ s, (turn (.constant (0.0 / 0.0))).persist? = .ok s ∧
      ¬ ∃ q, ofText s = .ok q ∧ (q == turn (.constant (0.0 / 0.0))) = true := by
  refine ⟨built_turn _, _, persistIn?_eq_ok_iff.2 ⟨nofun, _, rfl, rfl⟩, ?_⟩
  rintro ⟨q, hq, hsame⟩
  have hfloats : ∀ x ∈ (turn (.constant (0.0 / 0.0))).floatsWithin,
      JsonFormat.compact.Restores x := (of_ofTextIn_write rfl hq hsame).2
  rw [floatsWithin_turn] at hfloats
  have hrestored : JsonFormat.compact.Restores (0.0 / 0.0) := hfloats _ List.mem_cons_self
  exact absurd hrestored.isFinite (by decide)

/-- π with its sign changed `n` times. -/
def Expr.signed : ℕ → Expr
  | 0 => pi
  | n + 1 => neg (signed n)

theorem Expr.depth_signed (n : ℕ) : (signed n).toJson.depth = n := by
  induction n with
  | zero => rfl
  | succ n ih => rw [signed, toJson, Json.depth_variant, ih]

theorem Expr.floats_signed (n : ℕ) : (signed n).floats = [] := by
  induction n with
  | zero => rfl
  | succ n ih => exact ih

/-- **A program without floats is lost if its angle is nested too deep**: beside the
    angle, seven arrays and objects are inside each other. -/
theorem Program.ofText_turn_signed_iff (n : ℕ) : ∃ s, (turn (.signed n)).persistIn? T = .ok s ∧
    (ofTextIn T s = .ok (turn (.signed n)) ↔ n + 7 ≤ T.room) := by
  obtain ⟨v, hv, hdepth⟩ : ∃ v, (turn (.signed n)).toJson = .ok v ∧ v.depth = n + 7 := by
    refine ⟨_, rfl, ?_⟩
    simp [Json.depth, Json.membersDepth, Json.itemsDepth, Json.variant, Json.ofList, Json.ofInt64,
      Qubit.toJson, Gate.toJson, StandardGate.toJson, Expr.depth_signed]
  have htags : ∀ t ∈ (turn (.signed n)).tagsWithin, t.isPersistable = true := by
    rw [tagsWithin_turn]
    exact List.forall_mem_nil _
  have hfloats : ∀ x ∈ (turn (.signed n)).floatsWithin, T.Restores x := by
    rw [floatsWithin_turn, Expr.floats_signed]
    exact List.forall_mem_nil _
  refine ⟨T.write v, persistIn?_eq_ok_iff.2 ⟨htags, v, hv, rfl⟩, fun h => ?_, fun h => ?_⟩
  · exact hdepth ▸ (of_ofTextIn_write hv h (beq_self_eq_true _)).1
  · exact ofTextIn_write (built_turn _).wellFormed hfloats hv (by omega)

end QuantumProgram
