/-
  QuantumProgram — the persisted form of programs.

  A program is written as its moments and tags.  Reading checks everything
  again that building checks; the qubits of a call are computed anew, and the
  maps of a call are rebuilt from their entries.  `Program.persist?` looks for
  tags without a persisted form before it writes anything, so that the first
  one in the order of `firstAttachment?` is reported.
-/
import QuantumProgram.Call
import QuantumProgram.Moment
import QuantumProgram.Persisted.Parts

namespace QuantumProgram

open Json (variant)
open Decoder (record variants holding withFields unit)
open Decoder.Fields (cons nil)

/-! ## Writing -/

/-- The members of a call after its program. -/
def CallSettings.members (s : CallSettings) : List (String × Json) :=
  [("repetitions", .ofInt64 s.repetitions)]
    ++ Json.optional "repetition_ids" (.ofList .string) s.repetitionIds
    ++ [("qubit_map", .ofList (fun (q, q') => .pair q.toJson q'.toJson) s.qubitMap.toList),
        ("measurement_key_map",
          .ofList (fun (k, k') => .pair (.string k) (.string k')) s.keyMap.toList),
        ("param_map", .ofList (fun (k, v) => .pair k.toJson v.toJson) s.bindings.toList),
        ("use_repetition_ids", .bool s.useIds)]
    ++ Json.optional "repeat_until" Condition.toJson s.repeatUntil

/-- A program from its written moments. -/
def taggedToJson (moments : List Json) (tags : List Tag) : Encoded Json := do
  return .object [("moments", .array moments), ("tags", ← Tag.listToJson tags)]

mutual

def Operation.toJson : Operation → Encoded Json
  | ⟨action, qubits, tags⟩ => do
    let kind ← action.toJson
    let written ← Tag.listToJson tags
    return .object
      ([("kind", kind), ("qubits", .ofList Qubit.toJson qubits)]
        ++ if tags.isEmpty then [] else [("tags", written)])
termination_by structural op => op

def Action.toJson : Action → Encoded Json
  | .gate g => .ok (variant "Gate" g.toJson)
  | .measure key => .ok (variant "Measure" (.object [("key", .string key)]))
  | .reset => .ok (.string "Reset")
  | .call ⟨⟨moments, tags⟩, settings⟩ => do
    let program ← taggedToJson (← momentsToJson moments) tags
    return variant "SubProgram" (.object (("program", program) :: settings.members))
  | .guarded op conditions => do
    return variant "Controlled" (.object
      [("operation", ← op.toJson), ("conditions", .ofList Condition.toJson conditions)])
termination_by structural a => a

def momentsToJson : List Moment → Encoded (List Json)
  | [] => .ok []
  | ⟨ops⟩ :: rest => do
    let v ← operationsToJson ops
    let vs ← momentsToJson rest
    return .array v :: vs
termination_by structural ms => ms

def operationsToJson : List Operation → Encoded (List Json)
  | [] => .ok []
  | op :: rest => do
    let v ← op.toJson
    let vs ← operationsToJson rest
    return v :: vs
termination_by structural ops => ops

end

def Moment.toJson (m : Moment) : Encoded Json := do
  return .array (← operationsToJson m.operations)

def Program.toJson (p : Program) : Encoded Json := do
  taggedToJson (← momentsToJson p.moments) p.tags

/-! ## Tags without a persisted form -/

/-- The first of some tags that has no persisted form. -/
def firstAttached? (tags : List Tag) : Option Tag := tags.find? fun t => !t.isPersistable

mutual

/-- The first tag without a persisted form: the operation's own tags before
    those of what it guards or calls. -/
def Operation.firstAttachment? : Operation → Option Tag
  | ⟨action, _, tags⟩ => firstAttached? tags <|> action.firstAttachment?
termination_by structural op => op

def Action.firstAttachment? : Action → Option Tag
  | .gate _ => none
  | .measure _ => none
  | .reset => none
  | .call ⟨⟨moments, tags⟩, _⟩ => firstAttached? tags <|> momentsFirstAttachment? moments
  | .guarded op _ => op.firstAttachment?
termination_by structural a => a

def momentsFirstAttachment? : List Moment → Option Tag
  | [] => none
  | ⟨ops⟩ :: rest => operationsFirstAttachment? ops <|> momentsFirstAttachment? rest
termination_by structural ms => ms

def operationsFirstAttachment? : List Operation → Option Tag
  | [] => none
  | op :: rest => op.firstAttachment? <|> operationsFirstAttachment? rest
termination_by structural ops => ops

end

/-- The first tag of a program without a persisted form: the program's tags
    first, then the operations in time order. -/
def Program.firstAttachment? (p : Program) : Option Tag :=
  firstAttached? p.tags <|> momentsFirstAttachment? p.moments

/-! ## Reading -/

def CallDraft.decoder (program : Decoder Program) : Decoder CallDraft :=
  record
    (cons "program" program none
      (cons "repetitions" .int64 none
        (cons "repetition_ids" (.option (.list .text)) (some none)
          (cons "qubit_map" (.list (.pair Qubit.decoder Qubit.decoder)) (some [])
            (cons "measurement_key_map" (.list (.pair .text .text)) (some [])
              (cons "param_map" (.list (.pair BindingKey.decoder BindingValue.decoder)) (some [])
                (cons "use_repetition_ids" .bool (some false)
                  (cons "repeat_until" (.option Condition.decoder) (some none) nil))))))))
    fun (program, repetitions, ids, qubits, keys, bindings, useIds, condition, _) =>
      { program
        repetitions := some repetitions
        repetitionIds := ids
        qubitMap := .ofList qubits
        keyMap := .ofList keys
        bindings := .ofList bindings
        useIds := some useIds
        repeatUntil := condition }

def Moment.decoderOf (operation : Decoder Operation) : Decoder Moment :=
  .validated Moment.ofOperations (.list operation)

def Program.decoderOf (operation : Decoder Operation) : Decoder Program :=
  record
    (cons "moments" (.list (Moment.decoderOf operation)) none
      (cons "tags" (.list Tag.decoder) (some []) nil))
    fun (moments, tags, _) => ⟨moments, tags⟩

def Action.decoderOf (operation : Decoder Operation) : Decoder Action :=
  variants
    [ holding "Gate" Gate.decoder .gate,
      withFields "Measure" (cons "key" .text none nil) fun (key, _) => .measure key,
      unit "Reset" .reset,
      holding "SubProgram"
        (.validated CallDraft.build (CallDraft.decoder (Program.decoderOf operation))) .call,
      withFields "Controlled"
        (cons "operation" operation none (cons "conditions" (.list Condition.decoder) none nil))
        fun (op, conditions, _) => .guarded op conditions ]

/-- The operation of an action on given qubits.  A gate has to fit its qubits,
    a call has its own, and otherwise the qubits have to be different. -/
def Operation.ofParts (action : Action) (qubits : List Qubit) (tags : List Tag) :
    Except BuildError Operation := do
  let op ←
    match action with
    | .gate g => ofGate g qubits
    | .call c => pure (ofCall c)
    | action => do
      checkDistinct qubits "operation"
      pure ⟨action, qubits, []⟩
  return op.withTags tags

def Operation.decoderOf (operation : Decoder Operation) : Decoder Operation :=
  .validated (fun (action, qubits, tags, _) => ofParts action qubits tags)
    (record
      (cons "kind" (Action.decoderOf operation) none
        (cons "qubits" (.list Qubit.decoder) none
          (cons "tags" (.list Tag.decoder) (some []) nil)))
      id)

def Operation.decoder : Decoder Operation := .recursive Operation.decoderOf

def Moment.decoder : Decoder Moment := Moment.decoderOf Operation.decoder

def Program.decoder : Decoder Program := Program.decoderOf Operation.decoder

/-! ## Whole programs as text -/

/-- Why a program is not persisted. -/
inductive PersistError where
  | attachedTag (tag : Tag)
  /-- Writing came upon a tag that the search did not. -/
  | unwritable (value : Attachment)

def PersistError.message : PersistError → String
  | attachedTag tag => s!"Tag {tag} cannot be persisted; only string and integer tags are"
  | unwritable value => value.message

/-- The text of a program without attached values, in a format. -/
def Program.persistIn? (format : JsonFormat) (p : Program) : Except PersistError String :=
  match p.firstAttachment? with
  | some tag => .error (.attachedTag tag)
  | none => (p.toJson.map format.write).mapError .unwritable

/-- The text of a program without attached values. -/
def Program.persist? (p : Program) : Except PersistError String := p.persistIn? .compact

/-- The program of a text in a format. -/
def Program.ofTextIn (format : JsonFormat) (s : String) : Decoded Program :=
  Program.decoder.ofTextIn format s

/-- The program of a text. -/
def Program.ofText (s : String) : Decoded Program := Program.ofTextIn .compact s

end QuantumProgram
