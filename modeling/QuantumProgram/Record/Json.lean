/-
  QuantumProgram — records as JSON.

  Each kind of record has a function that writes it and a decoder that reads
  it back.  All fields of a call record may be left out; of the others, only
  arguments and tags.
-/
import QuantumProgram.Persisted.Parts
import QuantumProgram.Record.Basic

namespace QuantumProgram

open Json (variant)
open Decoder (record variants holding withFields)
open Decoder.Fields (cons nil)

/-- Tags that have a persisted form, as a member that is left out if there are
    none. -/
def tagMembers (tags : List Tag) : Encoded (List (String × Json)) := do
  let written ← Tag.listToJson tags
  return if tags.isEmpty then [] else [("tags", written)]

/-! ## Parts -/

namespace ArgumentRecord

def toJson : ArgumentRecord → Json
  | text s => variant "string" (.string s)
  | symbol n => variant "symbol" (.string n)
  | float v => variant "float" (.ofFloat v)
  | int n => variant "int" (.ofInt64 n)
  | bool b => variant "bool" (.bool b)
  | floats vs => variant "float_list" (.ofList .ofFloat vs)
  | bools bs => variant "bool_list" (.ofList .bool bs)
  | expression e => variant "expression" e.toJson

def decoder : Decoder ArgumentRecord :=
  variants
    [ holding "string" .text text,
      holding "symbol" .text symbol,
      holding "float" .float float,
      holding "int" .int64 int,
      holding "bool" .bool bool,
      holding "float_list" (.list .float) floats,
      holding "bool_list" (.list .bool) bools,
      holding "expression" Expr.decoder expression ]

end ArgumentRecord

namespace RepetitionRecord

def toJson : RepetitionRecord → Json
  | count n => variant "count" (.ofInt64 n)
  | ids names => variant "ids" (.ofList .string names)

def decoder : Decoder RepetitionRecord :=
  variants [holding "count" .int64 count, holding "ids" (.list .text) ids]

end RepetitionRecord

namespace ConditionRecord

def toJson : ConditionRecord → Json
  | key k => variant "key" (.string k)
  | compare k comparator value =>
    variant "compare" (.object
      [("key", .string k), ("comparator", .string comparator), ("value", .ofInt64 value)])

def decoder : Decoder ConditionRecord :=
  variants
    [ holding "key" .text key,
      withFields "compare"
        (cons "key" .text none (cons "comparator" .text none (cons "value" .int64 none nil)))
        fun (k, comparator, value, _) => compare k comparator value ]

end ConditionRecord

/-! ## Operations -/

namespace CallRecord

/-- Pairs of texts as an array. -/
def textPairs (entries : List (String × String)) : Json :=
  .ofList (fun (a, b) => .pair (.string a) (.string b)) entries

def toJson (r : CallRecord) : Json :=
  .object
    [ ("constant_index", .ofNat r.place),
      ("repetition_specification", .ofOption RepetitionRecord.toJson r.repetition),
      ("operand_map", textPairs r.qubitMap),
      ("label_map", textPairs r.keyMap),
      ("param_map", .ofList (fun (k, v) => .pair k.toJson v.toJson) r.bindings),
      ("repeat_until", .ofOption ConditionRecord.toJson r.repeatUntil),
      ("conditioned_on", .ofList ConditionRecord.toJson r.guards),
      ("use_explicit_identifiers", .bool r.useIds) ]

def decoder : Decoder CallRecord :=
  record
    (cons "constant_index" .position (some 0)
      (cons "repetition_specification" (.option RepetitionRecord.decoder) (some none)
        (cons "operand_map" (.list (.pair .text .text)) (some [])
          (cons "label_map" (.list (.pair .text .text)) (some [])
            (cons "param_map" (.list (.pair ArgumentRecord.decoder ArgumentRecord.decoder))
              (some [])
              (cons "repeat_until" (.option ConditionRecord.decoder) (some none)
                (cons "conditioned_on" (.list ConditionRecord.decoder) (some [])
                  (cons "use_explicit_identifiers" .bool (some false) nil))))))))
    fun (place, repetition, qubitMap, keyMap, bindings, repeatUntil, guards, useIds, _) =>
      { place, repetition, qubitMap, keyMap, bindings, repeatUntil, guards, useIds }

end CallRecord

namespace ActionRecord

def toJson : ActionRecord → Json
  | gate r =>
    variant "gate" (.object
      [("name", .string r.name), ("args", .ofList ArgumentRecord.toJson r.args),
        ("qubits", .ofList .string r.qubits)])
  | measure key qubits =>
    variant "measure" (.object [("key", .string key), ("qubits", .ofList .string qubits)])
  | reset qubit => variant "reset" (.object [("qubit", .string qubit)])
  | call r => variant "sub_program_call" r.toJson

def decoder : Decoder ActionRecord :=
  variants
    [ holding "gate"
        (record
          (cons "name" .text none
            (cons "args" (.list ArgumentRecord.decoder) (some [])
              (cons "qubits" (.list .text) none nil)))
          fun (name, args, qubits, _) => ⟨name, args, qubits⟩)
        gate,
      holding "measure"
        (record (cons "key" .text none (cons "qubits" (.list .text) none nil)) id)
        fun (key, qubits, _) => measure key qubits,
      withFields "reset" (cons "qubit" .text none nil) fun (qubit, _) => reset qubit,
      holding "sub_program_call" CallRecord.decoder call ]

end ActionRecord

namespace OperationRecord

def toJson (r : OperationRecord) : Encoded Json := do
  return .object (("kind", r.action.toJson) :: (← tagMembers r.tags))

def decoder : Decoder OperationRecord :=
  record
    (cons "kind" ActionRecord.decoder none (cons "tags" (.list Tag.decoder) (some []) nil))
    fun (action, tags, _) => ⟨action, tags⟩

end OperationRecord

/-! ## Programs and tables -/

namespace ProgramRecord

def toJson (r : ProgramRecord) : Encoded Json := do
  let moments ← r.moments.mapM fun ops => return .array (← ops.mapM OperationRecord.toJson)
  return .object (("moments", .array moments) :: (← tagMembers r.tags))

def decoder : Decoder ProgramRecord :=
  record
    (cons "moments" (.list (.list OperationRecord.decoder)) none
      (cons "tags" (.list Tag.decoder) (some []) nil))
    fun (moments, tags, _) => ⟨moments, tags⟩

end ProgramRecord

namespace ConstantRecord

def toJson : ConstantRecord → Encoded Json
  | text s => .ok (variant "text" (.string s))
  | qubit id => .ok (variant "qubit_id" (.string id))
  | program r => do return variant "program" (← r.toJson)

def decoder : Decoder ConstantRecord :=
  variants
    [ holding "text" .text text,
      holding "qubit_id" .text qubit,
      holding "program" ProgramRecord.decoder program ]

end ConstantRecord

/-- The constants and operations of a file; either may be left out. -/
def RecordFile.decoder : Decoder RecordFile :=
  record
    (cons "constants" (.list ConstantRecord.decoder) (some [])
      (cons "operations" (.list OperationRecord.decoder) (some []) nil))
    fun (constants, operations, _) => ⟨constants, operations⟩

end QuantumProgram
