/-
  QuantumProgram — call operations from records.

  A call record is decoded exactly if every part of it says something
  (`CallRecord.ReadAs`): its place holds a program, its arguments give binding
  keys and values, its conditions test a key, and the call is valid.  Otherwise
  the error is the first in the list of all faults (`CallRecord.faults`), which
  goes through the parts in a fixed order, all binding keys before any binding
  value.
-/
import QuantumProgram.Proofs.Resolution

namespace QuantumProgram

theorem ofOption_eq_ok_iff {α : Type} {e : RecordError} {o : Option α} {a : α} :
    RecordResult.ofOption e o = .ok a ↔ o = some a := by
  cases o <;> simp [RecordResult.ofOption]

/-! ## Arguments -/

namespace Expr

theorem symbol?_eq_some_iff {e : Expr} {n : String} : e.symbol? = some n ↔ e = .symbol n := by
  cases e <;> simp [symbol?]

/-- Only expressions without symbols have a value. -/
theorem isSymbolic_of_value? {e : Expr} {v : Float} (h : e.value? = some v) :
    e.isSymbolic = false := by
  induction e generalizing v with
  | constant w => rfl
  | symbol n => exact absurd h (by simp [value?])
  | pi => rfl
  | neg e ih =>
    obtain ⟨w, hw, -⟩ := Option.map_eq_some_iff.1 h
    exact ih hw
  | add a b iha ihb | sub a b iha ihb | mul a b iha ihb =>
    simp only [value?, Option.bind_eq_bind, Option.bind_eq_some_iff] at h
    obtain ⟨x, hx, y, hy, -⟩ := h
    simp [isSymbolic, iha hx, ihb hy]
  | div a b iha ihb =>
    simp only [value?, Option.bind_eq_bind, Option.bind_eq_some_iff] at h
    obtain ⟨y, hy, h⟩ := h
    split_ifs at h
    obtain ⟨x, hx, -⟩ := Option.bind_eq_some_iff.1 h
    simp [isSymbolic, iha hx, ihb hy]

end Expr

namespace Argument

/-- An expression binds a parameter if it is nothing but a symbol. -/
theorem key?_ofExpr (e : Expr) : (ofExpr e).key? = e.symbol?.map .symbol := by
  rw [ofExpr]
  cases e.symbol? with
  | some n => rfl
  | none => cases e.value? <;> rfl

/-- An expression is bound as its symbol or as its value. -/
theorem value?_ofExpr (e : Expr) :
    (ofExpr e).value? = (e.symbol?.map .symbol).or (e.value?.map .float) := by
  rw [ofExpr]
  cases e.symbol? with
  | some n => rfl
  | none => cases e.value? <;> rfl

end Argument

namespace ArgumentRecord

/-- The argument says which parameter is bound. -/
inductive GivesKey : ArgumentRecord → BindingKey → Prop
  | text (s : String) : GivesKey (.text s) (.name s)
  | symbol (n : String) : GivesKey (.symbol n) (.symbol n)
  | bareSymbol (n : String) : GivesKey (.expression (.symbol n)) (.symbol n)

/-- The argument says what a parameter is bound to. -/
inductive GivesValue : ArgumentRecord → BindingValue → Prop
  | text (s : String) : GivesValue (.text s) (.name s)
  | symbol (n : String) : GivesValue (.symbol n) (.symbol n)
  | bareSymbol (n : String) : GivesValue (.expression (.symbol n)) (.symbol n)
  | float (v : Float) : GivesValue (.float v) (.float v)
  | int (n : Int64) : GivesValue (.int n) (.int n)
  | bool (b : Bool) : GivesValue (.bool b) (.int (if b then 1 else 0))
  | evaluated {e : Expr} {v : Float} (hfree : e.isSymbolic = false) (hvalue : e.value? = some v) :
    GivesValue (.expression e) (.float v)

theorem key?_eq_some_iff {a : ArgumentRecord} {k : BindingKey} :
    a.argument.key? = some k ↔ a.GivesKey k := by
  constructor
  · intro h
    cases a with
    | text s => obtain rfl := Option.some.inj h; exact .text s
    | symbol n => obtain rfl := Option.some.inj h; exact .symbol n
    | expression e =>
      rw [argument, Argument.key?_ofExpr] at h
      obtain ⟨n, hn, rfl⟩ := Option.map_eq_some_iff.1 h
      obtain rfl := Expr.symbol?_eq_some_iff.1 hn
      exact .bareSymbol n
    | float _ | int _ | bool _ | floats _ | bools _ => exact absurd h nofun
  · rintro (_ | _ | _) <;> rfl

theorem value?_eq_some_iff {a : ArgumentRecord} {v : BindingValue} :
    a.argument.value? = some v ↔ a.GivesValue v := by
  constructor
  · intro h
    cases a with
    | text s => obtain rfl := Option.some.inj h; exact .text s
    | symbol n => obtain rfl := Option.some.inj h; exact .symbol n
    | float x => obtain rfl := Option.some.inj h; exact .float x
    | int n => obtain rfl := Option.some.inj h; exact .int n
    | bool b => obtain rfl := Option.some.inj h; exact .bool b
    | expression e =>
      rw [argument, Argument.value?_ofExpr, Option.or_eq_some_iff] at h
      rcases h with h | ⟨-, h⟩
      · obtain ⟨n, hn, rfl⟩ := Option.map_eq_some_iff.1 h
        obtain rfl := Expr.symbol?_eq_some_iff.1 hn
        exact .bareSymbol n
      · obtain ⟨x, hx, rfl⟩ := Option.map_eq_some_iff.1 h
        exact .evaluated (Expr.isSymbolic_of_value? hx) hx
    | floats _ | bools _ => exact absurd h nofun
  · rintro (_ | _ | _ | _ | _ | _ | @⟨e, x, hfree, hvalue⟩)
    case evaluated =>
      -- a bare symbol would be read as a symbol, but it is symbolic
      have hsymbol : e.symbol? = none := by
        cases e <;> first | rfl | simp [Expr.isSymbolic] at hfree
      rw [argument, Argument.value?_ofExpr, hsymbol, hvalue]
      rfl
    all_goals rfl

/-- What keeps an argument from being a binding key. -/
def keyFaults (a : ArgumentRecord) : List RecordError :=
  match a with
  | text _ | symbol _ | expression (.symbol _) => []
  | _ => [.bindingKey a.argument]

/-- What keeps an argument from being a binding value: it is a list, or an
    expression that is no symbol and has no value. -/
def valueFaults (a : ArgumentRecord) : List RecordError :=
  match a with
  | floats _ | bools _ => [.bindingValue a.argument]
  | expression e =>
    if e.symbol?.isSome || e.value?.isSome then [] else [.bindingValue a.argument]
  | text _ | symbol _ | float _ | int _ | bool _ => []

end ArgumentRecord

/-! ## Conditions -/

namespace ConditionRecord

/-- The record describes the condition: it tests a key that is not empty, and
    the comparator is given by its symbol. -/
inductive Describes : ConditionRecord → Condition → Prop
  | key {k : String} (hk : k ≠ "") : Describes (.key k) (.key k)
  | compare {k : String} (c : Comparator) (value : Int64) (hk : k ≠ "") :
    Describes (.compare k c.symbol value) (.compare k c value)

/-- What is wrong with a measurement key. -/
def keyFaults (k : String) : List RecordError := if k = "" then [.condition .emptyKey] else []

/-- What is wrong with a condition; the comparator is looked at before the key. -/
def faults : ConditionRecord → List RecordError
  | key k => keyFaults k
  | compare k symbol _ =>
    (if symbol ∈ Comparator.all.map Comparator.symbol then []
      else [.condition (.unknownComparator symbol)]) ++ keyFaults k

theorem ofSymbol?_eq_some_iff {s : String} {c : Comparator} :
    Comparator.ofSymbol? s = some c ↔ c.symbol = s := by
  constructor
  · intro h
    simpa using List.find?_some h
  · rintro rfl
    cases c <;> rfl

theorem nonemptyKey_eq_ok_iff {k k' : String} : nonemptyKey k = .ok k' ↔ k ≠ "" ∧ k' = k := by
  rw [nonemptyKey]
  split_ifs with h <;> simp [h, eq_comm]

theorem decode_key_eq_ok_iff {k : String} {c : Condition} :
    (key k).decode = .ok c ↔ k ≠ "" ∧ .key k = c := by
  simp only [decode, bind_eq_ok_iff, nonemptyKey_eq_ok_iff, pure_eq_ok_iff, exists_eq_left,
    and_assoc, exists_and_left]

theorem decode_compare_eq_ok_iff {k symbol : String} {value : Int64} {c : Condition} :
    (compare k symbol value).decode = .ok c ↔
      ∃ comparator : Comparator, comparator.symbol = symbol ∧ k ≠ "" ∧
        .compare k comparator value = c := by
  simp only [decode, bind_eq_ok_iff, ofOption_eq_ok_iff, ofSymbol?_eq_some_iff,
    nonemptyKey_eq_ok_iff, pure_eq_ok_iff, exists_eq_left, and_assoc, exists_and_left]

/-- **A condition record is decoded as the condition that it describes.** -/
theorem decode_eq_ok_iff {r : ConditionRecord} {c : Condition} :
    r.decode = .ok c ↔ r.Describes c := by
  cases r with
  | key k =>
    rw [decode_key_eq_ok_iff]
    constructor
    · rintro ⟨hk, rfl⟩
      exact .key hk
    · rintro ⟨hk⟩
      exact ⟨hk, rfl⟩
  | compare k symbol value =>
    rw [decode_compare_eq_ok_iff]
    constructor
    · rintro ⟨comparator, rfl, hk, rfl⟩
      exact .compare comparator value hk
    · rintro (_ | ⟨comparator, _, hk⟩)
      exact ⟨comparator, rfl, hk, rfl⟩

end ConditionRecord

/-! ## Calls -/

/-- What is wrong with a place that should hold a program. -/
def ConstantTable.placeFaults (table : ConstantTable) (place : Nat) : List RecordError :=
  match table.entries[place]? with
  | none => [.outOfRange place table.size]
  | some (.program _) => []
  | some c => [.notAProgram place c.kind]

/-- What the parts of a call record say. -/
structure CallReading where
  program : Program
  keys : List BindingKey
  values : List BindingValue
  repeatUntil : Option Condition
  call : Call
  guards : List Condition

/-- The operation that is read: the call, under all guards if there are any. -/
def CallReading.operation (x : CallReading) : Operation :=
  match x.guards with
  | [] => .ofCall x.call
  | guards => ⟨.guarded (.ofCall x.call) guards, x.call.qubits, []⟩

namespace CallRecord

/-- Every part of the record says what the reading gives, and the call that they
    make together is valid. -/
structure ReadAs (r : CallRecord) (table : ConstantTable) (x : CallReading) : Prop where
  program : table.entries[r.place]? = some (.program x.program)
  keys : List.Forall₂ (fun entry k => entry.1.GivesKey k) r.bindings x.keys
  values : List.Forall₂ (fun entry v => entry.2.GivesValue v) r.bindings x.values
  repeatUntil : Option.Rel ConditionRecord.Describes r.repeatUntil x.repeatUntil
  call : (r.draft x.program (.ofList (x.keys.zip x.values)) x.repeatUntil).build = .ok x.call
  guards : List.Forall₂ ConditionRecord.Describes r.guards x.guards

/-- What is wrong with the call as a whole, which its program and its termination
    condition decide.  The bindings have no part in it. -/
def callFaults (r : CallRecord) (table : ConstantTable) : List RecordError :=
  match table.program r.place, r.repeatUntil.mapM ConditionRecord.decode with
  | .ok program, .ok repeatUntil =>
    ((r.draft program ∅ repeatUntil).call.fault? program.isInvertible).toList.map .build
  | _, _ => []

/-- All that is wrong with a call record, in the order in which it is looked at. -/
def faults (r : CallRecord) (table : ConstantTable) : List RecordError :=
  table.placeFaults r.place ++
    r.bindings.flatMap (fun entry => entry.1.keyFaults) ++
    r.bindings.flatMap (fun entry => entry.2.valueFaults) ++
    r.repeatUntil.toList.flatMap ConditionRecord.faults ++
    r.callFaults table ++
    r.guards.flatMap ConditionRecord.faults

theorem decodeBindings_eq_ok_iff {entries : List (ArgumentRecord × ArgumentRecord)}
    {bindings : Bindings} : decodeBindings entries = .ok bindings ↔
      ∃ keys, List.Forall₂ (fun entry k => entry.1.GivesKey k) entries keys ∧
      ∃ values, List.Forall₂ (fun entry v => entry.2.GivesValue v) entries values ∧
        .ofList (keys.zip values) = bindings := by
  simp only [decodeBindings, bind_eq_ok_iff, mapM_eq_ok_iff, decodeKey, decodeValue,
    ofOption_eq_ok_iff, ArgumentRecord.key?_eq_some_iff, ArgumentRecord.value?_eq_some_iff,
    pure_eq_ok_iff]

theorem withConditions_ofCall (c : Call) (guards : List Condition) :
    (Operation.ofCall c).withConditions guards =
      match guards with
      | [] => .ofCall c
      | guards => ⟨.guarded (.ofCall c) guards, c.qubits, []⟩ := by
  cases guards <;> rfl

/-- **A call record is decoded as the operation that its parts describe.** -/
theorem decode_eq_ok_iff {r : CallRecord} {table : ConstantTable} {op : Operation} :
    r.decode table = .ok op ↔ ∃ x, r.ReadAs table x ∧ op = x.operation := by
  simp only [decode, bind_eq_ok_iff, ConstantTable.program_eq_ok_iff, decodeBindings_eq_ok_iff,
    mapMOption_eq_ok_iff, mapM_eq_ok_iff, ConditionRecord.decode_eq_ok_iff, RecordResult.ofBuild,
    mapError_eq_ok_iff, pure_eq_ok_iff, withConditions_ofCall]
  constructor
  · rintro ⟨program, hprogram, _, ⟨keys, hkeys, values, hvalues, rfl⟩, repeatUntil, huntil, call,
      hcall, guards, hguards, rfl⟩
    exact ⟨⟨program, keys, values, repeatUntil, call, guards⟩,
      ⟨hprogram, hkeys, hvalues, huntil, hcall, hguards⟩, rfl⟩
  · rintro ⟨x, h, rfl⟩
    exact ⟨x.program, h.program, _, ⟨x.keys, h.keys, x.values, h.values, rfl⟩, x.repeatUntil,
      h.repeatUntil, x.call, h.call, x.guards, h.guards, rfl⟩

end CallRecord

/-! ## What is read -/

/-- The operation reads the keys of the call and those that the guards test. -/
theorem CallReading.mem_controlKeys {x : CallReading} {k : String} :
    k ∈ x.operation.controlKeys ↔
      k ∈ x.call.controlKeys ∨ ∃ g ∈ x.guards, g.measured = k := by
  obtain ⟨_, _, _, _, c, guards⟩ := x
  have hcall : (Operation.ofCall c).controlKeys = c.controlKeys :=
    Operation.controlKeys_call c _ _
  cases guards with
  | nil => simp [operation, hcall]
  | cons g guards =>
    rw [operation, Operation.controlKeys_guarded, hcall, SortedSet.mem_insertMany, List.mem_map]

namespace CallRecord

/-- Keys come before values, whichever pair they are in. -/
example : faults
    { bindings := [(.text "a", .floats []), (.bool true, .bools [])]
      guards := [.key ""] } ⟨[.program .empty]⟩ =
    [.bindingKey (.bool true), .bindingValue (.floats []), .bindingValue (.bools []),
      .condition .emptyKey] := rfl

end CallRecord

end QuantumProgram
