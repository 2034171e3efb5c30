/-
  QuantumProgram — substitution in expressions and in called programs.

  To resolve an expression replaces all of its symbols at once.  The names that
  are free afterwards are those of what its names are replaced by
  (`Expr.mem_freeNames_resolve`), and resolving through one list of bindings and
  then through another is resolving through `Bindings.andThen`
  (`Expr.resolve_resolve`).  The names that a call shows, which are computed from
  names only, are therefore those of the angles in its program with the bindings
  substituted (`Operation.parameterNames_eq`).
-/
import Mathlib.Tactic
import QuantumProgram.Program.Interface

namespace QuantumProgram

/-! ## Free names -/

namespace Expr

theorem isSymbolic_iff {e : Expr} : e.isSymbolic = true ↔ ∃ n, n ∈ e.freeNames := by
  induction e with
  | constant v => simp [isSymbolic, freeNames]
  | symbol n => simp [isSymbolic, freeNames]
  | pi => simp [isSymbolic, freeNames]
  | neg e ih => exact ih
  | add a b iha ihb | sub a b iha ihb | mul a b iha ihb | div a b iha ihb =>
    simp only [isSymbolic, freeNames, Bool.or_eq_true, iha, ihb, SortedSet.mem_union, exists_or]

/-- **The names after resolving** are those of what the names before are replaced
    by. -/
theorem mem_freeNames_resolve {m : Bindings} {e : Expr} {x : String} :
    x ∈ (e.resolve m).freeNames ↔ ∃ y ∈ e.freeNames, x ∈ m.outerNames y := by
  induction e with
  | constant v => simp [resolve, freeNames]
  | symbol n => simp [freeNames, Bindings.outerNames]
  | pi => simp [resolve, freeNames]
  | neg e ih => exact ih
  | add a b iha ihb | sub a b iha ihb | mul a b iha ihb | div a b iha ihb =>
    simp only [resolve, freeNames, SortedSet.mem_union, iha, ihb, or_and_right, exists_or]

theorem freeNames_resolve (m : Bindings) (e : Expr) :
    (e.resolve m).freeNames = .unions (e.freeNames.toList.map m.outerNames) := by
  refine SortedSet.ext fun x => ?_
  simp only [mem_freeNames_resolve, SortedSet.mem_unions, List.mem_map, SortedSet.mem_toList,
    exists_exists_and_eq_and]

end Expr

/-! ## Resolving twice -/

/-- The value under further bindings: a parameter that is referred to has the
    value that it is bound to, if it is bound. -/
def BindingValue.resolve (m : Bindings) (v : BindingValue) : BindingValue :=
  (v.text?.bind m.lookup?).getD v

theorem BindingValue.toExpr_resolve (m : Bindings) (v : BindingValue) :
    (v.resolve m).toExpr = v.toExpr.resolve m := by
  cases v with
  | name t | symbol t =>
    rw [toExpr, Expr.resolve, BindingValue.resolve, text?, Option.bind_some]
    cases m.lookup? t <;> rfl
  | int n => rfl
  | float x => rfl

namespace Bindings

variable {m n : Bindings} {x : String}

/-- The parameters that are bound. -/
def names (m : Bindings) : List String := m.keys.map BindingKey.text

/-- The value of a parameter under some bindings and further ones after them. -/
def lookupThen? (m n : Bindings) (x : String) : Option BindingValue :=
  match m.lookup? x with
  | some v => some (v.resolve n)
  | none => n.lookup? x

/-- The parameters that one of the two binds, as symbols: among these no binding
    hides another. -/
def composed (m n : Bindings) : List (BindingKey × BindingValue) :=
  (m.names ++ n.names).filterMap fun x => (lookupThen? m n x).map fun v => (.symbol x, v)

/-- Some bindings and further ones after them. -/
def andThen (m n : Bindings) : Bindings := .ofList (composed m n)

theorem lookup?_eq (m : Bindings) (x : String) :
    m.lookup? x = (m.get? (.symbol x)).or (m.get? (.name x)) := by
  simp [lookup?]

theorem mem_names_of_lookup? {v : BindingValue} (h : m.lookup? x = some v) : x ∈ m.names := by
  rw [lookup?_eq, Option.or_eq_some_iff] at h
  rcases h with hsymbol | ⟨-, hname⟩
  · exact List.mem_map_of_mem (SortedMap.mem_keys_of_get? hsymbol)
  · exact List.mem_map_of_mem (SortedMap.mem_keys_of_get? hname)

theorem mem_names_of_lookupThen? {v : BindingValue} (h : lookupThen? m n x = some v) :
    x ∈ m.names ++ n.names := by
  rw [lookupThen?] at h
  split at h
  · next w hw => exact List.mem_append_left _ (mem_names_of_lookup? hw)
  · exact List.mem_append_right _ (mem_names_of_lookup? h)

theorem mem_composed_iff {e : BindingKey × BindingValue} :
    e ∈ composed m n ↔ ∃ y, e.1 = .symbol y ∧ lookupThen? m n y = some e.2 := by
  rw [composed, List.mem_filterMap]
  constructor
  · rintro ⟨y, -, hy⟩
    obtain ⟨v, hv, rfl⟩ := Option.map_eq_some_iff.1 hy
    exact ⟨y, rfl, hv⟩
  · obtain ⟨k, v⟩ := e
    rintro ⟨y, rfl, hy⟩
    exact ⟨y, mem_names_of_lookupThen? hy, Option.map_eq_some_iff.2 ⟨v, hy, rfl⟩⟩

/-- **Under both bindings** a parameter has the value of the first, resolved by the
    second, or else that of the second. -/
theorem lookup?_andThen (m n : Bindings) (x : String) :
    (m.andThen n).lookup? x = lookupThen? m n x := by
  -- no plain name is bound, so that the symbol decides
  have hname : (m.andThen n).get? (.name x) = none := by
    refine SortedMap.get?_ofList_eq_none_iff.2 fun e he hkey => ?_
    obtain ⟨y, hy, -⟩ := mem_composed_iff.1 he
    exact absurd (hy.symm.trans hkey) (by simp)
  rw [lookup?_eq, hname, Option.or_none]
  cases hsymbol : (m.andThen n).get? (.symbol x) with
  | some v =>
    obtain ⟨before, after, hlist, -⟩ := SortedMap.get?_ofList_eq_some_iff.1 hsymbol
    obtain ⟨y, hy, hv⟩ :=
      mem_composed_iff.1 (hlist ▸ List.mem_append_right before List.mem_cons_self)
    obtain rfl := BindingKey.symbol.inj hy
    exact hv.symm
  | none =>
    rw [eq_comm, Option.eq_none_iff_forall_ne_some]
    intro v hv
    have hmem : (.symbol x, v) ∈ composed m n := mem_composed_iff.2 ⟨x, rfl, hv⟩
    exact SortedMap.get?_ofList_eq_none_iff.1 hsymbol _ hmem rfl

end Bindings

/-- A bound symbol is replaced by its value, and one that is not bound stays. -/
theorem Expr.resolve_symbol (m : Bindings) (n : String) : (symbol n).resolve m =
    (((m.get? (.symbol n)).or (m.get? (.name n))).map BindingValue.toExpr).getD (.symbol n) := by
  rw [resolve, Bindings.lookup?_eq]
  cases (m.get? (.symbol n)).or (m.get? (.name n)) <;> rfl

/-- **Resolving twice is resolving once**, through both bindings. -/
theorem Expr.resolve_resolve (m n : Bindings) (e : Expr) :
    (e.resolve m).resolve n = e.resolve (m.andThen n) := by
  induction e with
  | constant v => rfl
  | symbol x =>
    rw [resolve, resolve, Bindings.lookup?_andThen, Bindings.lookupThen?]
    cases m.lookup? x with
    | none => rfl
    | some v => exact (v.toExpr_resolve n).symm
  | pi => rfl
  | neg e ih => rw [resolve, resolve, resolve, ih]
  | add a b iha ihb | sub a b iha ihb | mul a b iha ihb | div a b iha ihb =>
    rw [resolve, resolve, resolve, iha, ihb]

/-- Bindings that exchange two symbols do so at once. -/
example : ((Expr.sub (.symbol "a") (.symbol "b")).resolve
    (.ofList [(.symbol "a", .symbol "b"), (.name "b", .name "a")])) =
      .sub (.symbol "b") (.symbol "a") := rfl

/-! ## Gates -/

theorem Gate.isParameterized_iff {g : Gate} :
    g.isParameterized = true ↔ ∃ n, n ∈ g.freeNames := by
  simp only [isParameterized, freeNames, List.any_eq_true, Expr.isSymbolic_iff,
    SortedSet.mem_unions, List.mem_map, exists_exists_and_eq_and]
  constructor
  · rintro ⟨e, he, n, hn⟩
    exact ⟨n, e, he, hn⟩
  · rintro ⟨n, e, he, hn⟩
    exact ⟨e, he, n, hn⟩

theorem Operation.isParameterized_iff {op : Operation} :
    op.isParameterized = true ↔ ∃ n, n ∈ op.parameterNames := by
  rw [isParameterized, Bool.not_eq_true', ← Bool.not_eq_true, SortedSet.isEmpty_iff]
  push Not
  rfl

/-- An operation of a gate has parameters if the gate has. -/
theorem Operation.isParameterized_gate (g : Gate) (qubits : List Qubit) (tags : List Tag) :
    (Operation.mk (.gate g) qubits tags).isParameterized = g.isParameterized := by
  rw [Bool.eq_iff_iff, isParameterized_iff, Gate.isParameterized_iff]
  rfl

/-! ## Called programs -/

variable {n : String}

theorem Program.mem_parameterNames {p : Program} :
    n ∈ p.parameterNames ↔ ∃ op ∈ p.operations, n ∈ op.parameterNames := by
  simp [parameterNames]

theorem Call.mem_parameterNames {c : Call} : n ∈ c.parameterNames ↔
    ∃ y ∈ c.program.parameterNames, n ∈ c.settings.bindings.outerNames y := by
  simp [parameterNames]

mutual

/-- The angles of the gates in an operation, at any depth, as expressions in the
    parameters outside: those of a called program with the bindings
    substituted. -/
def Operation.angles : Operation → List Expr
  | ⟨.gate g, _, _⟩ => g.parameters
  | ⟨.measure _, _, _⟩ => []
  | ⟨.reset, _, _⟩ => []
  | ⟨.call ⟨⟨moments, _⟩, settings⟩, _, _⟩ =>
    (momentAngles moments).map (Expr.resolve settings.bindings)
  | ⟨.guarded op _, _, _⟩ => op.angles
termination_by structural op => op

def momentAngles : List Moment → List Expr
  | [] => []
  | ⟨ops⟩ :: rest => operationAngles ops ++ momentAngles rest
termination_by structural ms => ms

def operationAngles : List Operation → List Expr
  | [] => []
  | op :: rest => op.angles ++ operationAngles rest
termination_by structural ops => ops

end

/-- The angles in a program at any depth. -/
def Program.angles (p : Program) : List Expr := p.operations.flatMap Operation.angles

/-- The angles in the called program with the bindings substituted. -/
def Call.angles (c : Call) : List Expr := c.program.angles.map (Expr.resolve c.settings.bindings)

theorem operationAngles_eq (ops : List Operation) :
    operationAngles ops = ops.flatMap Operation.angles := by
  induction ops with
  | nil => rfl
  | cons op rest ih => rw [operationAngles, ih, List.flatMap_cons]

theorem momentAngles_eq (moments : List Moment) :
    momentAngles moments = (moments.flatMap Moment.operations).flatMap Operation.angles := by
  induction moments with
  | nil => rfl
  | cons m rest ih =>
    obtain ⟨ops⟩ := m
    rw [momentAngles, ih, operationAngles_eq, List.flatMap_cons, List.flatMap_append]

theorem Operation.angles_call (c : Call) (qubits : List Qubit) (tags : List Tag) :
    (Operation.mk (.call c) qubits tags).angles = c.angles := by
  obtain ⟨⟨moments, programTags⟩, settings⟩ := c
  rw [Operation.angles, momentAngles_eq, Call.angles, Program.angles, Program.operations]

theorem Call.mem_parameterNames_of {c : Call}
    (h : ∀ op ∈ c.program.operations, ∀ y, y ∈ op.parameterNames ↔
      ∃ e ∈ op.angles, y ∈ e.freeNames) :
    n ∈ c.parameterNames ↔ ∃ e ∈ c.angles, n ∈ e.freeNames := by
  simp only [mem_parameterNames, Program.mem_parameterNames, angles, Program.angles, List.mem_map,
    List.mem_flatMap, exists_exists_and_eq_and, Expr.mem_freeNames_resolve]
  constructor
  · rintro ⟨y, ⟨op, hop, hy⟩, hn⟩
    obtain ⟨e, he, hy⟩ := (h op hop y).1 hy
    exact ⟨e, ⟨op, hop, he⟩, y, hy, hn⟩
  · rintro ⟨e, ⟨op, hop, he⟩, y, hy, hn⟩
    exact ⟨y, ⟨op, hop, (h op hop y).2 ⟨e, he, hy⟩⟩, hn⟩

/-- **The parameters of an operation** are the names in its angles. -/
theorem Operation.mem_parameterNames {op : Operation} :
    n ∈ op.parameterNames ↔ ∃ e ∈ op.angles, n ∈ e.freeNames := by
  induction op using Operation.nestingInduction generalizing n with
  | gate g qubits tags =>
    simp [parameterNames, ask, Query.parameters, Gate.freeNames, angles]
  | measure key qubits tags => simp [parameterNames, ask, Query.parameters, angles]
  | reset qubits tags => simp [parameterNames, ask, Query.parameters, angles]
  | call c qubits tags ih =>
    rw [parameterNames_call, angles_call]
    exact Call.mem_parameterNames_of fun op hop y => ih op hop
  | guarded op conditions qubits tags ih =>
    rw [angles, ← ih]
    rfl

theorem Call.parameterNames_eq (c : Call) :
    c.parameterNames = .unions (c.angles.map Expr.freeNames) := by
  refine SortedSet.ext fun n => ?_
  rw [Call.mem_parameterNames_of fun op _ y => Operation.mem_parameterNames]
  simp

/-! ## One program at a time -/

/-- What an operation does if all of its conditions hold. -/
def Operation.unguarded : Operation → Action
  | ⟨.guarded op _, _, _⟩ => op.unguarded
  | ⟨action, _, _⟩ => action
termination_by structural op => op

/-- The parameters of an operation are those of its gate or of its call. -/
theorem Operation.mem_parameterNames_iff {op : Operation} : n ∈ op.parameterNames ↔
    (∃ g, op.unguarded = .gate g ∧ ∃ e ∈ g.parameters, n ∈ e.freeNames) ∨
      ∃ c, op.unguarded = .call c ∧ n ∈ c.parameterNames := by
  induction op using Operation.nestingInduction with
  | gate g qubits tags =>
    simp [parameterNames, ask, Query.parameters, Gate.freeNames, unguarded]
  | measure key qubits tags => simp [parameterNames, ask, Query.parameters, unguarded]
  | reset qubits tags => simp [parameterNames, ask, Query.parameters, unguarded]
  | call c qubits tags =>
    rw [parameterNames_call]
    simp [unguarded]
  | guarded op conditions qubits tags ih =>
    rw [unguarded, ← ih]
    rfl

theorem Call.mem_parameterNames_iff {c : Call} : n ∈ c.parameterNames ↔
    (∃ op ∈ c.program.operations, ∃ g, op.unguarded = .gate g ∧
      ∃ e ∈ g.parameters, n ∈ (e.resolve c.settings.bindings).freeNames) ∨
    ∃ op ∈ c.program.operations, ∃ inner, op.unguarded = .call inner ∧
      ∃ y ∈ inner.parameterNames,
        n ∈ ((Expr.symbol y).resolve c.settings.bindings).freeNames := by
  rw [mem_parameterNames]
  constructor
  · rintro ⟨y, hy, hn⟩
    obtain ⟨op, hop, hy⟩ := Program.mem_parameterNames.1 hy
    rcases Operation.mem_parameterNames_iff.1 hy with ⟨g, hg, e, he, hy⟩ | ⟨inner, hinner, hy⟩
    · exact Or.inl ⟨op, hop, g, hg, e, he, Expr.mem_freeNames_resolve.2 ⟨y, hy, hn⟩⟩
    · exact Or.inr ⟨op, hop, inner, hinner, y, hy, hn⟩
  · rintro (⟨op, hop, g, hg, e, he, hn⟩ | ⟨op, hop, inner, hinner, y, hy, hn⟩)
    · obtain ⟨y, hy, hn⟩ := Expr.mem_freeNames_resolve.1 hn
      have hop' := Operation.mem_parameterNames_iff.2 (Or.inl ⟨g, hg, e, he, hy⟩)
      exact ⟨y, Program.mem_parameterNames.2 ⟨op, hop, hop'⟩, hn⟩
    · have hop' := Operation.mem_parameterNames_iff.2 (Or.inr ⟨inner, hinner, hy⟩)
      exact ⟨y, Program.mem_parameterNames.2 ⟨op, hop, hop'⟩, hn⟩

/-- **Substitution.**  A symbol is replaced by what it is bound to as a symbol, or
    else as a plain name, or else it stays.  The names of a resolved expression are
    those that its names are replaced by; to resolve twice is to resolve once, through
    bindings made from the two; and an expression is symbolic if a name is free in
    it, so that a gate has parameters if an operation of it has.  Therefore the
    parameters of a call are the names in the angles of its program after
    substitution, together with what replaces the parameters of the calls in it,
    and, to any depth, those in all angles with all bindings substituted. -/
theorem substitution_law :
    (∀ (m : Bindings) (n : String), (Expr.symbol n).resolve m =
      (((m.get? (.symbol n)).or (m.get? (.name n))).map BindingValue.toExpr).getD (.symbol n)) ∧
    (∀ (m : Bindings) (e : Expr), (e.resolve m).freeNames =
      .unions (e.freeNames.toList.map fun n => ((Expr.symbol n).resolve m).freeNames)) ∧
    (∀ (m n : Bindings) (e : Expr), (e.resolve m).resolve n = e.resolve (m.andThen n)) ∧
    (∀ e : Expr, e.isSymbolic = true ↔ ∃ n, n ∈ e.freeNames) ∧
    (∀ (g : Gate) qubits tags,
      (Operation.mk (.gate g) qubits tags).isParameterized = g.isParameterized) ∧
    ∀ c : Call,
      (∀ n, n ∈ c.parameterNames ↔
        (∃ op ∈ c.program.operations, ∃ g, op.unguarded = .gate g ∧
          ∃ e ∈ g.parameters, n ∈ (e.resolve c.settings.bindings).freeNames) ∨
        ∃ op ∈ c.program.operations, ∃ inner, op.unguarded = .call inner ∧
          ∃ y ∈ inner.parameterNames,
            n ∈ ((Expr.symbol y).resolve c.settings.bindings).freeNames) ∧
      c.parameterNames = .unions (c.angles.map Expr.freeNames) := by
  refine ⟨Expr.resolve_symbol, Expr.freeNames_resolve, Expr.resolve_resolve,
    fun e => Expr.isSymbolic_iff, Operation.isParameterized_gate,
    fun c => ⟨fun n => ?_, c.parameterNames_eq⟩⟩
  exact Call.mem_parameterNames_iff

end QuantumProgram
