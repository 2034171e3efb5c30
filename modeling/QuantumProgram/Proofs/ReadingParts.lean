/-
  QuantumProgram — the parts of operations are read back.

  Each decoder reads a value from what is written for it.  An expression, a
  binding or a gate is read back if its floats are finite.
-/
import QuantumProgram.Persisted.Parts
import QuantumProgram.Proofs.Parts
import QuantumProgram.Proofs.Reading

namespace QuantumProgram

open Decoder (Reads unfolded)
open Decoder.Fields (Writes)

theorem Qubit.reads (q : Qubit) : Reads decoder q q.toJson := by
  cases q with
  | line index => exact .variant rfl (.map (.int64 index))
  | grid row col =>
    exact .variant rfl (.caseFields (.given (.int64 row) (.given (.int64 col) .nil)) (by decide))
  | named name => exact .variant rfl (.map (.text name))

/-- A tag that is written is read back. -/
theorem Tag.reads {t : Tag} {v : Json} (h : t.toJson = .ok v) : Reads decoder t v := by
  cases t with
  | name text =>
    obtain rfl := Except.ok.inj h
    exact .variant rfl (.map (.text text))
  | int value =>
    obtain rfl := Except.ok.inj h
    exact .variant rfl (.map (.int64 value))
  | attached value => exact absurd h (by simp [toJson])

theorem Comparator.reads (c : Comparator) : Reads decoder c (.string c.name) := by
  cases c <;> exact .unit rfl

theorem Condition.reads (c : Condition) : Reads decoder c c.toJson := by
  cases c with
  | key k => exact .variant rfl (.caseFields (.given (.text k) .nil) (by decide))
  | compare k comparator value =>
    exact .variant rfl (.caseFields (.given (.text k) (.given comparator.reads
      (.given (.int64 value) .nil))) (by decide))

/-! ## Expressions and bindings -/

/-- Two expressions are read if each of them is. -/
theorem Expr.reads_pair {a b : Expr}
    (ha : ∀ depth, a.toJson.depth ≤ depth → Reads (unfolded decoderOf depth) a a.toJson)
    (hb : ∀ depth, b.toJson.depth ≤ depth → Reads (unfolded decoderOf depth) b b.toJson)
    {depth : ℕ} (hdepth : (Json.pair a.toJson b.toJson).depth ≤ depth) :
    Reads (.pair (unfolded decoderOf depth) (unfolded decoderOf depth)) (a, b)
      (.pair a.toJson b.toJson) := by
  rw [Json.depth_pair] at hdepth
  exact .pair (ha depth (by omega)) (hb depth (by omega))

/-- An expression is read by as many unfoldings as its value has arrays and
    objects inside each other. -/
theorem Expr.reads_unfolded {e : Expr} (h : ∀ x ∈ e.floats, x.isFinite = true) :
    ∀ depth, e.toJson.depth ≤ depth → Reads (unfolded decoderOf depth) e e.toJson := by
  induction e with
  | constant v =>
    intro depth _
    exact .unfolded_of_step (fun _ => .variant rfl (.map (.float (h v List.mem_cons_self)))) depth
  | symbol name =>
    intro depth _
    exact .unfolded_of_step (fun _ => .variant rfl (.map (.text name))) depth
  | pi =>
    intro depth _
    exact .unfolded_of_step (fun _ => .unit rfl) depth
  | neg e ih =>
    exact .unfolded_variant fun depth hdepth => .variant rfl (.map (ih h depth hdepth))
  | add a b iha ihb =>
    obtain ⟨ha, hb⟩ := List.forall_mem_append.1 h
    exact .unfolded_variant fun _ hdepth => .variant rfl (.map (reads_pair (iha ha) (ihb hb) hdepth))
  | sub a b iha ihb =>
    obtain ⟨ha, hb⟩ := List.forall_mem_append.1 h
    exact .unfolded_variant fun _ hdepth => .variant rfl (.map (reads_pair (iha ha) (ihb hb) hdepth))
  | mul a b iha ihb =>
    obtain ⟨ha, hb⟩ := List.forall_mem_append.1 h
    exact .unfolded_variant fun _ hdepth => .variant rfl (.map (reads_pair (iha ha) (ihb hb) hdepth))
  | div a b iha ihb =>
    obtain ⟨ha, hb⟩ := List.forall_mem_append.1 h
    exact .unfolded_variant fun _ hdepth => .variant rfl (.map (reads_pair (iha ha) (ihb hb) hdepth))

theorem Expr.reads {e : Expr} (h : ∀ x ∈ e.floats, x.isFinite = true) :
    Reads decoder e e.toJson :=
  .recursive (reads_unfolded h)

theorem BindingKey.reads (k : BindingKey) : Reads decoder k k.toJson := by
  cases k with
  | name text => exact .variant rfl (.map (.text text))
  | symbol text => exact .variant rfl (.map (.text text))

theorem BindingValue.reads {v : BindingValue} (h : ∀ x ∈ v.floats, x.isFinite = true) :
    Reads decoder v v.toJson := by
  cases v with
  | name text => exact .variant rfl (.map (.text text))
  | symbol text => exact .variant rfl (.map (.text text))
  | int value => exact .variant rfl (.map (.int64 value))
  | float value => exact .variant rfl (.map (.float (h value List.mem_cons_self)))

/-! ## Gates -/

theorem Gate.mem_floats_of_angle? {g : StandardGate} {e : Expr} (he : g.angle? = some e) {x : Float}
    (hx : x ∈ e.floats) : x ∈ (Gate.standard g).floats := by
  have hmem : x ∈ (Gate.standard g).parameters.flatMap Expr.floats := by
    rwa [parameters, he, Option.toList_some, List.flatMap_singleton]
  cases g with
  | globalPhase c => exact absurd he (by simp [StandardGate.angle?])
  | _ => exact hmem

theorem StandardGate.reads {g : StandardGate}
    (h : ∀ x ∈ (Gate.standard g).floats, x.isFinite = true) : Reads decoder g g.toJson := by
  have hangle {e : Expr} (he : g.angle? = some e) : Reads Expr.decoder e e.toJson :=
    Expr.reads fun x hx => h x (Gate.mem_floats_of_angle? he hx)
  cases g with
  | rx e => exact .variant rfl (.map (hangle rfl))
  | ry e => exact .variant rfl (.map (hangle rfl))
  | rz e => exact .variant rfl (.map (hangle rfl))
  | phase e => exact .variant rfl (.map (hangle rfl))
  | globalPhase c =>
    obtain ⟨hre, him⟩ := List.forall_mem_cons.1 h
    exact .variant rfl (.map (.pair (.float hre) (.float (him c.im List.mem_cons_self))))
  | _ => exact .unit rfl

theorem CustomGate.reads {g : CustomGate}
    (h : ∀ x ∈ (Gate.custom g).floats, x.isFinite = true) : Reads decoder g g.toJson := by
  have hparams : ∀ e ∈ g.params, Reads Expr.decoder e e.toJson := fun e he =>
    Expr.reads fun x hx => h x (List.mem_flatMap.2 ⟨e, he, hx⟩)
  obtain ⟨name, numQubits, params, inverseName⟩ := g
  refine .record (t := (name, numQubits, params, inverseName, ()))
    (.given (.text name) (.given (.uint32 numQubits) (.given (.ofList hparams) ?_))) (by decide)
  exact .optional_last .text (by simp)

theorem Gate.reads {g : Gate} (h : ∀ x ∈ g.floats, x.isFinite = true) :
    Reads decoder g g.toJson := by
  cases g with
  | standard g => exact .variant rfl (.map (StandardGate.reads h))
  | custom g => exact .variant rfl (.map (CustomGate.reads h))

end QuantumProgram
