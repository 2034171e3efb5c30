/-
  QuantumProgram — what is demanded for the parts of operations.

  Whatever is read from the text of an expression, a binding or a gate in a
  lawful format, and is equal to it, shows that all of its floats are restored.
  The other parts have no floats; they only take their room.
-/
import QuantumProgram.Proofs.Demands
import QuantumProgram.Proofs.ReadingParts

namespace QuantumProgram

open Decoder (Demands Inner)

variable {T : JsonFormat}

theorem Qubit.demands (q : Qubit) : Demands T decoder q.toJson fun _ => True := by
  cases q with
  | line index => exact .variant rfl (.map (.int64 index) fun _ _ => trivial)
  | grid row col =>
    exact .variant rfl (.caseFields (.given (.int64 row) (.given (.int64 col) .nil)) (by decide)
      fun _ _ => trivial)
  | named name => exact .variant rfl (.map (.text name) fun _ _ => trivial)

theorem Tag.demands {t : Tag} {v : Json} (h : t.toJson = .ok v) :
    Demands T decoder v fun _ => True := by
  cases t with
  | name text =>
    obtain rfl := Except.ok.inj h
    exact .variant rfl (.map (.text text) fun _ _ => trivial)
  | int value =>
    obtain rfl := Except.ok.inj h
    exact .variant rfl (.map (.int64 value) fun _ _ => trivial)
  | attached value => cases h

theorem Comparator.demands (c : Comparator) : Demands T decoder (.string c.name) fun _ => True :=
  .room (.of_reads c.reads rfl rfl)

theorem Condition.demands (c : Condition) : Demands T decoder c.toJson fun _ => True := by
  cases c with
  | key k =>
    exact .variant rfl (.caseFields (.given (.text k) .nil) (by decide) fun _ _ => trivial)
  | compare k comparator value =>
    exact .variant rfl (.caseFields (.given (.text k) (.given comparator.demands
      (.given (.int64 value) .nil))) (by decide) fun _ _ => trivial)

theorem BindingKey.demands (k : BindingKey) : Demands T decoder k.toJson (· = k) := by
  cases k with
  | name text | symbol text => exact .variant rfl (.map (.text text) fun _ h => congrArg _ h)

variable [T.Lawful]

/-! ## Expressions and bindings -/

theorem Expr.demands_inner (e : Expr) : ∀ inner, Inner decoderOf inner →
    Demands T inner e.toJson fun e' => e'.beq e = true → ∀ x ∈ e.floats, T.Restores x := by
  have both {a b a' b' : Expr} (ha : a'.beq a = true → ∀ x ∈ a.floats, T.Restores x)
      (hb : b'.beq b = true → ∀ x ∈ b.floats, T.Restores x)
      (h : (a'.beq a && b'.beq b) = true) : ∀ x ∈ a.floats ++ b.floats, T.Restores x := by
    rw [Bool.and_eq_true] at h
    exact List.forall_mem_append.2 ⟨ha h.1, hb h.2⟩
  induction e with
  | constant v =>
    refine .inner fun inner _ => .variant rfl (.map (.float v) fun w hw hbeq => ?_)
    exact List.forall_mem_singleton.2 (hw hbeq)
  | symbol name => exact .inner fun inner _ => .variant rfl (.map (.text name) fun _ _ _ => nofun)
  | pi => exact .inner fun inner _ => .imp (.unit rfl) fun _ _ _ => nofun
  | neg e ih => exact .inner fun inner h => .variant rfl (.map (ih inner h) fun _ he => he)
  | add a b iha ihb | sub a b iha ihb | mul a b iha ihb | div a b iha ihb =>
    refine .inner fun inner h => .variant rfl (.map (.pair (iha inner h) (ihb inner h)) ?_)
    exact fun _ hab => both hab.1 hab.2

theorem Expr.demands (e : Expr) :
    Demands T decoder e.toJson fun e' => (e' == e) = true → ∀ x ∈ e.floats, T.Restores x :=
  .recursive e.demands_inner

theorem BindingValue.demands (v : BindingValue) :
    Demands T decoder v.toJson fun v' => (v' == v) = true → ∀ x ∈ v.floats, T.Restores x := by
  cases v with
  | name text | symbol text => exact .variant rfl (.map (.text text) fun _ _ _ => nofun)
  | int value => exact .variant rfl (.map (.int64 value) fun _ _ _ => nofun)
  | float value =>
    refine .variant rfl (.map (.float value) fun w hw hbeq => ?_)
    exact List.forall_mem_singleton.2 (hw hbeq)

/-! ## Gates -/

/-- An equal gate has an equal angle or an equal factor. -/
theorem StandardGate.demands (g : StandardGate) :
    Demands T decoder g.toJson fun g' => (g' == g) = true →
      ∀ x ∈ (Gate.standard g).floats, T.Restores x := by
  have hangle {e e' : Expr} (h : (e' == e) = true → ∀ x ∈ e.floats, T.Restores x) :
      (e' == e) = true → ∀ x ∈ [e].flatMap Expr.floats, T.Restores x := by
    rwa [List.flatMap_singleton]
  cases g with
  | rx e | ry e | rz e | phase e =>
    exact .variant rfl (.map e.demands fun _ he => hangle he)
  | globalPhase c =>
    refine .variant rfl (.map (.pair (.float c.re) (.float c.im)) fun c' hc hbeq => ?_)
    obtain ⟨hre, him⟩ := Bool.and_eq_true_iff.1 hbeq
    exact List.forall_mem_cons.2 ⟨hc.1 hre, List.forall_mem_singleton.2 (hc.2 him)⟩
  | _ => exact .imp (.unit rfl) fun _ _ _ => nofun

theorem CustomGate.demands (g : CustomGate) :
    Demands T decoder g.toJson fun g' => (g' == g) = true →
      ∀ x ∈ (Gate.custom g).floats, T.Restores x := by
  have hparams : ∀ {es es' : List Expr}, List.Forall₂
      (fun e e' => (e' == e) = true → ∀ x ∈ e.floats, T.Restores x) es es' → (es' == es) = true →
      ∀ x ∈ es.flatMap Expr.floats, T.Restores x := by
    intro es es' h hbeq
    induction h with
    | nil => exact nofun
    | cons he _ ih =>
      obtain ⟨hbeq, hrest⟩ := Bool.and_eq_true_iff.1 hbeq
      exact List.forall_mem_append.2 ⟨he hbeq, ih hrest⟩
  obtain ⟨name, numQubits, params, inverseName⟩ := g
  refine .record (.given (.text name) (.given (.uint32 numQubits)
    (.given (.ofList fun e _ => e.demands) (.optional_last fun s => .room (.text s)))))
      (by decide) fun t ht hbeq => ?_
  have hsame : (t.2.2.1 == params) = true := by
    change CustomGate.beq _ _ = true at hbeq
    simp only [CustomGate.beq, Bool.and_eq_true] at hbeq
    exact hbeq.1.2
  exact hparams ht.2.2.1 hsame

theorem Gate.demands (g : Gate) :
    Demands T decoder g.toJson fun g' => (g' == g) = true → ∀ x ∈ g.floats, T.Restores x := by
  cases g with
  | standard g => exact .variant rfl (.map g.demands fun _ hg => hg)
  | custom g => exact .variant rfl (.map g.demands fun _ hg => hg)

end QuantumProgram
