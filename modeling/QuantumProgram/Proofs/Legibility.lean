/-
  QuantumProgram — persisted forms can be written as texts.

  All whole numbers in a persisted form have 64 bits, and a float that is not
  finite is not written as a number.  So the text of every program that can be
  written is read as its value, with the finite floats of the program read from
  their own texts (`Program.legible`).
-/
import QuantumProgram.Proofs.Persistable
import QuantumProgram.Proofs.ReadingParts
import QuantumProgram.Proofs.Rereading

namespace QuantumProgram

variable {P : Float → Prop}

/-! ## Building values -/

namespace Json

theorem legible_int64 (n : Int64) : (ofInt64 n).Legible P := by
  have hlow := n.le_toInt
  have hhigh := n.toInt_lt
  exact ⟨by omega, by omega⟩

theorem legible_ofFloat {x : Float} (h : x.isFinite = true → P x) : (ofFloat x).Legible P := by
  rw [ofFloat]
  split
  · next hx => exact h hx
  · exact trivial

theorem legible_variant {name : String} {v : Json} (h : v.Legible P) :
    (variant name v).Legible P := ⟨h, trivial⟩

theorem legible_pair {v w : Json} (hv : v.Legible P) (hw : w.Legible P) : (pair v w).Legible P :=
  ⟨hv, hw, trivial⟩

theorem legible_ofList {α : Type} {write : α → Json} {l : List α}
    (h : ∀ a ∈ l, (write a).Legible P) : (ofList write l).Legible P :=
  legible_array.2 (List.forall_mem_map.2 h)

theorem legible_optional {α : Type} {name : String} {write : α → Json} {o : Option α}
    (h : ∀ a, (write a).Legible P) : ∀ m ∈ optional name write o, m.2.Legible P := by
  cases o with
  | none => exact fun m hm => absurd hm List.not_mem_nil
  | some a => exact List.forall_mem_singleton.2 (h a)

end Json

/-! ## Parts of operations -/

theorem Qubit.legible (q : Qubit) : q.toJson.Legible P := by
  cases q with
  | line index => exact Json.legible_variant (Json.legible_int64 index)
  | grid row col =>
    exact Json.legible_variant ⟨Json.legible_int64 row, Json.legible_int64 col, trivial⟩
  | named name => exact Json.legible_variant trivial

theorem Tag.legible {t : Tag} {v : Json} (h : t.toJson = .ok v) : v.Legible P := by
  cases t with
  | name text =>
    obtain rfl := Except.ok.inj h
    exact Json.legible_variant trivial
  | int value =>
    obtain rfl := Except.ok.inj h
    exact Json.legible_variant (Json.legible_int64 value)
  | attached value => cases h

theorem Tag.legible_list {tags : List Tag} {v : Json} (h : listToJson tags = .ok v) :
    v.Legible P := by
  obtain ⟨vs, hvs, rfl⟩ := listToJson_eq_ok_iff.1 h
  refine Json.legible_array.2 fun v hv => ?_
  obtain ⟨t, -, ht⟩ := exists_of_forall₂ hvs.flip hv
  exact legible ht

theorem Condition.legible (c : Condition) : c.toJson.Legible P := by
  cases c with
  | key k => exact Json.legible_variant ⟨trivial, trivial⟩
  | compare k comparator value =>
    exact Json.legible_variant ⟨trivial, trivial, Json.legible_int64 value, trivial⟩

/-- An expression can be written if its finite floats can. -/
theorem Expr.legible {e : Expr} (h : ∀ x ∈ e.floats, x.isFinite = true → P x) :
    e.toJson.Legible P := by
  induction e with
  | constant v => exact Json.legible_variant (Json.legible_ofFloat (h v List.mem_cons_self))
  | symbol name => exact Json.legible_variant trivial
  | pi => exact trivial
  | neg e ih => exact Json.legible_variant (ih h)
  | add a b iha ihb | sub a b iha ihb | mul a b iha ihb | div a b iha ihb =>
    obtain ⟨ha, hb⟩ := List.forall_mem_append.1 h
    exact Json.legible_variant (Json.legible_pair (iha ha) (ihb hb))

theorem BindingKey.legible (k : BindingKey) : k.toJson.Legible P := by
  cases k with
  | name text | symbol text => exact Json.legible_variant trivial

theorem BindingValue.legible {v : BindingValue} (h : ∀ x ∈ v.floats, x.isFinite = true → P x) :
    v.toJson.Legible P := by
  cases v with
  | name text | symbol text => exact Json.legible_variant trivial
  | int value => exact Json.legible_variant (Json.legible_int64 value)
  | float value => exact Json.legible_variant (Json.legible_ofFloat (h value List.mem_cons_self))

theorem StandardGate.legible {g : StandardGate}
    (h : ∀ x ∈ (Gate.standard g).floats, x.isFinite = true → P x) : g.toJson.Legible P := by
  have hangle {e : Expr} (he : g.angle? = some e) : e.toJson.Legible P :=
    Expr.legible fun x hx => h x (Gate.mem_floats_of_angle? he hx)
  cases g with
  | rx e | ry e | rz e | phase e => exact Json.legible_variant (hangle rfl)
  | globalPhase c =>
    obtain ⟨hre, him⟩ := List.forall_mem_cons.1 h
    exact Json.legible_variant (Json.legible_pair (Json.legible_ofFloat hre)
      (Json.legible_ofFloat (him c.im List.mem_cons_self)))
  | _ => exact trivial

theorem CustomGate.legible {g : CustomGate}
    (h : ∀ x ∈ (Gate.custom g).floats, x.isFinite = true → P x) : g.toJson.Legible P := by
  have hparams : (Json.ofList Expr.toJson g.params).Legible P :=
    Json.legible_ofList fun e he => Expr.legible fun x hx => h x (List.mem_flatMap.2 ⟨e, he, hx⟩)
  have hqubits : (Json.int g.numQubits.toNat).Legible P := by
    have hlt := g.numQubits.toNat_lt
    exact ⟨by omega, by omega⟩
  rw [toJson, Json.legible_object, List.forall_mem_append]
  refine ⟨?_, Json.legible_optional fun _ => trivial⟩
  exact Json.legible_object.1 ⟨trivial, hqubits, hparams, trivial⟩

theorem Gate.legible {g : Gate} (h : ∀ x ∈ g.floats, x.isFinite = true → P x) :
    g.toJson.Legible P := by
  cases g with
  | standard g => exact Json.legible_variant (StandardGate.legible h)
  | custom g => exact Json.legible_variant (CustomGate.legible h)

/-! ## Operations and programs -/

/-- The settings of a call can be written if the finite floats of its bindings can. -/
theorem CallSettings.legible {s : CallSettings}
    (h : ∀ x ∈ s.bindings.toList.flatMap (fun e => e.2.floats), x.isFinite = true → P x) :
    ∀ m ∈ s.members, m.2.Legible P := by
  have hqubits : (Json.ofList (fun e => .pair e.1.toJson e.2.toJson)
      s.qubitMap.toList).Legible P :=
    Json.legible_ofList fun e _ => Json.legible_pair e.1.legible e.2.legible
  have hkeys : (Json.ofList (fun e => .pair (.string e.1) (.string e.2))
      s.keyMap.toList).Legible P :=
    Json.legible_ofList fun e _ => Json.legible_pair trivial trivial
  have hbindings : (Json.ofList (fun e => .pair e.1.toJson e.2.toJson)
      s.bindings.toList).Legible P :=
    Json.legible_ofList fun e he => Json.legible_pair e.1.legible
      (BindingValue.legible fun x hx => h x (List.mem_flatMap.2 ⟨e, he, hx⟩))
  rw [members, List.forall_mem_append, List.forall_mem_append, List.forall_mem_append]
  refine ⟨⟨⟨?_, Json.legible_optional fun ids => Json.legible_ofList fun _ _ => trivial⟩, ?_⟩,
    Json.legible_optional Condition.legible⟩
  · exact List.forall_mem_singleton.2 (Json.legible_int64 _)
  · exact Json.legible_object.1 ⟨hqubits, hkeys, hbindings, trivial, trivial⟩

theorem Operation.legible_of {action : Action} {qubits : List Qubit} {tags : List Tag} {v : Json}
    (h : (Operation.mk action qubits tags).toJson = .ok v)
    (haction : ∀ kind, action.toJson = .ok kind → kind.Legible P) : v.Legible P := by
  obtain ⟨kind, hkind, written, hwritten, rfl⟩ := toJson_eq_ok_iff.1 h
  rw [Json.legible_object, List.forall_mem_append]
  constructor
  · exact Json.legible_object.1 ⟨haction kind hkind, Json.legible_ofList fun q _ => q.legible,
      trivial⟩
  · split
    · exact fun m hm => absurd hm List.not_mem_nil
    · exact List.forall_mem_singleton.2 (Tag.legible_list hwritten)

theorem Moment.legible_of {m : Moment} {v : Json} (h : m.toJson = .ok v)
    (hops : ∀ op ∈ m.operations, ∀ w, op.toJson = .ok w → w.Legible P) : v.Legible P := by
  obtain ⟨vs, hvs, rfl⟩ := toJson_eq_ok_iff.1 h
  refine Json.legible_array.2 fun w hw => ?_
  obtain ⟨op, hop, hopw⟩ := exists_of_forall₂ hvs.flip hw
  exact hops op hop w hopw

theorem Program.legible_of {p : Program} {v : Json} (h : p.toJson = .ok v)
    (hops : ∀ op ∈ p.operations, ∀ w, op.toJson = .ok w → w.Legible P) : v.Legible P := by
  obtain ⟨vs, hvs, written, hwritten, rfl⟩ := toJson_eq_ok_iff.1 h
  refine ⟨Json.legible_array.2 fun u hu => ?_, Tag.legible_list hwritten, trivial⟩
  obtain ⟨m, hm, hmu⟩ := exists_of_forall₂ hvs.flip hu
  exact Moment.legible_of hmu fun op hop => hops op (List.mem_flatMap.2 ⟨m, hm, hop⟩)

theorem Operation.legible {op : Operation}
    (hfloats : ∀ x ∈ op.floatsWithin, x.isFinite = true → P x) {v : Json}
    (h : op.toJson = .ok v) : v.Legible P := by
  induction op using Operation.nestingInduction generalizing v with
  | gate g qubits tags =>
    rw [floatsWithin_gate] at hfloats
    refine legible_of h fun kind hkind => ?_
    obtain rfl := Except.ok.inj hkind
    exact Json.legible_variant (Gate.legible hfloats)
  | measure key qubits tags =>
    refine legible_of h fun kind hkind => ?_
    obtain rfl := Except.ok.inj hkind
    exact Json.legible_variant ⟨trivial, trivial⟩
  | reset qubits tags =>
    refine legible_of h fun kind hkind => ?_
    obtain rfl := Except.ok.inj hkind
    exact trivial
  | call c qubits tags ih =>
    rw [floatsWithin_call, List.forall_mem_append, Program.floatsWithin, Program.flatMap_parts]
      at hfloats
    refine legible_of h fun kind hkind => ?_
    obtain ⟨program, hprogram, rfl⟩ := Action.toJson_call_eq_ok_iff.1 hkind
    have hinside : program.Legible P := Program.legible_of hprogram fun op hop w hw =>
      ih op hop (fun x hx => hfloats.2 x (List.mem_flatMap.2 ⟨op, hop, hx⟩)) hw
    refine Json.legible_variant (Json.legible_object.2 ?_)
    exact List.forall_mem_cons.2 ⟨hinside, CallSettings.legible hfloats.1⟩
  | guarded op conditions qubits tags ih =>
    rw [floatsWithin_guarded] at hfloats
    refine legible_of h fun kind hkind => ?_
    obtain ⟨w, hw, rfl⟩ := Action.toJson_guarded_eq_ok_iff.1 hkind
    exact Json.legible_variant
      ⟨ih hfloats hw, Json.legible_ofList fun c _ => c.legible, trivial⟩

/-- **The value of a program can be written as a text**, with the finite floats of
    the program. -/
theorem Program.legible {p : Program} (hfloats : ∀ x ∈ p.floatsWithin, x.isFinite = true → P x)
    {v : Json} (h : p.toJson = .ok v) : v.Legible P := by
  rw [floatsWithin, flatMap_parts] at hfloats
  exact legible_of h fun op hop w hw =>
    Operation.legible (fun x hx => hfloats x (List.mem_flatMap.2 ⟨op, hop, hx⟩)) hw

end QuantumProgram
