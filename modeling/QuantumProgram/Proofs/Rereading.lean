/-
  QuantumProgram — what the text of a value is read as.

  Numbers of 64 bits and finite floats can be written in a text.  A format is
  lawful if the text of a value of such numbers is read as the value with each float
  read anew from its own text (`JsonFormat.Lawful`), and so as the value itself if
  all of its floats are restored (`Json.Legible.reread_eq`).  A float that is read as
  one of the same value is restored (`JsonFormat.restores_of_sameValue`).  The
  format of all files is lawful.
-/
import Mathlib
import QuantumProgram.Proofs.Equality
import QuantumProgram.Proofs.Reading
import QuantumProgram.Proofs.RenderedText

namespace QuantumProgram

namespace Json

mutual

/-- The document of a value whose floats are read as `float` has it. -/
def reread (float : Float → Document) : Json → Document
  | null => .null
  | bool b => .bool b
  | int n => .int n
  | real x => float x
  | string s => .string s
  | array items => .array (rereadItems float items) .closed
  | object members => .object (rereadMembers float members) .closed
termination_by structural v => v

def rereadItems (float : Float → Document) : List Json → List Document
  | [] => []
  | v :: rest => v.reread float :: rereadItems float rest
termination_by structural vs => vs

def rereadMembers (float : Float → Document) : List (String × Json) → List (String × Document)
  | [] => []
  | (name, v) :: rest => (name, v.reread float) :: rereadMembers float rest
termination_by structural ms => ms

end

theorem rereadMembers_eq (float : Float → Document) (members : List (String × Json)) :
    rereadMembers float members = members.map fun m => (m.1, m.2.reread float) := by
  induction members with
  | nil => rfl
  | cons m rest ih => rw [rereadMembers, ih, List.map_cons]

mutual

/-- All numbers in the value have 64 bits, and floats are such that `P`. -/
def Legible (P : Float → Prop) : Json → Prop
  | null => True
  | bool _ => True
  | int n => -2 ^ 63 ≤ n ∧ n < 2 ^ 64
  | real x => P x
  | string _ => True
  | array items => ItemsLegible P items
  | object members => MembersLegible P members
termination_by structural v => v

def ItemsLegible (P : Float → Prop) : List Json → Prop
  | [] => True
  | v :: rest => v.Legible P ∧ ItemsLegible P rest
termination_by structural vs => vs

def MembersLegible (P : Float → Prop) : List (String × Json) → Prop
  | [] => True
  | (_, v) :: rest => v.Legible P ∧ MembersLegible P rest
termination_by structural ms => ms

end

theorem legible_array {P : Float → Prop} {items : List Json} :
    (array items).Legible P ↔ ∀ v ∈ items, v.Legible P := by
  rw [Legible]
  induction items with
  | nil => simp [ItemsLegible]
  | cons v rest ih => rw [ItemsLegible, ih, List.forall_mem_cons]

theorem legible_object {P : Float → Prop} {members : List (String × Json)} :
    (object members).Legible P ↔ ∀ m ∈ members, m.2.Legible P := by
  rw [Legible]
  induction members with
  | nil => simp [MembersLegible]
  | cons m rest ih =>
    obtain ⟨name, v⟩ := m
    rw [MembersLegible, ih, List.forall_mem_cons]

end Json

section
variable {float : Float → Document} {P : Float → Prop}

mutual

theorem Json.Legible.reread_eq (hP : ∀ x, P x → float x = .real x) :
    ∀ {v : Json}, v.Legible P → v.reread float = .ofJson v
  | .null, _ => rfl
  | .bool _, _ => rfl
  | .int _, _ => rfl
  | .real x, h => hP x h
  | .string _, _ => rfl
  | .array _, h => congrArg (Document.array · .closed) (Json.ItemsLegible.reread_eq hP h)
  | .object _, h => congrArg (Document.object · .closed) (Json.MembersLegible.reread_eq hP h)

theorem Json.ItemsLegible.reread_eq (hP : ∀ x, P x → float x = .real x) :
    ∀ {items : List Json}, Json.ItemsLegible P items →
      Json.rereadItems float items = Document.ofItems items
  | [], _ => rfl
  | _ :: _, ⟨h, hrest⟩ =>
    congrArg₂ List.cons (h.reread_eq hP) (Json.ItemsLegible.reread_eq hP hrest)

theorem Json.MembersLegible.reread_eq (hP : ∀ x, P x → float x = .real x) :
    ∀ {members : List (String × Json)}, Json.MembersLegible P members →
      Json.rereadMembers float members = Document.ofMembers members
  | [], _ => rfl
  | (name, _) :: _, ⟨h, hrest⟩ => congrArg₂ (fun d ms => (name, d) :: ms) (h.reread_eq hP)
    (Json.MembersLegible.reread_eq hP hrest)

end

end

/-! ## Lawful formats -/

namespace JsonFormat

/-- What is read from the text of a float. -/
def float (T : JsonFormat) (x : Float) : Document := (T.read (T.write (.real x))).1

/-- The text of the float is read as the float; `null` is written for a float that
    is not finite. -/
def Restores (T : JsonFormat) (x : Float) : Prop :=
  T.read (T.write (.ofFloat x)) = (.real x, false)

/-- What persisted programs rely on. -/
class Lawful (T : JsonFormat) : Prop where
  /-- Floats apart, a value whose numbers can be written is read from its text. -/
  read_write {v : Json} (h : v.Legible fun x => x.isFinite = true) :
    T.read (T.write v) = (v.reread T.float, false)
  /-- A finite float is read as a float, or not at all. -/
  float_of_finite {x : Float} (hx : x.isFinite = true) :
    (∃ y, T.float x = .real y) ∨ ∃ b, T.float x = .unreadable b
  /-- Zeros keep their signs. -/
  restores_zero : T.Restores 0.0
  restores_negZero : T.Restores (-0.0)

variable {T : JsonFormat} {x y : Float}

theorem restores_iff : T.Restores x ↔ ((T.read (T.write (.ofFloat x))).1.isOf (.real x) &&
    !(T.read (T.write (.ofFloat x))).2) = true := by
  rw [Restores, Bool.and_eq_true, Bool.not_eq_true']
  constructor
  · intro h
    rw [h]
    exact ⟨decide_eq_true rfl, rfl⟩
  · exact fun h => Prod.ext (Document.eq_ofJson_of_isOf h.1) h.2

instance : Decidable (T.Restores x) := decidable_of_iff' _ restores_iff

section
variable [T.Lawful]

theorem read_ofFloat (hx : x.isFinite = true) :
    T.read (T.write (.ofFloat x)) = (T.float x, false) := by
  rw [Json.ofFloat, if_pos hx]
  exact Lawful.read_write (v := .real x) hx

/-- The text of NaN and of the infinities is read as no float. -/
theorem Restores.isFinite (h : T.Restores x) : x.isFinite = true := by
  by_contra hx
  have hnull : T.read (T.write .null) = (.null, false) := Lawful.read_write (v := .null) trivial
  rw [Restores, Json.ofFloat, if_neg hx, hnull] at h
  cases congrArg Prod.fst h

theorem Restores.float_eq (h : T.Restores x) : T.float x = .real x :=
  congrArg Prod.fst ((read_ofFloat h.isFinite).symm.trans h)

end

end JsonFormat

/-- Finite floats of the same value are equal, up to the sign of zero. -/
theorem eq_or_eq_zero_of_sameValue {x y : Float} (hx : x.isFinite = true)
    (h : sameValue y x = true) : y = x ∨ x = 0.0 ∨ x = -0.0 := by
  have hbeq : (y == x) = true := by
    rw [sameValue, Json.isNaN_eq_false hx, Bool.and_false, Bool.or_false] at h
    exact h
  obtain heq | ⟨-, hzero⟩ := eq_or_zeros_of_beq hbeq
  · exact Or.inl heq
  · obtain ⟨s, hs⟩ := beq_zero_iff.1 hzero
    right
    cases s with
    | positive => exact Or.inl (eq_of_unpack_eq (hs.trans rfl))
    | negative => exact Or.inr (eq_of_unpack_eq (hs.trans rfl))

/-- **A float is restored if it is read as one of the same value.** -/
theorem JsonFormat.restores_of_sameValue {T : JsonFormat} [T.Lawful] {x y : Float}
    (hx : x.isFinite = true) (hread : T.float x = .real y) (h : sameValue y x = true) :
    T.Restores x := by
  rcases eq_or_eq_zero_of_sameValue hx h with rfl | rfl | rfl
  · rw [Restores, read_ofFloat hx, hread]
  · exact Lawful.restores_zero
  · exact Lawful.restores_negZero

/-! ## The format of all files -/

section
open Document (ReadAs ReadMember)

/-- The text of a finite float is read as the value of a numeral. -/
theorem JsonFormat.compact_float {x : Float} (hx : x.isFinite = true) :
    ∃ n, compact.float x = Document.realValue n ∧ ReadAs (.real x) (compact.float x) := by
  obtain ⟨n, hn⟩ := Document.readAs_real hx
  have hfloat : compact.float x = Document.realValue n := congrArg Prod.fst hn.ofText_eq
  exact ⟨n, hfloat, hfloat ▸ hn⟩

mutual

theorem Json.Legible.readAs : ∀ {v : Json}, v.Legible (fun x => x.isFinite = true) →
    ReadAs v (v.reread JsonFormat.compact.float)
  | .null, _ => Document.readAs_null
  | .bool b, _ => Document.readAs_bool b
  | .int _, ⟨hlow, hhigh⟩ => Document.readAs_int hlow hhigh
  | .real _, hx => by
    obtain ⟨-, -, hread⟩ := JsonFormat.compact_float hx
    exact hread
  | .string s, _ => Document.readAs_string s
  | .array _, h => Document.readAs_array (Json.ItemsLegible.readAs h)
  | .object _, h => Document.readAs_object (Json.MembersLegible.readAs h)

theorem Json.ItemsLegible.readAs :
    ∀ {items : List Json}, Json.ItemsLegible (fun x => x.isFinite = true) items →
      List.Forall₂ ReadAs items (Json.rereadItems JsonFormat.compact.float items)
  | [], _ => .nil
  | _ :: _, ⟨h, hrest⟩ => .cons h.readAs (Json.ItemsLegible.readAs hrest)

theorem Json.MembersLegible.readAs :
    ∀ {members : List (String × Json)}, Json.MembersLegible (fun x => x.isFinite = true) members →
      List.Forall₂ ReadMember members (Json.rereadMembers JsonFormat.compact.float members)
  | [], _ => .nil
  | (_, _) :: _, ⟨h, hrest⟩ => .cons ⟨rfl, h.readAs⟩ (Json.MembersLegible.readAs hrest)

end

end

/-- **The format of all files is lawful.** -/
instance : JsonFormat.compact.Lawful where
  read_write h := h.readAs.ofText_eq
  float_of_finite hx := by
    obtain ⟨n, hn, -⟩ := JsonFormat.compact_float hx
    rw [hn, Document.realValue]
    split
    · exact Or.inl ⟨_, rfl⟩
    · exact Or.inr ⟨_, rfl⟩
  restores_zero := by decide +kernel
  restores_negZero := by decide +kernel

/-- Not every finite float is restored: a numeral is not always read exactly. -/
example : JsonFormat.compact.Restores 0.1 ∧
    ¬ JsonFormat.compact.Restores 7.751518962134485e-29 := by decide +kernel

end QuantumProgram
