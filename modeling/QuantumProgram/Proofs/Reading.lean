/-
  QuantumProgram — reading back what was written.

  A decoder reads `a` from a JSON value if it returns `a` for its document
  wherever there is room for it.  There is one lemma for each way to put decoders
  together.  An object is read if its members hold the fields in their order,
  without some that have a default (`Fields.Writes`).
-/
import QuantumProgram.Json.Decoder
import QuantumProgram.Proofs.Outcomes

namespace QuantumProgram

/-! ## Depth -/

namespace Json

theorem depth_le_itemsDepth {items : List Json} {v : Json} (h : v ∈ items) :
    v.depth ≤ itemsDepth items := by
  induction items with
  | nil => exact absurd h List.not_mem_nil
  | cons w rest ih =>
    rw [itemsDepth]
    rcases List.mem_cons.1 h with rfl | h
    · exact le_max_left _ _
    · exact (ih h).trans (le_max_right _ _)

theorem depth_le_membersDepth {members : List (String × Json)} {name : String} {v : Json}
    (h : (name, v) ∈ members) : v.depth ≤ membersDepth members := by
  induction members with
  | nil => exact absurd h List.not_mem_nil
  | cons m rest ih =>
    obtain ⟨name', w⟩ := m
    rw [membersDepth]
    rcases List.mem_cons.1 h with h | h
    · obtain ⟨rfl, rfl⟩ := Prod.mk.inj h
      exact le_max_left _ _
    · exact (ih h).trans (le_max_right _ _)

theorem depth_lt_array {items : List Json} {v : Json} (h : v ∈ items) :
    v.depth < (array items).depth := by
  rw [depth]
  exact Nat.lt_succ_of_le (depth_le_itemsDepth h)

theorem depth_lt_object {members : List (String × Json)} {name : String} {v : Json}
    (h : (name, v) ∈ members) : v.depth < (object members).depth := by
  rw [depth]
  exact Nat.lt_succ_of_le (depth_le_membersDepth h)

theorem depth_lt_first {name : String} {v : Json} {members : List (String × Json)} :
    v.depth < (object ((name, v) :: members)).depth :=
  depth_lt_object List.mem_cons_self

theorem depth_variant (name : String) (contents : Json) :
    (variant name contents).depth = contents.depth + 1 := by
  simp [variant, depth, membersDepth]

theorem depth_pair (v w : Json) : (pair v w).depth = max v.depth w.depth + 1 := by
  simp [pair, depth, itemsDepth]

end Json

theorem Document.ofMembers_eq (members : List (String × Json)) :
    ofMembers members = members.map fun m => (m.1, ofJson m.2) := by
  induction members with
  | nil => rfl
  | cons m rest ih => rw [ofMembers, ih, List.map_cons]

/-! ## Comparing documents and values -/

mutual

/-- Whether a document is that of a value. -/
def Document.isOf : Document → Json → Bool
  | .null, .null => true
  | .bool b, .bool c => b = c
  | .int m, .int n => m = n
  | .real x, .real y => x = y
  | .string s, .string t => s = t
  | .array ds .closed, .array vs => itemsAreOf ds vs
  | .object ds .closed, .object vs => membersAreOf ds vs
  | _, _ => false
termination_by structural d => d

def itemsAreOf : List Document → List Json → Bool
  | [], [] => true
  | d :: ds, v :: vs => d.isOf v && itemsAreOf ds vs
  | _, _ => false
termination_by structural ds => ds

def membersAreOf : List (String × Document) → List (String × Json) → Bool
  | [], [] => true
  | (name, d) :: ds, (name', v) :: vs => name = name' && d.isOf v && membersAreOf ds vs
  | _, _ => false
termination_by structural ds => ds

end

mutual

theorem Document.eq_ofJson_of_isOf : ∀ {d : Document} {v : Json}, d.isOf v = true →
    d = .ofJson v
  | .null, .null, _ => rfl
  | .bool _, .bool _, h => congrArg Document.bool (of_decide_eq_true h)
  | .int _, .int _, h => congrArg Document.int (of_decide_eq_true h)
  | .real _, .real _, h => congrArg Document.real (of_decide_eq_true h)
  | .string _, .string _, h => congrArg Document.string (of_decide_eq_true h)
  | .array _ .closed, .array _, h =>
    congrArg (Document.array · .closed) (eq_ofItems_of_itemsAreOf h)
  | .object _ .closed, .object _, h =>
    congrArg (Document.object · .closed) (eq_ofMembers_of_membersAreOf h)

theorem eq_ofItems_of_itemsAreOf : ∀ {ds : List Document} {vs : List Json},
    itemsAreOf ds vs = true → ds = Document.ofItems vs
  | [], [], _ => rfl
  | _ :: _, _ :: _, h => by
    obtain ⟨hd, hds⟩ := Bool.and_eq_true_iff.1 h
    rw [Document.ofItems, Document.eq_ofJson_of_isOf hd, eq_ofItems_of_itemsAreOf hds]

theorem eq_ofMembers_of_membersAreOf : ∀ {ds : List (String × Document)}
    {vs : List (String × Json)}, membersAreOf ds vs = true → ds = Document.ofMembers vs
  | [], [], _ => rfl
  | (_, _) :: _, (_, _) :: _, h => by
    obtain ⟨hd, hds⟩ := Bool.and_eq_true_iff.1 h
    obtain ⟨hname, hd⟩ := Bool.and_eq_true_iff.1 hd
    rw [Document.ofMembers, of_decide_eq_true hname, Document.eq_ofJson_of_isOf hd,
      eq_ofMembers_of_membersAreOf hds]

end

/-- A text has the document of a value if the comparison says so. -/
theorem Document.ofText_eq_of_isOf {s : String} {v : Json}
    (h : ((ofText s).1.isOf v && !(ofText s).2) = true) : ofText s = (.ofJson v, false) := by
  rw [Bool.and_eq_true, Bool.not_eq_true'] at h
  exact Prod.ext (eq_ofJson_of_isOf h.1) h.2

namespace Decoder

variable {α β : Type} {decode : Decoder α} {a : α} {v : Json}

/-- The decoder returns `a` for the document of `v` if it may open as many
    arrays and objects as are inside each other there. -/
def Reads (decode : Decoder α) (a : α) (v : Json) : Prop :=
  ∀ source room, v.depth ≤ room → decode source room (.ofJson v) = .ok a

namespace Reads

/-! ## Single values -/

theorem text (s : String) : Reads Decoder.text s (.string s) := fun _ _ _ => rfl

theorem bool (b : Bool) : Reads Decoder.bool b (.bool b) := fun _ _ _ => rfl

theorem int64 (n : Int64) : Reads Decoder.int64 n (.ofInt64 n) := by
  intro source room _
  show inRange (int64? n.toInt) = .ok n
  rw [int64?_toInt]
  rfl

theorem uint32 (n : UInt32) : Reads Decoder.uint32 n (.int n.toNat) := by
  intro source room _
  have hrange : 0 ≤ (n.toNat : Int) ∧ (n.toNat : Int) < UInt32.size :=
    ⟨Int.natCast_nonneg _, Int.ofNat_lt.2 n.toNat_lt⟩
  show inRange (if 0 ≤ (n.toNat : Int) ∧ (n.toNat : Int) < UInt32.size then
    some (UInt32.ofNat (n.toNat : Int).toNat) else none) = .ok n
  rw [if_pos hrange, Int.toNat_natCast, UInt32.ofNat_toNat]
  rfl

theorem float {x : Float} (h : x.isFinite = true) : Reads Decoder.float x (.ofFloat x) := by
  intro source room _
  rw [Json.ofFloat, if_pos h]
  rfl

theorem map {f : α → β} (h : Reads decode a v) : Reads (Decoder.map f decode) (f a) v := by
  intro source room hroom
  rw [Decoder.map, h source room hroom]
  rfl

theorem validated {check : α → Except BuildError β} {b : β} (h : Reads decode a v)
    (hcheck : check a = .ok b) : Reads (Decoder.validated check decode) b v := by
  intro source room hroom
  have hdecode := h source room hroom
  simp only [Decoder.validated, hdecode, hcheck, bind, Except.bind, pure, Except.pure]

theorem option_some (h : Reads decode a v) (hv : v ≠ .null) :
    Reads (option decode) (some a) v := by
  intro source room hroom
  have hdocument : Document.ofJson v ≠ .null := by
    cases v <;> simp [Document.ofJson] at hv ⊢
  unfold Decoder.option
  split
  · next heq => exact absurd heq hdocument
  · rw [h source room hroom]
    rfl

/-! ## Arrays -/

theorem each_ofItems {as : List α} {vs : List Json} (h : List.Forall₂ (Reads decode) as vs)
    {source : Source} {room : ℕ} (hroom : Json.itemsDepth vs ≤ room) :
    each (decode source room) (Document.ofItems vs) = .ok as := by
  induction h with
  | nil => rfl
  | cons ha _ ih =>
    rw [Json.itemsDepth, max_le_iff] at hroom
    rw [Document.ofItems, each, ha source room hroom.1, ih hroom.2]
    rfl

theorem list {as : List α} {vs : List Json} (h : List.Forall₂ (Reads decode) as vs) :
    Reads (Decoder.list decode) as (.array vs) := by
  intro source room hroom
  rw [Json.depth] at hroom
  cases room with
  | zero => exact absurd hroom (by omega)
  | succ room =>
    have heach : each (decode source room) (Document.ofItems vs) = .ok as :=
      each_ofItems h (by omega)
    simp only [Decoder.list, opened, Document.ofJson, heach, endOfItems, bind, Except.bind, pure,
      Except.pure]

theorem ofList {write : α → Json} {as : List α} (h : ∀ a ∈ as, Reads decode a (write a)) :
    Reads (Decoder.list decode) as (.ofList write as) :=
  list (List.forall₂_map_right_iff.2 (List.forall₂_same.2 h))

theorem pair {second : Decoder β} {b : β} {w : Json} (ha : Reads decode a v)
    (hb : Reads second b w) : Reads (Decoder.pair decode second) (a, b) (.pair v w) := by
  intro source room hroom
  rw [Json.depth_pair] at hroom
  cases room with
  | zero => exact absurd hroom (by omega)
  | succ room =>
    have ha' := ha source room (by omega)
    have hb' := hb source room (by omega)
    simp only [Decoder.pair, opened, Json.pair, Document.ofJson, Document.ofItems, ha', hb',
      noMoreItems, endOfItems, bind, Except.bind, pure, Except.pure]

/-- Pairs are read if their halves are. -/
theorem pairs {second : Decoder β} {write : α → Json} {write' : β → Json} {l : List (α × β)}
    (h : ∀ e ∈ l, Reads decode e.1 (write e.1)) (h' : ∀ e ∈ l, Reads second e.2 (write' e.2)) :
    Reads (Decoder.list (.pair decode second)) l
      (.ofList (fun (a, b) => .pair (write a) (write' b)) l) :=
  ofList fun e he => pair (h e he) (h' e he)

end Reads

/-! ## Fields -/

namespace Fields

def names : {τ σ : Type} → Fields τ σ → List String
  | _, _, nil => []
  | _, _, cons name _ _ rest => name :: rest.names

/-- The members hold the fields of `t` in their order; a field with a default is
    left out or not. -/
inductive Writes : {τ σ : Type} → Fields τ σ → τ → List (String × Json) → Prop
  | nil : Writes .nil () []
  | given {α τ σ : Type} {name : String} {decode : Decoder α} {absent : Option α}
      {rest : Fields τ σ} {a : α} {v : Json} {t : τ} {members : List (String × Json)}
      (h : Reads decode a v) (hrest : Writes rest t members) :
      Writes (.cons name decode absent rest) (a, t) ((name, v) :: members)
  | left {α τ σ : Type} {name : String} {decode : Decoder α} {rest : Fields τ σ} {a : α} {t : τ}
      {members : List (String × Json)} (hrest : Writes rest t members) :
      Writes (.cons name decode (some a) rest) (a, t) members

/-- A value that may be missing is given or left out. -/
theorem Writes.optional {α τ σ : Type} {name : String} {decode : Decoder α} {write : α → Json}
    {rest : Fields τ σ} {o : Option α} {t : τ} {members : List (String × Json)}
    (h : ∀ a, Reads decode a (write a)) (hwrite : ∀ a, write a ≠ .null)
    (hrest : rest.Writes t members) :
    (cons name (option decode) (some none) rest).Writes (o, t)
      (Json.optional name write o ++ members) := by
  cases o with
  | none => exact .left hrest
  | some a => exact .given (.option_some (h a) (hwrite a)) hrest

theorem Writes.optional_last {α : Type} {name : String} {decode : Decoder α} {write : α → Json}
    {o : Option α} (h : ∀ a, Reads decode a (write a)) (hwrite : ∀ a, write a ≠ .null) :
    (cons name (option decode) (some none) .nil).Writes (o, ()) (Json.optional name write o) :=
  List.append_nil (Json.optional name write o) ▸ .optional h hwrite .nil

theorem Writes.mem_names {τ σ : Type} {fs : Fields τ σ} {t : τ} {members : List (String × Json)}
    (h : fs.Writes t members) {name : String} {v : Json} (hm : (name, v) ∈ members) :
    name ∈ fs.names := by
  induction h with
  | nil => exact absurd hm List.not_mem_nil
  | given _ _ ih =>
    rcases List.mem_cons.1 hm with heq | hm
    · exact (Prod.mk.inj heq).1 ▸ List.mem_cons_self
    · exact List.mem_cons_of_mem _ (ih hm)
  | left _ ih => exact List.mem_cons_of_mem _ (ih hm)

theorem Writes.ne_of_notMem {τ σ : Type} {fs : Fields τ σ} {t : τ} {members : List (String × Json)}
    (h : fs.Writes t members) {field : String} (hfield : field ∉ fs.names) :
    ∀ m ∈ Document.ofMembers members, m.1 ≠ field := by
  rw [Document.ofMembers_eq, List.forall_mem_map]
  rintro ⟨name, v⟩ hm rfl
  exact hfield (h.mem_names hm)

/-- Members of other names leave the first field alone. -/
theorem members_cons {α τ σ : Type} {field : String} {decode : Decoder α} {absent : Option α}
    {rest : Fields τ σ} {source : Source} {room : ℕ} {first : Option α} :
    ∀ {members : List (String × Document)} {found : σ}, (∀ m ∈ members, m.1 ≠ field) →
      (cons field decode absent rest).members source room members (first, found) =
        (rest.members source room members found).map (first, ·)
  | [], _, _ => rfl
  | (name, d) :: members, found, h => by
    obtain ⟨hname, hmembers⟩ := List.forall_mem_cons.1 h
    rw [Fields.members, Fields.members]
    simp only [Fields.note, if_neg hname]
    cases rest.note source room name d found with
    | error e => rfl
    | ok found' => exact members_cons hmembers

/-- **Members that hold the fields are read as these fields.** -/
theorem Writes.read {τ σ : Type} {fs : Fields τ σ} {t : τ} {members : List (String × Json)}
    (h : fs.Writes t members) (hnames : fs.names.Nodup) {source : Source} {room : ℕ}
    (hroom : Json.membersDepth members ≤ room) :
    ∃ found, fs.members source room (Document.ofMembers members) fs.nothing = .ok found ∧
      fs.complete found = .ok t := by
  induction h with
  | nil => exact ⟨(), rfl, rfl⟩
  | @given α τ σ name decode absent rest a v t members ha hrest ih =>
    rw [Json.membersDepth, max_le_iff] at hroom
    obtain ⟨hname, hnames⟩ := List.nodup_cons.1 hnames
    obtain ⟨found, hfound, hcomplete⟩ := ih hnames hroom.2
    have hother := hrest.ne_of_notMem hname
    refine ⟨(some a, found), ?_, ?_⟩
    · rw [Document.ofMembers, Fields.members]
      simp only [Fields.note, Fields.nothing, if_pos, ha source room hroom.1]
      exact (members_cons hother).trans (by rw [hfound]; rfl)
    · rw [Fields.complete, hcomplete]
      rfl
  | @left α τ σ name decode rest a t members hrest ih =>
    obtain ⟨hname, hnames⟩ := List.nodup_cons.1 hnames
    obtain ⟨found, hfound, hcomplete⟩ := ih hnames hroom
    refine ⟨(none, found), ?_, ?_⟩
    · exact (members_cons (hrest.ne_of_notMem hname)).trans (by rw [hfound]; rfl)
    · rw [Fields.complete, hcomplete]
      rfl

end Fields

namespace Reads

variable {τ σ : Type} {fs : Fields τ σ} {build : τ → α} {t : τ} {members : List (String × Json)}

theorem record (h : fs.Writes t members) (hnames : fs.names.Nodup) :
    Reads (Decoder.record fs build) (build t) (.object members) := by
  intro source room hroom
  rw [Json.depth] at hroom
  cases room with
  | zero => exact absurd hroom (by omega)
  | succ room =>
    obtain ⟨found, hfound, hcomplete⟩ :
        ∃ found, fs.members source room (Document.ofMembers members) fs.nothing = .ok found ∧
          fs.complete found = .ok t := h.read hnames (by omega)
    simp only [Decoder.record, Document.ofJson, hfound, hcomplete, endOfItems, bind, Except.bind,
      pure, Except.pure]

/-! ## Cases -/

theorem caseFields (h : fs.Writes t members) (hnames : fs.names.Nodup) :
    Reads (Decoder.caseFields fs build) (build t) (.object members) := by
  intro source room hroom
  cases source <;> exact record h hnames _ room hroom

/-- A case that holds something is read from the variant of its name. -/
theorem variant {cases : List (Case α)} {name : String}
    (hcase : findCase? name cases = some (.something decode)) (h : Reads decode a v) :
    Reads (variants cases) a (.variant name v) := by
  intro source room hroom
  rw [Json.depth_variant] at hroom
  cases room with
  | zero => exact absurd hroom (by omega)
  | succ room =>
    have hdecode := h source room (by omega)
    simp only [Json.variant, Document.ofJson, Document.ofMembers, variants, hcase, Contents.read,
      hdecode, noMoreMembers, noMoreItems, endOfItems, bind, Except.bind, pure, Except.pure]

/-- A case that holds nothing is read from its name. -/
theorem unit {cases : List (Case α)} {name : String}
    (hcase : findCase? name cases = some (.nothing a)) :
    Reads (variants cases) a (.string name) := by
  intro source room _
  simp only [Document.ofJson, variants, hcase]

/-! ## Recursive types -/

/-- Unfolding a decoder as often as arrays and objects are inside each other is
    enough. -/
theorem recursive {step : Decoder α → Decoder α}
    (h : ∀ depth, v.depth ≤ depth → Reads (unfolded step depth) a v) :
    Reads (Decoder.recursive step) a v :=
  fun source room hroom => h room hroom source room hroom

/-- What a step reads with any decoder inside is read at any depth. -/
theorem unfolded_of_step {step : Decoder α → Decoder α} (h : ∀ decode, Reads (step decode) a v)
    (depth : ℕ) : Reads (unfolded step depth) a v := by
  cases depth with
  | zero => exact h _
  | succ depth => exact h _

/-- What has arrays or objects inside each other leaves one unfolding less for
    what is inside. -/
theorem unfolded_of_pos {step : Decoder α → Decoder α} (hv : 0 < v.depth)
    (h : ∀ depth, v.depth ≤ depth + 1 → Reads (step (unfolded step depth)) a v) :
    ∀ depth, v.depth ≤ depth → Reads (unfolded step depth) a v := by
  intro depth hdepth
  cases depth with
  | zero => exact absurd hdepth (Nat.not_le_of_lt hv)
  | succ depth => exact h depth hdepth

theorem unfolded_variant {step : Decoder α → Decoder α} {name : String}
    (h : ∀ depth, v.depth ≤ depth → Reads (step (unfolded step depth)) a (.variant name v)) :
    ∀ depth, (Json.variant name v).depth ≤ depth →
      Reads (unfolded step depth) a (.variant name v) := by
  have hdepth := Json.depth_variant name v
  exact unfolded_of_pos (by omega) fun depth hle => h depth (by omega)

/-! ## Whole values and texts -/

theorem ofJson_eq (h : Reads decode a v) : decode.ofJson v = .ok a := by
  rw [ofJson, h .value v.depth le_rfl]

/-- A text whose document is that of a value is read as the value. -/
theorem ofTextIn_eq {T : JsonFormat} (h : Reads decode a v) (hv : v.depth ≤ T.room) {s : String}
    (hs : T.read s = (.ofJson v, false)) : decode.ofTextIn T s = .ok a := by
  have hdecode : decode .text T.room (.ofJson v) = .ok a := h .text T.room hv
  rw [ofTextIn, hs]
  simp only [hdecode, bind, Except.bind, pure, Except.pure]
  rfl

end Reads

end Decoder

end QuantumProgram
