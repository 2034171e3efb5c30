/-
  QuantumProgram — what can be read from the text of a value.

  A float may come back from its text as another one, so a text can be read as
  something else than what was written.  A decoder demands `P` of what it returns
  for a value if every result satisfies `P` and there was room for the value
  (`Decoder.Demands`).  There is one lemma for each way to put decoders together,
  as for `Decoder.Reads`.
-/
import QuantumProgram.Proofs.Decoding
import QuantumProgram.Proofs.Rereading

namespace QuantumProgram

namespace Decoder

variable {T : JsonFormat} {α β γ : Type} {decode : Decoder α} {a : α} {v : Json}
  {P : α → Prop} {Q : β → Prop}

/-- If the decoder returns anything for the value with its floats read from their
    texts, it may open as many arrays and objects as are inside each other
    there, and what it returns is such that `P`. -/
def Demands (T : JsonFormat) (decode : Decoder α) (v : Json) (P : α → Prop) : Prop :=
  ∀ source room a, decode source room (v.reread T.float) = .ok a → v.depth ≤ room ∧ P a

namespace Demands

theorem imp {P' : α → Prop} (h : Demands T decode v P) (himp : ∀ a, P a → P' a) :
    Demands T decode v P' := fun source room a ha => (h source room a ha).imp_right (himp a)

/-- Whatever is read, there is room for the value. -/
theorem room (h : Demands T decode v P) : Demands T decode v fun _ => True :=
  h.imp fun _ _ => trivial

/-! ## Single values -/

/-- A value without arrays, objects and floats is read as nothing else. -/
theorem of_reads (h : Reads decode a v) (hdepth : v.depth = 0)
    (hreread : v.reread T.float = .ofJson v) : Demands T decode v (· = a) := by
  intro source room b hb
  rw [hreread, h source room (by omega)] at hb
  exact ⟨by omega, (Except.ok.inj hb).symm⟩

theorem text (s : String) : Demands T Decoder.text (.string s) (· = s) := of_reads (.text s) rfl rfl

theorem bool (b : Bool) : Demands T Decoder.bool (.bool b) (· = b) := of_reads (.bool b) rfl rfl

theorem int64 (n : Int64) : Demands T Decoder.int64 (.ofInt64 n) (· = n) :=
  of_reads (.int64 n) rfl rfl

theorem uint32 (n : UInt32) : Demands T Decoder.uint32 (.int n.toNat) (· = n) :=
  of_reads (.uint32 n) rfl rfl

/-- A float is finite if anything is read for it, and restored if what is read has
    the same value. -/
theorem float [T.Lawful] (x : Float) :
    Demands T Decoder.float (.ofFloat x) fun y => sameValue y x = true → T.Restores x := by
  intro source room y hy
  rw [Json.ofFloat] at hy ⊢
  split at hy
  · next hx =>
    rw [if_pos hx]
    refine ⟨Nat.zero_le _, fun hsame => JsonFormat.restores_of_sameValue hx ?_ hsame⟩
    rw [Json.reread] at hy
    obtain ⟨z, hz⟩ | ⟨b, hb⟩ := JsonFormat.Lawful.float_of_finite (T := T) hx
    · rw [hz] at hy
      exact hz.trans (congrArg Document.real (Except.ok.inj hy))
    · rw [hb] at hy
      cases hy
  · cases hy

theorem map {f : α → β} (h : Demands T decode v P) (hf : ∀ a, P a → Q (f a)) :
    Demands T (Decoder.map f decode) v Q := by
  intro source room b hb
  obtain ⟨a, ha, rfl⟩ := map_eq_ok_iff.1 hb
  exact (h source room a ha).imp_right (hf a)

theorem validated {check : α → Except BuildError β} (h : Demands T decode v P)
    (hcheck : ∀ a b, check a = .ok b → P a → Q b) :
    Demands T (Decoder.validated check decode) v Q := by
  intro source room b hb
  obtain ⟨a, ha, hb⟩ := bind_eq_ok_iff.1 hb
  split at hb
  · next heq =>
    obtain rfl := Except.ok.inj hb
    exact (h source room a ha).imp_right (hcheck a _ heq)
  · cases hb

theorem option (h : Demands T decode v P) :
    Demands T (Decoder.option decode) v fun o => ∀ a ∈ o, P a := by
  intro source room o ho
  unfold Decoder.option at ho
  split at ho
  · next heq =>
    obtain rfl := Except.ok.inj ho
    refine ⟨?_, nofun⟩
    cases v with
    | array items | object members => cases heq
    | _ => exact Nat.zero_le _
  · obtain ⟨a, ha, rfl⟩ := map_eq_ok_iff.1 ho
    exact (h source room a ha).imp_right fun hP b hb => Option.some.inj hb ▸ hP

/-! ## Arrays -/

theorem each {R : γ → α → Prop} {cs : List γ} {vs : List Json}
    (h : List.Forall₂ (fun c v => Demands T decode v (R c)) cs vs) {source : Source} {room : ℕ}
    {as : List α} (has : Decoder.each (decode source room) (Json.rereadItems T.float vs) = .ok as) :
    Json.itemsDepth vs ≤ room ∧ List.Forall₂ R cs as := by
  induction h generalizing as with
  | nil =>
    obtain rfl := Except.ok.inj has
    exact ⟨Nat.zero_le _, .nil⟩
  | cons hv _ ih =>
    rw [Json.rereadItems] at has
    simp only [Decoder.each, bind_eq_ok_iff] at has
    obtain ⟨a, ha, as', has', heq⟩ := has
    obtain rfl := Except.ok.inj heq
    obtain ⟨hroom, hR⟩ := hv source room a ha
    obtain ⟨hrooms, hRs⟩ := ih has'
    exact ⟨max_le hroom hrooms, .cons hR hRs⟩

theorem list {R : γ → α → Prop} {cs : List γ} {vs : List Json}
    (h : List.Forall₂ (fun c v => Demands T decode v (R c)) cs vs) :
    Demands T (Decoder.list decode) (.array vs) (List.Forall₂ R cs) := by
  intro source room as has
  cases room with
  | zero => cases has
  | succ room =>
    obtain ⟨as', has', has⟩ := bind_eq_ok_iff.1 has
    obtain rfl := Except.ok.inj has
    exact (each h has').imp_left Nat.succ_le_succ

theorem ofList {write : γ → Json} {R : γ → α → Prop} {cs : List γ}
    (h : ∀ c ∈ cs, Demands T decode (write c) (R c)) :
    Demands T (Decoder.list decode) (.ofList write cs) (List.Forall₂ R cs) :=
  list (List.forall₂_map_right_iff.2 (List.forall₂_same.2 h))

theorem pair {second : Decoder β} {w : Json} (hv : Demands T decode v P)
    (hw : Demands T second w Q) :
    Demands T (Decoder.pair decode second) (.pair v w) fun e => P e.1 ∧ Q e.2 := by
  intro source room e he
  cases room with
  | zero => cases he
  | succ room =>
    obtain ⟨a, ha, he⟩ := bind_eq_ok_iff.1 he
    obtain ⟨b, hb, he⟩ := bind_eq_ok_iff.1 he
    obtain rfl := Except.ok.inj he
    obtain ⟨hroom, hP⟩ := hv source room a ha
    obtain ⟨hroom', hQ⟩ := hw source room b hb
    rw [Json.depth_pair]
    exact ⟨Nat.succ_le_succ (max_le hroom hroom'), hP, hQ⟩

end Demands

/-! ## Fields -/

namespace Fields

/-- The members demand `Q` of the fields; a field with a default is left out or
    not. -/
inductive Asks (T : JsonFormat) :
    {τ σ : Type} → Fields τ σ → List (String × Json) → (τ → Prop) → Prop
  | nil : Asks T .nil [] fun _ => True
  | given {α τ σ : Type} {name : String} {decode : Decoder α} {absent : Option α}
      {rest : Fields τ σ} {v : Json} {members : List (String × Json)} {P : α → Prop}
      {Q : τ → Prop} (h : Demands T decode v P) (hrest : Asks T rest members Q) :
      Asks T (.cons name decode absent rest) ((name, v) :: members) fun t => P t.1 ∧ Q t.2
  | left {α τ σ : Type} {name : String} {decode : Decoder α} {a : α} {rest : Fields τ σ}
      {members : List (String × Json)} {Q : τ → Prop} (hrest : Asks T rest members Q) :
      Asks T (.cons name decode (some a) rest) members fun t => t.1 = a ∧ Q t.2
  | imp {τ σ : Type} {fs : Fields τ σ} {members : List (String × Json)} {Q Q' : τ → Prop}
      (h : Asks T fs members Q) (himp : ∀ t, Q t → Q' t) : Asks T fs members Q'

variable {τ σ : Type} {fs : Fields τ σ} {members : List (String × Json)} {Q : τ → Prop}

/-- Nothing has to be demanded of a value that may be missing. -/
theorem Asks.optional {α : Type} {name : String} {decode : Decoder α} {write : α → Json}
    {o : Option α} (h : ∀ a, Demands T decode (write a) fun _ => True) (hrest : fs.Asks T members Q) :
    (cons name (option decode) (some none) fs).Asks T (Json.optional name write o ++ members)
      fun t => Q t.2 := by
  cases o with
  | none => exact .imp (.left hrest) fun _ hQ => hQ.2
  | some a => exact .imp (.given (.option (h a)) hrest) fun _ hQ => hQ.2

theorem Asks.optional_last {α : Type} {name : String} {decode : Decoder α} {write : α → Json}
    {o : Option α} (h : ∀ a, Demands T decode (write a) fun _ => True) :
    (cons name (option decode) (some none) .nil).Asks T (Json.optional name write o)
      fun _ => True :=
  List.append_nil (Json.optional name write o) ▸ .optional h .nil

theorem Asks.mem_names (h : fs.Asks T members Q) {name : String} {v : Json}
    (hm : (name, v) ∈ members) : name ∈ fs.names := by
  induction h with
  | nil => exact absurd hm List.not_mem_nil
  | given _ _ ih =>
    rcases List.mem_cons.1 hm with heq | hm
    · exact (Prod.mk.inj heq).1 ▸ List.mem_cons_self
    · exact List.mem_cons_of_mem _ (ih hm)
  | left _ ih => exact List.mem_cons_of_mem _ (ih hm)
  | imp _ _ ih => exact ih hm

theorem Asks.ne_of_notMem (h : fs.Asks T members Q) {field : String} (hfield : field ∉ fs.names) :
    ∀ m ∈ Json.rereadMembers T.float members, m.1 ≠ field := by
  rw [Json.rereadMembers_eq, List.forall_mem_map]
  rintro ⟨name, v⟩ hm rfl
  exact hfield (h.mem_names hm)

/-- **What the members demand holds of the fields that are found.** -/
theorem Asks.found (h : fs.Asks T members Q) (hnames : fs.names.Nodup) {source : Source} {room : ℕ}
    {found : σ} {t : τ}
    (hfound : fs.members source room (Json.rereadMembers T.float members) fs.nothing = .ok found)
    (hcomplete : fs.complete found = .ok t) : Json.membersDepth members ≤ room ∧ Q t := by
  induction h with
  | nil => exact ⟨Nat.zero_le _, trivial⟩
  | @given α τ σ name decode absent rest v members P Q hv hrest ih =>
    obtain ⟨hname, hnames⟩ := List.nodup_cons.1 hnames
    rw [Json.rereadMembers, Fields.members] at hfound
    simp only [Fields.note, Fields.nothing, if_pos, bind_eq_ok_iff, map_eq_ok_iff] at hfound
    obtain ⟨_, ⟨a, ha, rfl⟩, hfound⟩ := hfound
    obtain ⟨others, hothers, rfl⟩ :=
      map_eq_ok_iff.1 ((members_cons (hrest.ne_of_notMem hname)).symm.trans hfound)
    obtain ⟨_, ha', hcomplete⟩ := bind_eq_ok_iff.1 hcomplete
    obtain ⟨as, has, hcomplete⟩ := bind_eq_ok_iff.1 hcomplete
    obtain rfl := Except.ok.inj ha'
    obtain rfl := Except.ok.inj hcomplete
    obtain ⟨hroom, hP⟩ := hv source room a ha
    obtain ⟨hrooms, hQ⟩ := ih hnames hothers has
    exact ⟨max_le hroom hrooms, hP, hQ⟩
  | @left α τ σ name decode a rest members Q hrest ih =>
    obtain ⟨hname, hnames⟩ := List.nodup_cons.1 hnames
    obtain ⟨others, hothers, rfl⟩ :=
      map_eq_ok_iff.1 ((members_cons (hrest.ne_of_notMem hname)).symm.trans hfound)
    obtain ⟨_, ha', hcomplete⟩ := bind_eq_ok_iff.1 hcomplete
    obtain ⟨as, has, hcomplete⟩ := bind_eq_ok_iff.1 hcomplete
    obtain rfl := Except.ok.inj ha'
    obtain rfl := Except.ok.inj hcomplete
    exact (ih hnames hothers has).imp_right fun hQ => ⟨rfl, hQ⟩
  | imp _ himp ih => exact (ih hnames hfound hcomplete).imp_right (himp _)

end Fields

namespace Demands

variable {τ σ : Type} {fs : Fields τ σ} {build : τ → α} {members : List (String × Json)}
  {Q : τ → Prop}

theorem record (h : fs.Asks T members Q) (hnames : fs.names.Nodup)
    (hbuild : ∀ t, Q t → P (build t)) :
    Demands T (Decoder.record fs build) (.object members) P := by
  intro source room a ha
  cases room with
  | zero => cases ha
  | succ room =>
    obtain ⟨found, hfound, ha⟩ := bind_eq_ok_iff.1 ha
    obtain ⟨-, -, ha⟩ := bind_eq_ok_iff.1 ha
    obtain ⟨t, hcomplete, ha⟩ := bind_eq_ok_iff.1 ha
    obtain rfl := Except.ok.inj ha
    obtain ⟨hroom, hQ⟩ := h.found hnames hfound hcomplete
    exact ⟨Nat.succ_le_succ hroom, hbuild t hQ⟩

/-! ## Cases -/

theorem caseFields (h : fs.Asks T members Q) (hnames : fs.names.Nodup)
    (hbuild : ∀ t, Q t → P (build t)) :
    Demands T (Decoder.caseFields fs build) (.object members) P := by
  intro source room a ha
  cases source <;> exact record h hnames hbuild _ room a ha

theorem variant {cases : List (Case α)} {name : String}
    (hcase : findCase? name cases = some (.something decode)) (h : Demands T decode v P) :
    Demands T (variants cases) (.variant name v) P := by
  intro source room a ha
  cases room with
  | zero => cases ha
  | succ room =>
    simp only [Json.variant, Json.reread, Json.rereadMembers, variants, hcase, bind_eq_ok_iff] at ha
    obtain ⟨a', ha', -, -, heq⟩ := ha
    obtain rfl := Except.ok.inj heq
    rw [Json.depth_variant]
    exact (h source room a' ha').imp_left Nat.succ_le_succ

theorem unit {cases : List (Case α)} {name : String}
    (hcase : findCase? name cases = some (.nothing a)) :
    Demands T (variants cases) (.string name) (· = a) := of_reads (.unit hcase) rfl rfl

end Demands

/-! ## Recursive types -/

/-- What a decoder that refers to itself may refer to: an unfolding, or nothing
    where no further array or object may be opened. -/
inductive Inner (step : Decoder α → Decoder α) : Decoder α → Prop
  | stopped : Inner step fun _ _ _ => .error (.fault .malformed)
  | unfolded (depth : ℕ) : Inner step (Decoder.unfolded step depth)

namespace Demands

variable {step : Decoder α → Decoder α}

/-- What a step demands with any decoder inside is demanded by the inner decoders. -/
theorem inner (h : ∀ decode, Inner step decode → Demands T (step decode) v P) :
    ∀ decode, Inner step decode → Demands T decode v P := by
  intro decode hdecode
  cases hdecode with
  | stopped => exact fun _ _ _ ha => nomatch ha
  | unfolded depth =>
    cases depth with
    | zero => exact h _ .stopped
    | succ depth => exact h _ (.unfolded depth)

theorem recursive (h : ∀ decode, Inner step decode → Demands T decode v P) :
    Demands T (Decoder.recursive step) v P :=
  fun source room => h _ (.unfolded room) source room

/-! ## Whole texts -/

/-- What is demanded for a value holds of what is read from its text. -/
theorem of_ofTextIn (h : Demands T decode v P) {s : String}
    (hs : T.read s = (v.reread T.float, false)) (ha : decode.ofTextIn T s = .ok a) :
    v.depth ≤ T.room ∧ P a := by
  rw [ofTextIn, hs] at ha
  obtain ⟨a', ha', ha⟩ := bind_eq_ok_iff.1 ha
  obtain rfl := Except.ok.inj ha
  exact h .text T.room a' ha'

end Demands

end Decoder

end QuantumProgram
