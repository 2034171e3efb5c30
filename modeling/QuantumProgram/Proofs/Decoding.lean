/-
  QuantumProgram — what decoders can return.

  A decoder gives a value if it returns it for some document.  The lemmas here
  go back from what a decoder gives to what its parts give, so that a property
  of all decoded values is shown along the structure of their decoder
  (`Gives.of_recursive` for one that refers to itself).
-/
import QuantumProgram.Json.Decoder
import QuantumProgram.Proofs.Outcomes

namespace QuantumProgram

namespace Decoder

variable {α β : Type} {decode : Decoder α}

/-- The decoder returns `a` for some document. -/
def Gives (decode : Decoder α) (a : α) : Prop := ∃ source room d, decode source room d = .ok a

namespace Gives

theorem of_map {f : α → β} {b : β} (h : Gives (map f decode) b) : ∃ a, Gives decode a ∧ f a = b := by
  obtain ⟨source, room, d, h⟩ := h
  obtain ⟨a, ha, rfl⟩ := map_eq_ok_iff.1 h
  exact ⟨a, ⟨source, room, d, ha⟩, rfl⟩

/-- Only values that pass the check are given. -/
theorem of_validated {check : α → Except BuildError β} {b : β}
    (h : Gives (validated check decode) b) : ∃ a, Gives decode a ∧ check a = .ok b := by
  obtain ⟨source, room, d, h⟩ := h
  obtain ⟨a, ha, hcheck⟩ := bind_eq_ok_iff.1 h
  refine ⟨a, ⟨source, room, d, ha⟩, ?_⟩
  split at hcheck
  · next heq => rw [heq, Except.ok.inj hcheck]
  · exact absurd hcheck (by simp [throw, throwThe, MonadExceptOf.throw])

/-! ## Lists -/

theorem of_each {decode : Document → Decoded α} : ∀ {ds : List Document} {as : List α},
    each decode ds = .ok as → ∀ a ∈ as, ∃ d, decode d = .ok a
  | [], as, h => by
    obtain rfl := Except.ok.inj h
    exact fun a ha => absurd ha List.not_mem_nil
  | d :: ds, as, h => by
    simp only [each, bind_eq_ok_iff] at h
    obtain ⟨a, ha, as', has', heq⟩ := h
    obtain rfl := Except.ok.inj heq
    intro b hb
    rcases List.mem_cons.1 hb with rfl | hb
    · exact ⟨d, ha⟩
    · exact of_each has' b hb

theorem of_list {as : List α} (h : Gives (list decode) as) : ∀ a ∈ as, Gives decode a := by
  obtain ⟨source, room, d, h⟩ := h
  unfold list opened at h
  split at h
  · exact absurd h (by simp)
  · next room' items ending =>
    simp only [bind_eq_ok_iff] at h
    obtain ⟨as', has', -, -, heq⟩ := h
    obtain rfl := Except.ok.inj heq
    intro a ha
    obtain ⟨d, hd⟩ := of_each has' a ha
    exact ⟨source, room', d, hd⟩
  · exact absurd h (by simp)

end Gives

/-! ## Fields -/

namespace Fields

/-- Each field has a value that its decoder gives or that stands in for it. -/
def CanHold : {τ σ : Type} → Fields τ σ → τ → Prop
  | _, _, nil, _ => True
  | _, _, cons _ decode absent rest, (a, others) =>
    (Gives decode a ∨ absent = some a) ∧ rest.CanHold others

/-- A field without a default is given. -/
theorem CanHold.required {τ σ : Type} {name : String} {rest : Fields τ σ} {a : α} {others : τ}
    (h : (cons name decode none rest).CanHold (a, others)) : Gives decode a := by
  rcases h.1 with hgives | habsent
  · exact hgives
  · exact absurd habsent (by simp)

/-- Each field that has been found has a value that its decoder gives. -/
def CanFind : {τ σ : Type} → Fields τ σ → σ → Prop
  | _, _, nil, _ => True
  | _, _, cons _ decode _ rest, (found, others) =>
    (∀ a, found = some a → Gives decode a) ∧ rest.CanFind others

theorem canFind_nothing : {τ σ : Type} → (fs : Fields τ σ) → fs.CanFind fs.nothing
  | _, _, nil => trivial
  | _, _, cons _ _ _ rest => ⟨fun _ h => absurd h (by simp), rest.canFind_nothing⟩

theorem CanFind.note {source : Source} {room : Nat} {name : String} {d : Document} :
    {τ σ : Type} → {fs : Fields τ σ} → {found found' : σ} → fs.CanFind found →
      fs.note source room name d found = .ok found' → fs.CanFind found'
  | _, _, nil, _, _, _, _ => trivial
  | _, _, cons field decode absent rest, (found, others), (found', others'), h, hnote => by
    simp only [Fields.note] at hnote
    split_ifs at hnote
    · split at hnote
      · exact absurd hnote (by simp)
      · obtain ⟨a, ha, heq⟩ := map_eq_ok_iff.1 hnote
        obtain ⟨rfl, rfl⟩ := Prod.mk.inj heq
        exact ⟨fun b hb => ⟨source, room, d, Option.some.inj hb ▸ ha⟩, h.2⟩
    · obtain ⟨others'', hothers, heq⟩ := map_eq_ok_iff.1 hnote
      obtain ⟨rfl, rfl⟩ := Prod.mk.inj heq
      exact ⟨h.1, h.2.note hothers⟩

theorem CanFind.members {τ σ : Type} {fs : Fields τ σ} {source : Source} {room : Nat} :
    ∀ {ms : List (String × Document)} {found found' : σ}, fs.CanFind found →
      fs.members source room ms found = .ok found' → fs.CanFind found'
  | [], _, _, h, hmembers => Except.ok.inj hmembers ▸ h
  | (name, d) :: rest, _, _, h, hmembers => by
    rw [Fields.members, bind_eq_ok_iff] at hmembers
    obtain ⟨found, hnote, hrest⟩ := hmembers
    exact (h.note hnote).members hrest

theorem CanFind.complete : {τ σ : Type} → {fs : Fields τ σ} → {found : σ} → {t : τ} →
    fs.CanFind found → fs.complete found = .ok t → fs.CanHold t
  | _, _, nil, _, _, _, _ => trivial
  | _, _, cons _ _ absent rest, (found, others), (a, t), h, hcomplete => by
    simp only [Fields.complete, bind_eq_ok_iff] at hcomplete
    obtain ⟨a', ha', t', ht', heq⟩ := hcomplete
    obtain ⟨rfl, rfl⟩ := Prod.mk.inj (Except.ok.inj heq)
    refine ⟨?_, h.2.complete ht'⟩
    cases found with
    | none =>
      cases absent with
      | none => exact absurd ha' (by simp [inRange])
      | some b => exact Or.inr (congrArg some (Except.ok.inj ha'))
    | some b => exact Or.inl (Except.ok.inj ha' ▸ h.1 b rfl)

theorem canHold_items {source : Source} {room : Nat} {ending : Ending} : {τ σ : Type} →
    {fs : Fields τ σ} → {ds : List Document} → {t : τ} →
      fs.items source room ds ending = .ok t → fs.CanHold t
  | _, _, nil, _, _, _ => trivial
  | _, _, cons _ decode _ rest, d :: ds, (a, t), h => by
    simp only [Fields.items, bind_eq_ok_iff] at h
    obtain ⟨a', ha', t', ht', heq⟩ := h
    obtain ⟨rfl, rfl⟩ := Prod.mk.inj (Except.ok.inj heq)
    exact ⟨Or.inl ⟨source, room, d, ha'⟩, canHold_items ht'⟩
  | _, _, cons _ _ absent rest, [], (a, t), h => by
    simp only [Fields.items, bind_eq_ok_iff] at h
    obtain ⟨-, -, a', ha', t', ht', heq⟩ := h
    obtain ⟨rfl, rfl⟩ := Prod.mk.inj (Except.ok.inj heq)
    refine ⟨Or.inr ?_, canHold_items ht'⟩
    cases absent with
    | none => exact absurd ha' (by simp [inRange])
    | some b => exact congrArg some (Except.ok.inj ha')

end Fields

namespace Gives

/-- **A record is built from fields** that their decoders give or that have a
    default. -/
theorem of_record {τ σ : Type} {fs : Fields τ σ} {build : τ → α} {a : α}
    (h : Gives (record fs build) a) : ∃ t, fs.CanHold t ∧ build t = a := by
  obtain ⟨source, room, d, h⟩ := h
  unfold record at h
  split at h
  · exact absurd h (by simp)
  · exact absurd h (by simp)
  · obtain ⟨t, ht, rfl⟩ := map_eq_ok_iff.1 h
    exact ⟨t, Fields.canHold_items ht, rfl⟩
  · simp only [bind_eq_ok_iff] at h
    obtain ⟨found, hfound, -, -, t, ht, heq⟩ := h
    exact ⟨t, (fs.canFind_nothing.members hfound).complete ht, Except.ok.inj heq⟩
  · exact absurd h (by simp)

/-! ## Cases -/

theorem of_caseFields {τ σ : Type} {fs : Fields τ σ} {build : τ → α} {a : α}
    (h : Gives (caseFields fs build) a) : ∃ t, fs.CanHold t ∧ build t = a := by
  obtain ⟨source, room, d, h⟩ := h
  unfold caseFields at h
  split at h
  · exact absurd h (by simp)
  · exact of_record ⟨_, _, _, h⟩

end Gives

/-- What a case can give. -/
def Contents.Gives : Contents α → α → Prop
  | nothing b, a => a = b
  | something decode, a => Decoder.Gives decode a

theorem Contents.gives_of_read {contents : Contents α} {source : Source} {room : Nat}
    {d : Document} {a : α} (h : contents.read source room d = .ok a) : contents.Gives a := by
  unfold read at h
  split at h
  · split at h
    · exact (Except.ok.inj h).symm
    · exact absurd h (by simp)
  · exact ⟨_, _, _, h⟩

theorem gives_of_findCase? {name : String} {cases : List (Case α)} {contents : Contents α} {a : α}
    (h : findCase? name cases = some contents) (ha : contents.Gives a) :
    ∃ c ∈ cases, c.2.Gives a := by
  obtain ⟨c, hc, rfl⟩ := Option.map_eq_some_iff.1 h
  exact ⟨c, List.mem_of_find?_eq_some hc, ha⟩

namespace Gives

/-- **A value of a type with cases** is given by one of the cases. -/
theorem of_variants {cases : List (Case α)} {a : α} (h : Gives (variants cases) a) :
    ∃ c ∈ cases, c.2.Gives a := by
  obtain ⟨source, room, d, h⟩ := h
  unfold variants at h
  split at h
  · split at h
    · next hcase => exact gives_of_findCase? hcase (Except.ok.inj h).symm
    · exact absurd h (by simp)
  · exact absurd h (by simp)
  · exact absurd h (by simp)
  · split at h
    · exact absurd h (by simp)
    · next contents hcase =>
      simp only [bind_eq_ok_iff] at h
      obtain ⟨b, hb, -, -, heq⟩ := h
      obtain rfl := Except.ok.inj heq
      exact gives_of_findCase? hcase (Contents.gives_of_read hb)
  · exact absurd h (by simp)
  · exact absurd h (by simp)

/-! ## Recursive types -/

/-- **Induction along a recursive decoder**: a property of all that it gives is
    one that a step keeps. -/
theorem of_recursive {step : Decoder α → Decoder α} {P : α → Prop}
    (hstep : ∀ decode, (∀ a, Gives decode a → P a) → ∀ a, Gives (step decode) a → P a) {a : α}
    (h : Gives (recursive step) a) : P a := by
  have hunfolded : ∀ depth a, Gives (unfolded step depth) a → P a := by
    intro depth
    induction depth with
    | zero =>
      refine hstep _ fun a h => ?_
      obtain ⟨_, _, _, h⟩ := h
      exact absurd h (by simp)
    | succ depth ih => exact hstep _ ih
  obtain ⟨source, room, d, h⟩ := h
  exact hunfolded room a ⟨source, room, d, h⟩

end Gives

end Decoder

end QuantumProgram
