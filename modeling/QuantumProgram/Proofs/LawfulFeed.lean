/-
  QuantumProgram — comparisons that agree with hashing.

  A comparison agrees with what is fed to a hash function if it is an equivalence
  and what counts as equal feeds the same (`Lawful`).  This is said of one value and
  all that it is compared with (`LawfulAt`), so that it can be shown of a value from
  its parts, constructor by constructor.  Floats are the base: they count as the same
  value exactly if they feed the same word, of all NaNs and of zeros of both signs
  (`sameValue_iff`).
-/
import Mathlib
import QuantumProgram.Program.Equality

namespace QuantumProgram

/-- Compared with any value, this one behaves as by an equivalence, and what counts as
    equal to it feeds what it feeds. -/
structure LawfulAt {α γ : Type} (same : α → α → Bool) (feed : α → γ) (a : α) : Prop where
  refl : same a a = true
  symm : ∀ b, same a b = same b a
  trans : ∀ b c, same a b = true → same b c = true → same a c = true
  feed_eq : ∀ b, same a b = true → feed a = feed b

/-- The comparison is an equivalence, and what counts as equal feeds the same. -/
def Lawful {α γ : Type} (same : α → α → Bool) (feed : α → γ) : Prop := ∀ a, LawfulAt same feed a

theorem Lawful.congr {α γ : Type} {same same' : α → α → Bool} {feed feed' : α → γ}
    (h : Lawful same feed) (hsame : ∀ a b, same a b = same' a b) (hfeed : ∀ a, feed a = feed' a) :
    Lawful same' feed' := by
  rwa [← funext₂ hsame, ← funext hfeed]

namespace LawfulAt

variable {α β γ δ : Type} {same : α → α → Bool} {feed : α → γ} {a : α}

/-! ## Values from their parts -/

theorem ofEq [DecidableEq α] (feed : α → γ) (a : α) :
    LawfulAt (fun a b => decide (a = b)) feed a where
  refl := decide_eq_true rfl
  symm _ := decide_eq_decide.2 eq_comm
  trans _ _ hab hbc := decide_eq_true ((of_decide_eq_true hab).trans (of_decide_eq_true hbc))
  feed_eq _ h := congrArg feed (of_decide_eq_true h)

/-- Values may be compared by what they feed. -/
theorem ofKey (h : ∀ a b, same a b = true ↔ feed a = feed b) (a : α) : LawfulAt same feed a where
  refl := (h a a).2 rfl
  symm b := Bool.eq_iff_iff.2 (by rw [h, h, eq_comm])
  trans b c hab hbc := (h a c).2 (((h a b).1 hab).trans ((h b c).1 hbc))
  feed_eq b := (h a b).1

/-- What is fed may depend on less. -/
theorem map (h : LawfulAt same feed a) (g : γ → δ) : LawfulAt same (fun a => g (feed a)) a :=
  { h with feed_eq := fun b hb => congrArg g (h.feed_eq b hb) }

/-- A value may be compared by one of its parts. -/
theorem part (f : β → α) {b : β} (h : LawfulAt same feed (f b)) :
    LawfulAt (fun x y => same (f x) (f y)) (fun x => feed (f x)) b where
  refl := h.refl
  symm _ := h.symm _
  trans _ _ := h.trans _ _
  feed_eq _ := h.feed_eq _

theorem eqPart [DecidableEq α] (f : β → α) (b : β) :
    LawfulAt (fun x y => decide (f x = f y)) f b := (ofEq id (f b)).part f

/-- Two parts may be compared one after the other. -/
theorem both {same' : α → α → Bool} {feed' : α → δ} (h : LawfulAt same feed a)
    (h' : LawfulAt same' feed' a) :
    LawfulAt (fun x y => same x y && same' x y) (fun x => (feed x, feed' x)) a where
  refl := by rw [h.refl, h'.refl, Bool.and_self]
  symm b := by rw [h.symm, h'.symm]
  trans b c hab hbc := by
    rw [Bool.and_eq_true] at *
    exact ⟨h.trans b c hab.1 hbc.1, h'.trans b c hab.2 hbc.2⟩
  feed_eq b hb := by
    rw [Bool.and_eq_true] at hb
    rw [h.feed_eq b hb.1, h'.feed_eq b hb.2]

/-- Lists may be compared place by place. -/
theorem list {l : List α} (h : ∀ a ∈ l, LawfulAt same feed a) :
    LawfulAt (fun l l' => l.isEqv l' same) (List.map feed) l := by
  induction l with
  | nil =>
    refine ⟨rfl, fun b => ?_, fun b c hab hbc => ?_, fun b hb => ?_⟩
    · cases b <;> rfl
    · cases b with
      | nil => exact hbc
      | cons => cases hab
    · cases b with
      | nil => rfl
      | cons => cases hb
  | cons a l ih =>
    obtain ⟨ha, hl⟩ := List.forall_mem_cons.1 h
    have hrest := ih hl
    refine ⟨?_, fun b => ?_, fun b c hab hbc => ?_, fun b hb => ?_⟩
    · rw [List.isEqv_cons_cons, ha.refl, hrest.refl, Bool.and_self]
    · cases b with
      | nil => rfl
      | cons b l' => rw [List.isEqv_cons_cons, List.isEqv_cons_cons, ha.symm, hrest.symm]
    · cases b with
      | nil => cases hab
      | cons b l' =>
        cases c with
        | nil => cases hbc
        | cons c l'' =>
          rw [List.isEqv_cons_cons, Bool.and_eq_true] at *
          exact ⟨ha.trans b c hab.1 hbc.1, hrest.trans l' l'' hab.2 hbc.2⟩
    · cases b with
      | nil => cases hb
      | cons b l' =>
        rw [List.isEqv_cons_cons, Bool.and_eq_true] at hb
        rw [List.map_cons, List.map_cons, ha.feed_eq b hb.1, hrest.feed_eq l' hb.2]

/-- A comparison may be cut short where the compared parts are known to be one. -/
theorem shortcut {f : β → α} {stored : β → β → Bool} {b : β}
    (hstored : ∀ x y, stored x y = true → f x = f y) (h : LawfulAt same feed (f b)) :
    LawfulAt (fun x y => stored x y || same (f x) (f y)) (fun x => feed (f x)) b := by
  have hsame (y : β) : (stored b y || same (f b) (f y)) = same (f b) (f y) := by
    cases hby : stored b y with
    | false => rfl
    | true => rw [← hstored b y hby, h.refl, Bool.true_or]
  have hback (y : β) : (stored y b || same (f y) (f b)) = same (f y) (f b) := by
    cases hyb : stored y b with
    | false => rfl
    | true => rw [hstored y b hyb, h.refl, Bool.true_or]
  refine ⟨?_, fun y => ?_, fun y z hby hyz => ?_, fun y hy => ?_⟩
  · rw [hsame, h.refl]
  · rw [hsame, hback, h.symm]
  · rw [hsame] at *
    obtain hstore | hparts := Bool.or_eq_true_iff.1 hyz
    · rwa [← hstored y z hstore]
    · exact h.trans (f y) (f z) hby hparts
  · rw [hsame] at hy
    exact h.feed_eq (f y) hy

/-- Values of one form may be compared by what makes them up, if they differ from
    values of all other forms. -/
theorem form {same' : β → β → Bool} {feed' : β → δ} {b : β} (h : LawfulAt same' feed' b)
    (C : β → α) (g : δ → γ) (hsame : ∀ x y, same (C x) (C y) = same' x y)
    (hfeed : ∀ x, feed (C x) = g (feed' x))
    (hother : ∀ x a, (∀ y, a ≠ C y) → same (C x) a = false ∧ same a (C x) = false) :
    LawfulAt same feed (C b) := by
  have hform {x : β} {a : α} (hxa : same (C x) a = true) : ∃ y, a = C y := by
    by_contra hnone
    push Not at hnone
    rw [(hother x a hnone).1] at hxa
    exact Bool.false_ne_true hxa
  refine ⟨?_, fun a => ?_, fun a c hba hac => ?_, fun a ha => ?_⟩
  · rw [hsame, h.refl]
  · by_cases hy : ∃ y, a = C y
    · obtain ⟨y, rfl⟩ := hy
      rw [hsame, hsame, h.symm]
    · push Not at hy
      rw [(hother b a hy).1, (hother b a hy).2]
  · obtain ⟨y, rfl⟩ := hform hba
    obtain ⟨z, rfl⟩ := hform hac
    rw [hsame] at *
    exact h.trans y z hba hac
  · obtain ⟨y, rfl⟩ := hform ha
    rw [hsame] at ha
    rw [hfeed, hfeed, h.feed_eq y ha]

/-- Values of one form that holds nothing but data. -/
theorem formEq [DecidableEq β] {C : β → α} (b : β)
    (hsame : ∀ x y, same (C x) (C y) = decide (x = y))
    (hother : ∀ x a, (∀ y, a ≠ C y) → same (C x) a = false ∧ same a (C x) = false) :
    LawfulAt same feed (C b) :=
  (ofEq id b).form C (fun x => feed (C x)) hsame (fun _ => rfl) hother

end LawfulAt

/-! ## Floats -/

open Float.Model (UnpackedFloat)

theorem sameValue_self (x : Float) : sameValue x x = true := by
  show (x.toModel.unpack.beq x.toModel.unpack ||
    (x.toModel.unpack.isNaN && x.toModel.unpack.isNaN)) = true
  cases x.toModel.unpack with
  | notANumber => rfl
  | infinity s => cases s <;> rfl
  | zero s => cases s <;> rfl
  | finite s m e hm =>
    have hself : (compare e e).then (compare m m) = .eq := by simp
    cases s with
    | positive =>
      show (some ((compare e e).then (compare m m)) == some .eq || false) = true
      rw [hself]
      rfl
    | negative =>
      show (some ((compare e e).then (compare m m)).swap == some .eq || false) = true
      rw [hself]
      rfl

theorem eq_of_unpack_eq {x y : Float} (h : x.toModel.unpack = y.toModel.unpack) : x = y := by
  have hbits : x.toModel.toBits.toBitVec = y.toModel.toBits.toBitVec :=
    (UnpackedFloat.unpack_inj_of_valid x.toModel.valid y.toModel.valid).1 h
  exact Float.toBits_inj.1 (UInt64.toBitVec_inj.1 hbits)

/-- What compares as equal has one unpacked form, or two that are zero. -/
theorem eq_or_zeros_of_compare {u v : UnpackedFloat} (h : u.compare v = some .eq) :
    u = v ∨ (∃ s, u = .zero s) ∧ ∃ s, v = .zero s := by
  cases u with
  | notANumber => cases h
  | infinity s =>
    cases v with
    | infinity s' => cases s <;> cases s' <;> first | exact Or.inl rfl | cases h
    | notANumber | zero | finite => cases s <;> cases h
  | zero s =>
    cases v with
    | zero s' => exact Or.inr ⟨⟨s, rfl⟩, s', rfl⟩
    | notANumber => cases h
    | infinity s' | finite s' => cases s' <;> cases h
  | finite s m e hm =>
    left
    cases v with
    | notANumber => cases s <;> cases h
    | infinity s' | zero s' => cases s <;> cases s' <;> cases h
    | finite s' m' e' hm' =>
      cases s <;> cases s' <;> simp_all [UnpackedFloat.compare, Ordering.then_eq_eq]

theorem beq_zero_iff {x : Float} : (x == 0) = true ↔ ∃ s, x.toModel.unpack = .zero s := by
  show (x.toModel.unpack.compare (.zero .positive) == some .eq) = true ↔ _
  rw [beq_iff_eq]
  constructor
  · intro h
    obtain heq | ⟨hzero, -⟩ := eq_or_zeros_of_compare h
    · exact ⟨_, heq⟩
    · exact hzero
  · rintro ⟨s, hs⟩
    rw [hs]
    rfl

/-- Floats that are equal as numbers are one float, or both are zero. -/
theorem eq_or_zeros_of_beq {x y : Float} (h : (x == y) = true) :
    x = y ∨ (x == 0) = true ∧ (y == 0) = true := by
  have hcompare : x.toModel.unpack.compare y.toModel.unpack = some .eq := beq_iff_eq.1 h
  rw [beq_zero_iff, beq_zero_iff]
  exact (eq_or_zeros_of_compare hcompare).imp_left eq_of_unpack_eq

theorem beq_of_zeros {x y : Float} (hx : (x == 0) = true) (hy : (y == 0) = true) :
    (x == y) = true := by
  rw [beq_zero_iff] at hx hy
  obtain ⟨s, hs⟩ := hx
  obtain ⟨t, ht⟩ := hy
  show (x.toModel.unpack.compare y.toModel.unpack == some .eq) = true
  rw [hs, ht]
  rfl

theorem not_beq_zero_of_isNaN {x : Float} (h : x.isNaN = true) : ¬ (x == 0) = true := by
  have hnan : x.toModel.unpack.isNaN = true := h
  rw [beq_zero_iff]
  rintro ⟨s, hs⟩
  rw [hs] at hnan
  cases hnan

/-- Zeros feed the bits of the positive one, and no other float does. -/
theorem floatWord_eq_zero_iff {x : Float} : floatWord x = .word 0 ↔ (x == 0) = true := by
  constructor
  · intro h
    by_contra hzero
    rw [floatWord, if_neg hzero, HashItem.word.injEq] at h
    split at h
    · cases h
    · refine hzero ?_
      rw [← Float.ofBits_toBits x, h]
      decide +kernel
  · intro h
    rw [floatWord, if_pos h]

/-- NaNs feed the bits of one of them, and no other float does. -/
theorem floatWord_eq_nan_iff {x : Float} :
    floatWord x = .word 0x7ff8000000000000 ↔ x.isNaN = true := by
  constructor
  · intro h
    by_contra hnan
    rw [floatWord, if_neg hnan, HashItem.word.injEq] at h
    split at h
    · cases h
    · refine hnan ?_
      rw [← Float.ofBits_toBits x, h]
      decide +kernel
  · intro h
    rw [floatWord, if_neg (not_beq_zero_of_isNaN h), if_pos h]

/-- **Floats count as the same value exactly if they feed the same word.** -/
theorem sameValue_iff {x y : Float} : sameValue x y = true ↔ floatWord x = floatWord y := by
  rw [sameValue, Bool.or_eq_true, Bool.and_eq_true]
  constructor
  · rintro (hbeq | ⟨hx, hy⟩)
    · obtain rfl | ⟨hx, hy⟩ := eq_or_zeros_of_beq hbeq
      · rfl
      · rw [floatWord_eq_zero_iff.2 hx, floatWord_eq_zero_iff.2 hy]
    · rw [floatWord_eq_nan_iff.2 hx, floatWord_eq_nan_iff.2 hy]
  · intro h
    by_cases hx : (x == 0) = true
    · have hy := floatWord_eq_zero_iff.1 (h.symm.trans (floatWord_eq_zero_iff.2 hx))
      exact Or.inl (beq_of_zeros hx hy)
    · by_cases hnan : x.isNaN = true
      · exact Or.inr ⟨hnan, floatWord_eq_nan_iff.1 (h.symm.trans (floatWord_eq_nan_iff.2 hnan))⟩
      · have hy : ¬ (y == 0) = true := by
          rwa [← floatWord_eq_zero_iff, ← h, floatWord_eq_zero_iff]
        have hynan : ¬ y.isNaN = true := by
          rwa [← floatWord_eq_nan_iff, ← h, floatWord_eq_nan_iff]
        -- what is neither zero nor NaN feeds its own bits
        rw [floatWord, floatWord, if_neg hx, if_neg hnan, if_neg hy, if_neg hynan,
          HashItem.word.injEq, Float.toBits_inj] at h
        subst h
        simpa [sameValue, hnan] using sameValue_self x

theorem lawful_sameValue : Lawful sameValue floatWord := .ofKey fun _ _ => sameValue_iff

/-! ## Expressions and gates -/

namespace Expr

variable {a b : Expr}

theorem lawfulAt_binary (ha : LawfulAt Expr.beq Expr.feed a) (hb : LawfulAt Expr.beq Expr.feed b)
    (C : Expr → Expr → Expr) (w : UInt64)
    (hsame : ∀ x y x' y', (C x y).beq (C x' y') = (x.beq x' && y.beq y'))
    (hfeed : ∀ x y, (C x y).feed = .word w :: (x.feed ++ y.feed))
    (hother : ∀ x y e, (∀ x' y', e ≠ C x' y') →
      (C x y).beq e = false ∧ e.beq (C x y) = false) :
    LawfulAt Expr.beq Expr.feed (C a b) := by
  have hpair := (ha.part (b := (a, b)) Prod.fst).both (hb.part (b := (a, b)) Prod.snd)
  exact hpair.form (fun p => C p.1 p.2) (fun items => .word w :: (items.1 ++ items.2))
    (fun _ _ => hsame _ _ _ _) (fun _ => hfeed _ _)
    fun _ e h => hother _ _ e fun x y => h (x, y)

theorem lawful : Lawful Expr.beq Expr.feed := by
  intro e
  induction e with
  | constant v =>
    refine (lawful_sameValue v).form constant (fun w => [.word 0, w]) (fun _ _ => rfl)
      (fun _ => rfl) fun _ e h => ?_
    cases e <;> first | exact ⟨rfl, rfl⟩ | exact absurd rfl (h _)
  | symbol n =>
    refine .formEq (C := symbol) n (fun _ _ => rfl) fun _ e h => ?_
    cases e <;> first | exact ⟨rfl, rfl⟩ | exact absurd rfl (h _)
  | pi =>
    refine .formEq (C := fun _ => pi) () (fun _ _ => rfl) fun _ e h => ?_
    cases e <;> first | exact ⟨rfl, rfl⟩ | exact absurd rfl (h ())
  | neg e ih =>
    refine ih.form neg (.word 3 :: ·) (fun _ _ => rfl) (fun _ => rfl) fun _ e h => ?_
    cases e <;> first | exact ⟨rfl, rfl⟩ | exact absurd rfl (h _)
  | add a b iha ihb =>
    refine lawfulAt_binary iha ihb add 4 (fun _ _ _ _ => rfl) (fun _ _ => rfl) fun _ _ e h => ?_
    cases e <;> first | exact ⟨rfl, rfl⟩ | exact absurd rfl (h _ _)
  | sub a b iha ihb =>
    refine lawfulAt_binary iha ihb sub 5 (fun _ _ _ _ => rfl) (fun _ _ => rfl) fun _ _ e h => ?_
    cases e <;> first | exact ⟨rfl, rfl⟩ | exact absurd rfl (h _ _)
  | mul a b iha ihb =>
    refine lawfulAt_binary iha ihb mul 6 (fun _ _ _ _ => rfl) (fun _ _ => rfl) fun _ _ e h => ?_
    cases e <;> first | exact ⟨rfl, rfl⟩ | exact absurd rfl (h _ _)
  | div a b iha ihb =>
    refine lawfulAt_binary iha ihb div 7 (fun _ _ _ _ => rfl) (fun _ _ => rfl) fun _ _ e h => ?_
    cases e <;> first | exact ⟨rfl, rfl⟩ | exact absurd rfl (h _ _)

end Expr

/-- What is fed of a list depends on what its elements feed. -/
theorem feedList_map {α : Type} (feed : α → List HashItem) (l : List α) :
    feedList (fun items => items) (l.map feed) = feedList feed l := by
  rw [feedList, feedList, List.length_map, List.flatMap_map]

/-- Lists of values that are compared lawfully are so themselves. -/
theorem Lawful.list {α : Type} {same : α → α → Bool} {feed : α → List HashItem}
    (h : Lawful same feed) : Lawful (fun l l' => l.isEqv l' same) (feedList feed) := fun l => by
  have hlist := (LawfulAt.list (l := l) fun a _ => h a).map (feedList fun items => items)
  simpa only [feedList_map] using hlist

theorem Coefficient.lawful : Lawful Coefficient.beq Coefficient.feed := fun _ =>
  (((lawful_sameValue _).part Coefficient.re).both
    ((lawful_sameValue _).part Coefficient.im)).map fun words => [words.1, words.2]

/-- The factor of a global phase. -/
def StandardGate.coefficient? : StandardGate → Option Coefficient
  | globalPhase c => some c
  | _ => none

namespace StandardGate

variable {g g' : StandardGate}

theorem coefficient?_eq_none (h : ¬ ∃ c, g = globalPhase c) : g.coefficient? = none := by
  cases g <;> first | rfl | exact absurd ⟨_, rfl⟩ h

theorem exists_eq_globalPhase_iff : (∃ c, g = globalPhase c) ↔ g.index = 17 := by
  constructor
  · rintro ⟨c, rfl⟩
    rfl
  · intro h
    cases g <;> first | exact ⟨_, rfl⟩ | simp [index] at h

/-- Equal gates are of one kind, with equal angles and factors. -/
theorem beq_eq : g.beq g' = (decide (g.index = g'.index) &&
    (g.angle?.toList.isEqv g'.angle?.toList Expr.beq &&
      g.coefficient?.toList.isEqv g'.coefficient?.toList Coefficient.beq)) := by
  by_cases hfactors : (∃ c, g = globalPhase c) ∧ ∃ d, g' = globalPhase d
  · obtain ⟨⟨c, rfl⟩, d, rfl⟩ := hfactors
    show c.beq d = (c.beq d && true)
    rw [Bool.and_true]
  · rw [StandardGate.beq.eq_2 g g' fun c d hg hg' => hfactors ⟨⟨c, hg⟩, d, hg'⟩]
    by_cases hindex : g.index = g'.index
    · have hg : ¬ ∃ c, g = globalPhase c := fun h => hfactors
        ⟨h, exists_eq_globalPhase_iff.2 (hindex ▸ exists_eq_globalPhase_iff.1 h)⟩
      have hg' : ¬ ∃ c, g' = globalPhase c := fun h => hfactors
        ⟨exists_eq_globalPhase_iff.2 (hindex.trans (exists_eq_globalPhase_iff.1 h)), h⟩
      rw [coefficient?_eq_none hg, coefficient?_eq_none hg', decide_eq_true hindex,
        beq_iff_eq.2 hindex, Bool.true_and, Bool.true_and]
      cases g.angle? with
      | none => cases g'.angle? <;> rfl
      | some e =>
        cases g'.angle? with
        | none => rfl
        | some f =>
          show e.beq f = (e.beq f && true && true)
          rw [Bool.and_true, Bool.and_true]
    · rw [decide_eq_false hindex, Bool.false_and, beq_eq_false_iff_ne.2 hindex, Bool.false_and]

theorem lawful : Lawful StandardGate.beq StandardGate.feed := fun g => by
  have hangle := LawfulAt.list (l := g.angle?.toList) fun e _ => Expr.lawful e
  have hfactor := LawfulAt.list (l := g.coefficient?.toList) fun c _ => Coefficient.lawful c
  have hparts := (LawfulAt.eqPart index g).both ((hangle.part fun g => g.angle?.toList).both
    (hfactor.part fun g => g.coefficient?.toList))
  have hfeed (g : StandardGate) : g.feed = .word g.index ::
      ((g.angle?.toList.map Expr.feed).flatten ++
        (g.coefficient?.toList.map Coefficient.feed).flatten) := by
    cases g <;> simp [feed, angle?, coefficient?]
  have hall := hparts.map fun items =>
    HashItem.word items.1 :: (items.2.1.flatten ++ items.2.2.flatten)
  simpa only [← beq_eq, ← hfeed] using hall

end StandardGate

theorem CustomGate.lawful : Lawful CustomGate.beq CustomGate.feed := fun g => by
  have hparams := (Expr.lawful.list g.params).part CustomGate.params
  have hparts := (((LawfulAt.eqPart CustomGate.name g).both
    (LawfulAt.eqPart CustomGate.numQubits g)).both hparams).both
    (LawfulAt.eqPart CustomGate.inverseName g)
  have hall := hparts.map fun ⟨⟨⟨name, numQubits⟩, params⟩, inverseName⟩ =>
    HashItem.text name :: .word numQubits.toUInt64 ::
      (params ++ feedOption (fun n => [.text n]) inverseName)
  have hlist (l l' : List Expr) : l.isEqv l' Expr.beq = (l == l') := List.beq_eq_isEqv.symm
  simp only [hlist] at hall
  exact hall

namespace Gate

theorem lawful : Lawful Gate.beq Gate.feed := by
  intro g
  cases g with
  | standard g =>
    refine (StandardGate.lawful g).form standard (.word 0 :: ·) (fun _ _ => rfl) (fun _ => rfl)
      fun _ g' h => ?_
    cases g' <;> first | exact ⟨rfl, rfl⟩ | exact absurd rfl (h _)
  | custom g =>
    refine (CustomGate.lawful g).form custom (.word 1 :: ·) (fun _ _ => rfl) (fun _ => rfl)
      fun _ g' h => ?_
    cases g' <;> first | exact ⟨rfl, rfl⟩ | exact absurd rfl (h _)

end Gate

/-! ## Settings of calls -/

namespace BindingValue

theorem lawful : Lawful BindingValue.beq BindingValue.feed := by
  intro v
  cases v with
  | name t =>
    refine .formEq (C := name) t (fun _ _ => rfl) fun _ v h => ?_
    cases v <;> first | exact ⟨rfl, rfl⟩ | exact absurd rfl (h _)
  | symbol t =>
    refine .formEq (C := symbol) t (fun _ _ => rfl) fun _ v h => ?_
    cases v <;> first | exact ⟨rfl, rfl⟩ | exact absurd rfl (h _)
  | int n =>
    refine .formEq (C := int) n (fun _ _ => rfl) fun _ v h => ?_
    cases v <;> first | exact ⟨rfl, rfl⟩ | exact absurd rfl (h _)
  | float x =>
    refine (lawful_sameValue x).form float (fun w => [.word 3, w]) (fun _ _ => rfl)
      (fun _ => rfl) fun _ v h => ?_
    cases v <;> first | exact ⟨rfl, rfl⟩ | exact absurd rfl (h _)

end BindingValue

namespace CallSettings

theorem sameBindings_eq (l l' : List (BindingKey × BindingValue)) : sameBindings l l' =
    l.isEqv l' fun b b' => decide (b.1 = b'.1) && b.2.beq b'.2 := by
  induction l generalizing l' with
  | nil => cases l' <;> rfl
  | cons b l ih =>
    cases l' with
    | nil => rfl
    | cons b' l' =>
      rw [sameBindings, List.isEqv_cons_cons, ih]
      rfl

theorem lawful : Lawful CallSettings.beq CallSettings.feed := fun s => by
  have hbinding : Lawful
      (fun b b' : BindingKey × BindingValue => decide (b.1 = b'.1) && b.2.beq b'.2)
      fun b => b.1.feed ++ b.2.feed := fun b =>
    ((LawfulAt.eqPart Prod.fst b).both ((BindingValue.lawful b.2).part Prod.snd)).map
      fun ⟨key, value⟩ => key.feed ++ value
  have hbindings := (hbinding.list s.bindings.toList).part fun s : CallSettings => s.bindings.toList
  have hparts := (((((LawfulAt.eqPart repetitions s).both (LawfulAt.eqPart repetitionIds s)).both
    (LawfulAt.eqPart (fun s => s.qubitMap.toList) s)).both
    (LawfulAt.eqPart (fun s => s.keyMap.toList) s)).both hbindings).both
    (LawfulAt.eqPart useIds s) |>.both (LawfulAt.eqPart repeatUntil s)
  have hall := hparts.map
    fun ⟨⟨⟨⟨⟨⟨repetitions, repetitionIds⟩, qubits⟩, keys⟩, bindings⟩, useIds⟩, repeatUntil⟩ =>
      HashItem.word repetitions.toUInt64 ::
        (feedOption (feedList fun id => [.text id]) repetitionIds
          ++ feedList (fun (p : Qubit × Qubit) => p.1.feed ++ p.2.feed) qubits
          ++ feedList (fun (p : String × String) => [.text p.1, .text p.2]) keys
          ++ bindings
          ++ [HashItem.word (if useIds then 1 else 0)]
          ++ feedOption Condition.feed repeatUntil)
  simp only [← sameBindings_eq] at hall
  exact hall

end CallSettings

end QuantumProgram
