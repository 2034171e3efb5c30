/-
  QuantumProgram — equal programs have equal hashes.

  What is attached as a tag may be of any kind that can be compared and hashed, and
  programs that are stored in one place are found equal without being compared; both
  are known only while programs run (`Runtime`).  However this is, comparing
  operations, moments, calls and programs is an equivalence and equal values feed the
  same to a hash function, at any depth (`Operation.lawful_beqBy`).  Equality as it is
  defined for attached markers and notes is the case of two kinds, whatever is known
  of the storage (`Program.beqBy_eq`).
-/
import QuantumProgram.Proofs.LawfulFeed

namespace QuantumProgram

/-! ## What is known at run time -/

/-- The values that are attached as tags, which are compared if they are of one kind,
    and the programs that are known to be stored in one place. -/
structure Runtime where
  Kind : Type
  kindEq : DecidableEq Kind
  Value : Kind → Type
  same (k : Kind) : Value k → Value k → Bool
  feed (k : Kind) : Value k → List HashItem
  lawful (k : Kind) : Lawful (same k) (feed k)
  feedKind : Kind → List HashItem
  /-- The value that an attachment stands for. -/
  value : Attachment → (k : Kind) × Value k
  oneStore : Program → Program → Bool
  eq_of_oneStore : ∀ p q, oneStore p q = true → p = q
  oneMoments : Program → Program → Bool
  moments_eq_of_oneMoments : ∀ p q, oneMoments p q = true → p.moments = q.moments

namespace Runtime

variable (R : Runtime)

instance : DecidableEq R.Kind := R.kindEq

/-- Values of different kinds are different. -/
def sameAttached : (k : R.Kind) × R.Value k → (k : R.Kind) × R.Value k → Bool
  | ⟨k, x⟩, ⟨k', y⟩ => if h : k = k' then R.same k' (h ▸ x) y else false

def feedAttached (v : (k : R.Kind) × R.Value k) : List HashItem := R.feedKind v.1 ++ R.feed v.1 v.2

def sameTag : Tag → Tag → Bool
  | .name t, .name u => t = u
  | .int n, .int m => n = m
  | .attached a, .attached b => R.sameAttached (R.value a) (R.value b)
  | _, _ => false

def feedTag : Tag → List HashItem
  | .name t => [.word 0, .text t]
  | .int n => [.word 1, .word n.toUInt64]
  | .attached a => .word 2 :: R.feedAttached (R.value a)

end Runtime

mutual

/-- Equality of actions with what is known at run time. -/
def Action.beqBy (R : Runtime) : Action → Action → Bool
  | .gate g, .gate h => g == h
  | .measure k, .measure l => k = l
  | .reset, .reset => true
  | .call c, .call c' => c.beqBy R c'
  | .guarded op cs, .guarded op' cs' => op.beqBy R op' && cs = cs'
  | _, _ => false
termination_by structural a => a

def Operation.beqBy (R : Runtime) : Operation → Operation → Bool
  | ⟨a, qs, ts⟩, ⟨a', qs', ts'⟩ => a.beqBy R a' && qs = qs' && ts.isEqv ts' R.sameTag
termination_by structural op => op

def Moment.beqBy (R : Runtime) : Moment → Moment → Bool
  | ⟨ops⟩, ⟨ops'⟩ => sameOperationsBy R ops ops'
termination_by structural m => m

/-- Programs that are stored in one place are not compared, nor are moments that are. -/
def Program.beqBy (R : Runtime) : Program → Program → Bool
  | ⟨ms, ts⟩, ⟨ms', ts'⟩ => R.oneStore ⟨ms, ts⟩ ⟨ms', ts'⟩ ||
      (ts.isEqv ts' R.sameTag && (R.oneMoments ⟨ms, ts⟩ ⟨ms', ts'⟩ || sameMomentsBy R ms ms'))
termination_by structural p => p

def Call.beqBy (R : Runtime) : Call → Call → Bool
  | ⟨p, s⟩, ⟨p', s'⟩ => p.beqBy R p' && s == s'
termination_by structural c => c

def sameOperationsBy (R : Runtime) : List Operation → List Operation → Bool
  | [], [] => true
  | op :: ops, op' :: ops' => op.beqBy R op' && sameOperationsBy R ops ops'
  | _, _ => false
termination_by structural ops => ops

def sameMomentsBy (R : Runtime) : List Moment → List Moment → Bool
  | [], [] => true
  | m :: ms, m' :: ms' => m.beqBy R m' && sameMomentsBy R ms ms'
  | _, _ => false
termination_by structural ms => ms

end

mutual

/-- What an operation feeds with what is known at run time. -/
def Operation.feedBy (R : Runtime) (d : Digest) : Operation → List HashItem
  | ⟨a, qs, ts⟩ => a.feedBy R d ++ feedList Qubit.feed qs ++ feedList R.feedTag ts
termination_by structural op => op

def Action.feedBy (R : Runtime) (d : Digest) : Action → List HashItem
  | .gate g => .word 0 :: g.feed
  | .measure k => [.word 1, .text k]
  | .reset => [.word 2]
  | .call c => .word 3 :: c.feedBy R d
  | .guarded op cs => .word 4 :: (op.feedBy R d ++ feedList Condition.feed cs)
termination_by structural a => a

def Moment.feedBy (R : Runtime) (d : Digest) : Moment → List HashItem
  | ⟨ops⟩ => feedList (fun items => items) (feedOperationsBy R d ops)
termination_by structural m => m

def Program.hashBy (R : Runtime) (d : Digest) : Program → UInt64
  | ⟨ms, ts⟩ => d (feedList (fun items => items) (feedMomentsBy R d ms) ++ feedList R.feedTag ts)
termination_by structural p => p

def Call.feedBy (R : Runtime) (d : Digest) : Call → List HashItem
  | ⟨p, s⟩ => .word (p.hashBy R d) :: s.feed
termination_by structural c => c

def feedOperationsBy (R : Runtime) (d : Digest) : List Operation → List (List HashItem)
  | [] => []
  | op :: ops => op.feedBy R d :: feedOperationsBy R d ops
termination_by structural ops => ops

def feedMomentsBy (R : Runtime) (d : Digest) : List Moment → List (List HashItem)
  | [] => []
  | m :: ms => m.feedBy R d :: feedMomentsBy R d ms
termination_by structural ms => ms

end

section
variable {R : Runtime} {d : Digest}

/-! ## Tags -/

namespace Runtime

theorem lawful_sameAttached : Lawful R.sameAttached R.feedAttached := by
  rintro ⟨k, x⟩
  refine (R.lawful k x).form (Sigma.mk k) (R.feedKind k ++ ·) (fun x y => ?_) (fun _ => rfl)
    fun x ⟨k', y⟩ hother => ?_
  · exact dif_pos rfl
  · have hne : k ≠ k' := by
      rintro rfl
      exact hother y rfl
    exact ⟨dif_neg hne, dif_neg hne.symm⟩

theorem lawful_sameTag : Lawful R.sameTag R.feedTag := by
  intro t
  cases t with
  | name t =>
    refine .formEq (C := Tag.name) t (fun _ _ => rfl) fun _ t h => ?_
    cases t <;> first | exact ⟨rfl, rfl⟩ | exact absurd rfl (h _)
  | int n =>
    refine .formEq (C := Tag.int) n (fun _ _ => rfl) fun _ t h => ?_
    cases t <;> first | exact ⟨rfl, rfl⟩ | exact absurd rfl (h _)
  | attached a =>
    refine ((R.lawful_sameAttached (R.value a)).part R.value).form Tag.attached (.word 2 :: ·)
      (fun _ _ => rfl) (fun _ => rfl) fun _ t h => ?_
    cases t <;> first | exact ⟨rfl, rfl⟩ | exact absurd rfl (h _)

end Runtime

/-! ## Moments and programs from their operations -/

theorem sameOperationsBy_eq (ops ops' : List Operation) :
    sameOperationsBy R ops ops' = ops.isEqv ops' (Operation.beqBy R) := by
  induction ops generalizing ops' with
  | nil => cases ops' <;> rfl
  | cons op ops ih =>
    cases ops' with
    | nil => rfl
    | cons op' ops' => rw [sameOperationsBy, List.isEqv_cons_cons, ih]

theorem sameMomentsBy_eq (ms ms' : List Moment) :
    sameMomentsBy R ms ms' = ms.isEqv ms' (Moment.beqBy R) := by
  induction ms generalizing ms' with
  | nil => cases ms' <;> rfl
  | cons m ms ih =>
    cases ms' with
    | nil => rfl
    | cons m' ms' => rw [sameMomentsBy, List.isEqv_cons_cons, ih]

theorem feedOperationsBy_eq (ops : List Operation) :
    feedOperationsBy R d ops = ops.map (Operation.feedBy R d) := by
  induction ops with
  | nil => rfl
  | cons op ops ih => rw [feedOperationsBy, ih, List.map_cons]

theorem feedMomentsBy_eq (ms : List Moment) :
    feedMomentsBy R d ms = ms.map (Moment.feedBy R d) := by
  induction ms with
  | nil => rfl
  | cons m ms ih => rw [feedMomentsBy, ih, List.map_cons]

theorem Moment.lawfulAt_beqBy {m : Moment}
    (h : ∀ op ∈ m.operations, LawfulAt (Operation.beqBy R) (Operation.feedBy R d) op) :
    LawfulAt (Moment.beqBy R) (Moment.feedBy R d) m := by
  have hsame : Moment.beqBy R =
      fun m m' => m.operations.isEqv m'.operations (Operation.beqBy R) := by
    funext ⟨ops⟩ ⟨ops'⟩
    exact sameOperationsBy_eq ops ops'
  have hfeed : Moment.feedBy R d =
      fun m => feedList (fun items => items) (m.operations.map (Operation.feedBy R d)) := by
    funext ⟨ops⟩
    rw [Moment.feedBy, feedOperationsBy_eq]
  rw [hsame, hfeed]
  exact ((LawfulAt.list h).part Moment.operations).map (feedList fun items => items)

theorem Program.lawfulAt_beqBy {p : Program}
    (h : ∀ op ∈ p.operations, LawfulAt (Operation.beqBy R) (Operation.feedBy R d) op) :
    LawfulAt (Program.beqBy R) (Program.hashBy R d) p := by
  have hsame : Program.beqBy R = fun p q => R.oneStore p q ||
      (p.tags.isEqv q.tags R.sameTag &&
        (R.oneMoments p q || p.moments.isEqv q.moments (Moment.beqBy R))) := by
    funext ⟨ms, ts⟩ ⟨ms', ts'⟩
    rw [Program.beqBy, sameMomentsBy_eq]
  have hhash : Program.hashBy R d = fun p =>
      d (feedList (fun items => items) (p.moments.map (Moment.feedBy R d)) ++
        feedList R.feedTag p.tags) := by
    funext ⟨ms, ts⟩
    rw [Program.hashBy, feedMomentsBy_eq]
  have hmoments := LawfulAt.list fun m hm => Moment.lawfulAt_beqBy fun op hop =>
    h op (List.mem_flatMap.2 ⟨m, hm, hop⟩)
  have hparts := ((R.lawful_sameTag.list p.tags).part Program.tags).both
    (LawfulAt.shortcut R.moments_eq_of_oneMoments hmoments)
  rw [hsame, hhash]
  exact (LawfulAt.shortcut R.eq_of_oneStore hparts).map
    fun ⟨tags, moments⟩ => d (feedList (fun items => items) moments ++ tags)

theorem Call.lawfulAt_beqBy {c : Call}
    (h : LawfulAt (Program.beqBy R) (Program.hashBy R d) c.program) :
    LawfulAt (Call.beqBy R) (Call.feedBy R d) c := by
  have hsame : Call.beqBy R = fun c c' =>
      c.program.beqBy R c'.program && c.settings.beq c'.settings := by
    funext ⟨p, s⟩ ⟨p', s'⟩
    rfl
  have hfeed : Call.feedBy R d = fun c => .word (c.program.hashBy R d) :: c.settings.feed := by
    funext ⟨p, s⟩
    rfl
  rw [hsame, hfeed]
  exact ((h.part Call.program).both ((CallSettings.lawful c.settings).part Call.settings)).map
    fun ⟨hash, settings⟩ => HashItem.word hash :: settings

/-! ## Operations -/

namespace Operation

theorem lawfulAt_of_action {a : Action} (h : LawfulAt (Action.beqBy R) (Action.feedBy R d) a)
    (qubits : List Qubit) (tags : List Tag) :
    LawfulAt (Operation.beqBy R) (Operation.feedBy R d) ⟨a, qubits, tags⟩ := by
  have hsame : Operation.beqBy R = fun a b => a.action.beqBy R b.action &&
      decide (a.qubits = b.qubits) && a.tags.isEqv b.tags R.sameTag := by
    funext ⟨a, qs, ts⟩ ⟨a', qs', ts'⟩
    rfl
  have hfeed : Operation.feedBy R d = fun op => op.action.feedBy R d ++
      feedList Qubit.feed op.qubits ++ feedList R.feedTag op.tags := by
    funext ⟨a, qs, ts⟩
    rfl
  have haction := h.part (b := ⟨a, qubits, tags⟩) Operation.action
  have htags := (R.lawful_sameTag.list tags).part (b := ⟨a, qubits, tags⟩) Operation.tags
  rw [hsame, hfeed]
  exact ((haction.both (LawfulAt.eqPart Operation.qubits _)).both htags).map
    fun ⟨⟨action, qubits⟩, tags⟩ => action ++ feedList Qubit.feed qubits ++ tags

/-- **Operations are compared lawfully**, calls and guarded operations at any depth
    included. -/
theorem lawful_beqBy : Lawful (Operation.beqBy R) (Operation.feedBy R d) := by
  intro op
  induction op using Operation.nestingInduction with
  | gate g qubits tags =>
    refine lawfulAt_of_action ?_ qubits tags
    refine (Gate.lawful g).form Action.gate (.word 0 :: ·) (fun _ _ => rfl) (fun _ => rfl)
      fun _ a h => ?_
    cases a <;> first | exact ⟨rfl, rfl⟩ | exact absurd rfl (h _)
  | measure key qubits tags =>
    refine lawfulAt_of_action ?_ qubits tags
    refine .formEq (C := Action.measure) key (fun _ _ => rfl) fun _ a h => ?_
    cases a <;> first | exact ⟨rfl, rfl⟩ | exact absurd rfl (h _)
  | reset qubits tags =>
    refine lawfulAt_of_action ?_ qubits tags
    refine .formEq (C := fun _ => Action.reset) () (fun _ _ => rfl) fun _ a h => ?_
    cases a <;> first | exact ⟨rfl, rfl⟩ | exact absurd rfl (h ())
  | call c qubits tags ih =>
    refine lawfulAt_of_action ?_ qubits tags
    refine (Call.lawfulAt_beqBy (Program.lawfulAt_beqBy ih)).form Action.call (.word 3 :: ·)
      (fun _ _ => rfl) (fun _ => rfl) fun _ a h => ?_
    cases a <;> first | exact ⟨rfl, rfl⟩ | exact absurd rfl (h _)
  | guarded op conditions qubits tags ih =>
    refine lawfulAt_of_action ?_ qubits tags
    have hparts := (ih.part (b := (op, conditions)) Prod.fst).both (LawfulAt.eqPart Prod.snd _)
    refine hparts.form (fun p => Action.guarded p.1 p.2)
      (fun ⟨op, conditions⟩ => .word 4 :: (op ++ feedList Condition.feed conditions))
      (fun _ _ => rfl) (fun _ => rfl) fun _ a h => ?_
    cases a <;> first | exact ⟨rfl, rfl⟩ | exact absurd rfl (h (_, _))

end Operation

theorem Moment.lawful_beqBy : Lawful (Moment.beqBy R) (Moment.feedBy R d) := fun _ =>
  lawfulAt_beqBy fun op _ => Operation.lawful_beqBy op

theorem Program.lawful_beqBy : Lawful (Program.beqBy R) (Program.hashBy R d) := fun _ =>
  lawfulAt_beqBy fun op _ => Operation.lawful_beqBy op

theorem Call.lawful_beqBy : Lawful (Call.beqBy R) (Call.feedBy R d) := fun c =>
  lawfulAt_beqBy (Program.lawful_beqBy c.program)

/-! ## Equality and hashing as they are defined -/

/-- Tags are compared and fed as they are defined. -/
structure Runtime.Plain (R : Runtime) : Prop where
  sameTag : ∀ t u, R.sameTag t u = decide (t = u)
  feedTag : ∀ t, R.feedTag t = t.feed

theorem Runtime.Plain.sameTags (h : R.Plain) (ts ts' : List Tag) :
    ts.isEqv ts' R.sameTag = decide (ts = ts') := by
  have hsame : R.sameTag = fun t u => t == u := funext₂ h.sameTag
  rw [hsame, Bool.eq_iff_iff, List.isEqv_eq, decide_eq_true_iff]

theorem sameOperationsBy_eq_sameOperations {ops : List Operation}
    (h : ∀ op ∈ ops, ∀ op', op.beqBy R op' = op.beq op') (ops' : List Operation) :
    sameOperationsBy R ops ops' = sameOperations ops ops' := by
  induction ops generalizing ops' with
  | nil => cases ops' <;> rfl
  | cons op ops ih =>
    obtain ⟨hop, hops⟩ := List.forall_mem_cons.1 h
    cases ops' with
    | nil => rfl
    | cons op' ops' => rw [sameOperationsBy, sameOperations, hop, ih hops]

theorem sameMomentsBy_eq_sameMoments {ms : List Moment}
    (h : ∀ op ∈ ms.flatMap Moment.operations, ∀ op', op.beqBy R op' = op.beq op')
    (ms' : List Moment) : sameMomentsBy R ms ms' = sameMoments ms ms' := by
  induction ms generalizing ms' with
  | nil =>
    cases ms' with
    | nil => rfl
    | cons m' ms' => obtain ⟨ops'⟩ := m'; rfl
  | cons m ms ih =>
    obtain ⟨ops⟩ := m
    rw [List.flatMap_cons, List.forall_mem_append] at h
    cases ms' with
    | nil => rfl
    | cons m' ms' =>
      obtain ⟨ops'⟩ := m'
      rw [sameMomentsBy, sameMoments, Moment.beqBy, sameOperationsBy_eq_sameOperations h.1, ih h.2]

theorem sameMoments_self_of {ms : List Moment}
    (h : ∀ op ∈ ms.flatMap Moment.operations, ∀ op', op.beqBy R op' = op.beq op') :
    sameMoments ms ms = true := by
  rw [← sameMomentsBy_eq_sameMoments h, sameMomentsBy_eq]
  exact (LawfulAt.list fun m _ => Moment.lawful_beqBy (d := mixingDigest) m).refl

/-- **What is known of the storage does not change the answer**, since a program is
    equal to itself. -/
theorem Program.beqBy_eq_of (hR : R.Plain) {p : Program}
    (h : ∀ op ∈ p.operations, ∀ op', op.beqBy R op' = op.beq op') (q : Program) :
    p.beqBy R q = p.beq q := by
  obtain ⟨ms, ts⟩ := p
  obtain ⟨ms', ts'⟩ := q
  have hself : sameMoments ms ms = true := sameMoments_self_of h
  rw [Program.beqBy, Program.beq, hR.sameTags, sameMomentsBy_eq_sameMoments h]
  by_cases hstore : R.oneStore ⟨ms, ts⟩ ⟨ms', ts'⟩ = true
  · obtain ⟨rfl, rfl⟩ := Program.mk.inj (R.eq_of_oneStore _ _ hstore)
    rw [hstore, Bool.true_or, hself, decide_eq_true rfl, Bool.and_self]
  · rw [Bool.not_eq_true] at hstore
    rw [hstore, Bool.false_or, Bool.and_comm]
    by_cases hmoments : R.oneMoments ⟨ms, ts⟩ ⟨ms', ts'⟩ = true
    · obtain rfl : ms = ms' := R.moments_eq_of_oneMoments _ _ hmoments
      rw [hmoments, Bool.true_or, hself]
    · rw [Bool.not_eq_true] at hmoments
      rw [hmoments, Bool.false_or]

namespace Operation

theorem beqBy_eq_of_action (hR : R.Plain) {a b : Action} (h : a.beqBy R b = a.beq b)
    (qubits qubits' : List Qubit) (tags tags' : List Tag) :
    (⟨a, qubits, tags⟩ : Operation).beqBy R ⟨b, qubits', tags'⟩ =
      (⟨a, qubits, tags⟩ : Operation).beq ⟨b, qubits', tags'⟩ := by
  rw [Operation.beqBy, Operation.beq, h, hR.sameTags]

theorem beqBy_eq (hR : R.Plain) (a b : Operation) : a.beqBy R b = a.beq b := by
  induction a using Operation.nestingInduction generalizing b with
  | gate g qubits tags =>
    obtain ⟨action, qubits', tags'⟩ := b
    refine beqBy_eq_of_action hR ?_ qubits qubits' tags tags'
    cases action <;> rfl
  | measure key qubits tags =>
    obtain ⟨action, qubits', tags'⟩ := b
    refine beqBy_eq_of_action hR ?_ qubits qubits' tags tags'
    cases action <;> rfl
  | reset qubits tags =>
    obtain ⟨action, qubits', tags'⟩ := b
    refine beqBy_eq_of_action hR ?_ qubits qubits' tags tags'
    cases action <;> rfl
  | call c qubits tags ih =>
    have hprogram := Program.beqBy_eq_of hR ih
    obtain ⟨⟨ms, ts⟩, settings⟩ := c
    obtain ⟨action, qubits', tags'⟩ := b
    refine beqBy_eq_of_action hR ?_ qubits qubits' tags tags'
    cases action with
    | call c' =>
      obtain ⟨⟨ms', ts'⟩, settings'⟩ := c'
      rw [Action.beqBy, Call.beqBy, hprogram]
      rfl
    | _ => rfl
  | guarded op conditions qubits tags ih =>
    obtain ⟨action, qubits', tags'⟩ := b
    refine beqBy_eq_of_action hR ?_ qubits qubits' tags tags'
    cases action with
    | guarded op' conditions' => rw [Action.beqBy, Action.beq, ih]
    | _ => rfl

end Operation

theorem feedOperationsBy_eq_feedOperations {ops : List Operation}
    (h : ∀ op ∈ ops, op.feedBy R d = op.feed d) :
    feedOperationsBy R d ops = feedOperations d ops := by
  induction ops with
  | nil => rfl
  | cons op ops ih =>
    obtain ⟨hop, hops⟩ := List.forall_mem_cons.1 h
    rw [feedOperationsBy, feedOperations, hop, ih hops]

theorem feedMomentsBy_eq_feedMoments {ms : List Moment}
    (h : ∀ op ∈ ms.flatMap Moment.operations, op.feedBy R d = op.feed d) :
    feedMomentsBy R d ms = feedMoments d ms := by
  induction ms with
  | nil => rfl
  | cons m ms ih =>
    obtain ⟨ops⟩ := m
    rw [List.flatMap_cons, List.forall_mem_append] at h
    rw [feedMomentsBy, feedMoments, Moment.feedBy, feedOperationsBy_eq_feedOperations h.1, ih h.2]

theorem Program.hashBy_eq_of (hR : R.Plain) {p : Program}
    (h : ∀ op ∈ p.operations, op.feedBy R d = op.feed d) : p.hashBy R d = p.hashWith d := by
  obtain ⟨ms, ts⟩ := p
  rw [Program.hashBy, feedMomentsBy_eq_feedMoments h, funext hR.feedTag]
  rfl

namespace Operation

theorem feedBy_eq_of_action (hR : R.Plain) {a : Action} (h : a.feedBy R d = a.feed d)
    (qubits : List Qubit) (tags : List Tag) :
    (⟨a, qubits, tags⟩ : Operation).feedBy R d = (⟨a, qubits, tags⟩ : Operation).feed d := by
  rw [Operation.feedBy, Operation.feed, h, funext hR.feedTag]

theorem feedBy_eq (hR : R.Plain) (op : Operation) : op.feedBy R d = op.feed d := by
  induction op using Operation.nestingInduction with
  | gate g qubits tags => exact feedBy_eq_of_action hR rfl qubits tags
  | measure key qubits tags => exact feedBy_eq_of_action hR rfl qubits tags
  | reset qubits tags => exact feedBy_eq_of_action hR rfl qubits tags
  | call c qubits tags ih =>
    have hprogram := Program.hashBy_eq_of hR ih
    obtain ⟨⟨ms, ts⟩, settings⟩ := c
    refine feedBy_eq_of_action hR ?_ qubits tags
    rw [Action.feedBy, Call.feedBy, hprogram]
    rfl
  | guarded op conditions qubits tags ih =>
    refine feedBy_eq_of_action hR ?_ qubits tags
    rw [Action.feedBy, Action.feed, ih]

end Operation

/-- What a moment feeds to a hash function. -/
def Moment.feed (d : Digest) (m : Moment) : List HashItem :=
  feedList (fun items => items) (feedOperations d m.operations)

/-- What a call feeds to a hash function. -/
def Call.feed (d : Digest) (c : Call) : List HashItem :=
  .word (c.program.hashWith d) :: c.settings.feed

theorem Moment.beqBy_eq (hR : R.Plain) (m m' : Moment) : m.beqBy R m' = m.beq m' := by
  obtain ⟨ops⟩ := m
  obtain ⟨ops'⟩ := m'
  exact sameOperationsBy_eq_sameOperations (fun op _ => op.beqBy_eq hR) ops'

theorem Moment.feedBy_eq (hR : R.Plain) (m : Moment) : m.feedBy R d = m.feed d := by
  obtain ⟨ops⟩ := m
  rw [Moment.feedBy, feedOperationsBy_eq_feedOperations fun op _ => op.feedBy_eq hR]
  rfl

theorem Program.beqBy_eq (hR : R.Plain) (p q : Program) : p.beqBy R q = p.beq q :=
  beqBy_eq_of hR (fun op _ => op.beqBy_eq hR) q

theorem Program.hashBy_eq (hR : R.Plain) (p : Program) : p.hashBy R d = p.hashWith d :=
  hashBy_eq_of hR fun op _ => op.feedBy_eq hR

theorem Call.beqBy_eq (hR : R.Plain) (c c' : Call) : c.beqBy R c' = c.beq c' := by
  obtain ⟨p, s⟩ := c
  obtain ⟨p', s'⟩ := c'
  rw [Call.beqBy, Program.beqBy_eq hR]
  rfl

theorem Call.feedBy_eq (hR : R.Plain) (c : Call) : c.feedBy R d = c.feed d := by
  obtain ⟨p, s⟩ := c
  rw [Call.feedBy, Program.hashBy_eq hR]
  rfl

end

/-- A marker or a note. -/
inductive AttachmentKind where
  | marker
  | note
deriving DecidableEq

/-- Markers and notes are attached, and nothing is known of the storage. -/
def Runtime.plain : Runtime where
  Kind := AttachmentKind
  kindEq := inferInstance
  Value
    | .marker => Int64
    | .note => String
  same
    | .marker => fun n m : Int64 => decide (n = m)
    | .note => fun t u : String => decide (t = u)
  feed
    | .marker => fun n : Int64 => [.word n.toUInt64]
    | .note => fun t : String => [.text t]
  lawful
    | .marker => LawfulAt.ofEq fun n : Int64 => [HashItem.word n.toUInt64]
    | .note => LawfulAt.ofEq fun t : String => [HashItem.text t]
  feedKind
    | .marker => [.word 0]
    | .note => [.word 1]
  value
    | .marker n => ⟨.marker, n⟩
    | .note t => ⟨.note, t⟩
  oneStore _ _ := false
  eq_of_oneStore _ _ h := absurd h Bool.false_ne_true
  oneMoments _ _ := false
  moments_eq_of_oneMoments _ _ h := absurd h Bool.false_ne_true

theorem Runtime.plain_plain : plain.Plain where
  sameTag t u := by
    cases t with
    | name | int => cases u <;> simp [sameTag]
    | attached a =>
      cases u with
      | name | int => simp [sameTag]
      | attached b => cases a <;> cases b <;> simp [sameTag, sameAttached, plain]
  feedTag t := by
    cases t with
    | name | int => rfl
    | attached a => cases a <;> rfl

section
variable (d : Digest)

/-- **Equality of operations is an equivalence that agrees with hashing.** -/
theorem Operation.lawful : Lawful Operation.beq (Operation.feed d) :=
  lawful_beqBy.congr (beqBy_eq Runtime.plain_plain) (feedBy_eq Runtime.plain_plain)

theorem Moment.lawful : Lawful Moment.beq (Moment.feed d) :=
  lawful_beqBy.congr (beqBy_eq Runtime.plain_plain) (feedBy_eq Runtime.plain_plain)

theorem Program.lawful : Lawful Program.beq (Program.hashWith d) :=
  lawful_beqBy.congr (beqBy_eq Runtime.plain_plain) (hashBy_eq Runtime.plain_plain)

theorem Call.lawful : Lawful Call.beq (Call.feed d) :=
  lawful_beqBy.congr (beqBy_eq Runtime.plain_plain) (feedBy_eq Runtime.plain_plain)

end

end QuantumProgram
