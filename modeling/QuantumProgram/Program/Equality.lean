/-
  QuantumProgram — equality and hashing of programs.

  Programs are equal if they have equal tags and, moment by moment and in the
  same order, equal operations; equal operations have equal actions, qubits
  and tags.  Floats inside count as equal by value.  The hash of a program is
  the digest of what its moments and tags feed; a called program feeds its own
  hash.
-/
import QuantumProgram.Program.Basic

namespace QuantumProgram

/-! ## Settings of calls -/

namespace CallSettings

/-- Whether two lists of bindings have the same keys and equal values. -/
def sameBindings : List (BindingKey × BindingValue) → List (BindingKey × BindingValue) → Bool
  | [], [] => true
  | (k, v) :: l, (k', v') :: l' => k = k' && v == v' && sameBindings l l'
  | _, _ => false

protected def beq (s t : CallSettings) : Bool :=
  s.repetitions = t.repetitions && s.repetitionIds = t.repetitionIds
    && s.qubitMap.toList = t.qubitMap.toList && s.keyMap.toList = t.keyMap.toList
    && sameBindings s.bindings.toList t.bindings.toList
    && s.useIds = t.useIds && s.repeatUntil = t.repeatUntil

instance : BEq CallSettings := ⟨CallSettings.beq⟩

end CallSettings

/-! ## Equality -/

mutual

def Action.beq : Action → Action → Bool
  | .gate g, .gate h => g == h
  | .measure k, .measure l => k = l
  | .reset, .reset => true
  | .call ⟨⟨ms, ts⟩, s⟩, .call ⟨⟨ms', ts'⟩, s'⟩ => sameMoments ms ms' && ts = ts' && s == s'
  | .guarded op cs, .guarded op' cs' => op.beq op' && cs = cs'
  | _, _ => false
termination_by structural a => a

def Operation.beq : Operation → Operation → Bool
  | ⟨a, qs, ts⟩, ⟨a', qs', ts'⟩ => a.beq a' && qs = qs' && ts = ts'
termination_by structural op => op

/-- Whether two lists of moments are equal place by place. -/
def sameMoments : List Moment → List Moment → Bool
  | [], [] => true
  | ⟨ops⟩ :: ms, ⟨ops'⟩ :: ms' => sameOperations ops ops' && sameMoments ms ms'
  | _, _ => false
termination_by structural ms => ms

/-- Whether two lists of operations are equal place by place. -/
def sameOperations : List Operation → List Operation → Bool
  | [], [] => true
  | op :: ops, op' :: ops' => op.beq op' && sameOperations ops ops'
  | _, _ => false
termination_by structural ops => ops

end

instance : BEq Operation := ⟨Operation.beq⟩

protected def Moment.beq (m n : Moment) : Bool := sameOperations m.operations n.operations

instance : BEq Moment := ⟨Moment.beq⟩

protected def Program.beq (p q : Program) : Bool :=
  sameMoments p.moments q.moments && p.tags = q.tags

instance : BEq Program := ⟨Program.beq⟩

protected def Call.beq (c d : Call) : Bool := c.program == d.program && c.settings == d.settings

instance : BEq Call := ⟨Call.beq⟩

/-! ## Hashing -/

/-- What a qubit feeds to a hash function. -/
def Qubit.feed : Qubit → List HashItem
  | .line index => [.word 0, .word index.toUInt64]
  | .grid row col => [.word 1, .word row.toUInt64, .word col.toUInt64]
  | .named name => [.word 2, .text name]

/-- What the settings of a call feed to a hash function. -/
def CallSettings.feed (s : CallSettings) : List HashItem :=
  .word s.repetitions.toUInt64 ::
    (feedOption (feedList fun id => [.text id]) s.repetitionIds
      ++ feedList (fun (q, q') => q.feed ++ q'.feed) s.qubitMap.toList
      ++ feedList (fun (k, k') => [.text k, .text k']) s.keyMap.toList
      ++ feedList (fun (k, v) => k.feed ++ v.feed) s.bindings.toList
      ++ [.word (if s.useIds then 1 else 0)]
      ++ feedOption Condition.feed s.repeatUntil)

/-- What moments and tags feed to a hash function, from what the moments
    feed. -/
def feedTagged (moments : List (List HashItem)) (tags : List Tag) : List HashItem :=
  feedList (fun items => items) moments ++ feedList Tag.feed tags

mutual

/-- What an operation feeds to a hash function.  Called programs are digested
    by `d`. -/
def Operation.feed (d : Digest) : Operation → List HashItem
  | ⟨a, qs, ts⟩ => a.feed d ++ feedList Qubit.feed qs ++ feedList Tag.feed ts
termination_by structural op => op

def Action.feed (d : Digest) : Action → List HashItem
  | .gate g => .word 0 :: g.feed
  | .measure k => [.word 1, .text k]
  | .reset => [.word 2]
  | .call ⟨⟨ms, ts⟩, s⟩ => .word 3 :: .word (d (feedTagged (feedMoments d ms) ts)) :: s.feed
  | .guarded op cs => .word 4 :: (op.feed d ++ feedList Condition.feed cs)
termination_by structural a => a

/-- What each of some moments feeds. -/
def feedMoments (d : Digest) : List Moment → List (List HashItem)
  | [] => []
  | ⟨ops⟩ :: ms => feedList (fun items => items) (feedOperations d ops) :: feedMoments d ms
termination_by structural ms => ms

/-- What each of some operations feeds. -/
def feedOperations (d : Digest) : List Operation → List (List HashItem)
  | [] => []
  | op :: ops => op.feed d :: feedOperations d ops
termination_by structural ops => ops

end

/-- The hash of a program under a given digest. -/
def Program.hashWith (d : Digest) (p : Program) : UInt64 :=
  d (feedTagged (feedMoments d p.moments) p.tags)

/-- The hash of a program. -/
def Program.structuralHash (p : Program) : UInt64 := p.hashWith mixingDigest

end QuantumProgram
