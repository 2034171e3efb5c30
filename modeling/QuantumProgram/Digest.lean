/-
  QuantumProgram — what equal values feed to a hash function.

  A value is hashed by feeding it, part by part, as a sequence of words and
  texts.  Values that count as equal feed the same sequence, so their digests
  agree whatever function digests the sequence.

  Floats are compared by value, except that every NaN equals every NaN, so
  that comparison of the values that hold them is an equivalence.  The word
  fed for hashing is chosen to agree: zeros of both signs feed one word, and
  so do all NaNs.
-/

namespace QuantumProgram

/-- One item fed to a hash function. -/
inductive HashItem where
  | word (value : UInt64)
  | text (value : String)
deriving DecidableEq, Repr

/-- A function from fed sequences to digests. -/
abbrev Digest := List HashItem → UInt64

/-! ## Floats -/

/-- Whether two floats count as the same value. -/
def sameValue (a b : Float) : Bool := a == b || (a.isNaN && b.isNaN)

/-- The word that a float feeds to a hash function. -/
def floatWord (x : Float) : HashItem :=
  .word (if x == 0 then 0 else if x.isNaN then 0x7ff8000000000000 else x.toBits)

/-! ## Feeding -/

/-- Feed the number of elements of a list, then the elements. -/
def feedList {α : Type} (feed : α → List HashItem) (l : List α) : List HashItem :=
  .word (UInt64.ofNat l.length) :: l.flatMap feed

/-- Feed whether a value is present, then the value. -/
def feedOption {α : Type} (feed : α → List HashItem) : Option α → List HashItem
  | none => [.word 0]
  | some a => .word 1 :: feed a

/-- Mix one word into a running 64-bit digest. -/
def mixWord (h w : UInt64) : UInt64 := (h ^^^ w) * 0x100000001b3

/-- A digest that mixes the words, and the code points of the texts, one after
    the other. -/
def mixingDigest : Digest :=
  List.foldl
    (fun h item =>
      match item with
      | .word w => mixWord (mixWord h 1) w
      | .text s => s.toList.foldl (fun h c => mixWord h (UInt64.ofNat (c.toNat + 2))) (mixWord h 0))
    0xcbf29ce484222325

end QuantumProgram
