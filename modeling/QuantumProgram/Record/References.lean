/-
  QuantumProgram — references between entries, and cycles among them.

  Entries refer to entries by place; places past the end are disregarded.
  `cyclicPlace?` goes from entry to entry along the references, depth first,
  and lists the entries as they are left.  Read from the last left, every
  entry then stands before those that it refers to, unless there is a cycle;
  an entry that refers to an earlier one of this list is on a cycle.
-/

namespace QuantumProgram

/-- What each entry refers to, in order. -/
abbrev References := List (List Nat)

/-- A search for cycles: an entry on a cycle of references, if one is found. -/
abbrev CycleSearch := References → Option Nat

namespace References

/-- The entries that the entry `i` refers to, in order. -/
def targets (refs : References) (i : Nat) : List Nat :=
  (refs[i]?.getD []).filter (· < refs.length)

/-- The entries that refer to the entry `i`, by place. -/
def sources (refs : References) (i : Nat) : List Nat :=
  (List.range refs.length).filter fun j => (refs.targets j).contains i

/-- The entries that a walk has entered, and those that it has left.  The last
    of each comes first. -/
structure Walk where
  entered : List Nat := []
  left : List Nat := []

/-- Enter an entry, go on from all that it refers to, and leave it.  An entry
    that refers to itself ends the walk.  Every step down enters a new entry,
    so as many steps as there are entries are enough. -/
def enter (refs : References) : (steps : Nat) → Walk → (i : Nat) → Except Nat Walk
  | 0, walk, _ => .ok walk
  | steps + 1, walk, i =>
    if walk.entered.contains i then .ok walk
    else if (refs.targets i).contains i then .error i
    else do
      let walk ← (refs.targets i).foldlM (enter refs steps)
        { walk with entered := i :: walk.entered }
      return { walk with left := i :: walk.left }

/-- The walk through all entries. -/
def walk (refs : References) : Except Nat Walk :=
  (List.range refs.length).foldlM (enter refs refs.length) {}

/-- The first entry that refers to an earlier one of a list, going through the
    list in order; `before` stands in front of it. -/
def lateSource? (refs : References) (before : List Nat) : List Nat → Option Nat
  | [] => none
  | i :: rest =>
    match (refs.sources i).find? fun j => !(i :: before).contains j with
    | some j => some j
    | none => lateSource? refs (i :: before) rest

/-- **An entry on a cycle of references, if there is one.** -/
def cyclicPlace? (refs : References) : Option Nat :=
  match refs.walk with
  | .error i => some i
  | .ok walk => refs.lateSource? [] walk.left

end References

end QuantumProgram
