/-
  QuantumProgram — reading a text as a document.

  The reader goes through the text once and never fails: where the text stops
  being JSON the document is marked and ends.  Texts with a lone surrogate and
  numbers beyond the range of floats are marked too, but the text after them
  is read on, since a reader who skips them does not mind.
-/
import QuantumProgram.Decimal.Numeral
import QuantumProgram.Json.Document
import QuantumProgram.Text.Integer

namespace QuantumProgram

namespace Document

/-! ## Blanks, words and digits -/

def isBlank (c : Char) : Bool := c = ' ' || c = '\n' || c = '\t' || c = '\r'

/-- The text after its leading blanks. -/
def skipBlanks (cs : List Char) : List Char := cs.dropWhile isBlank

/-- A document with the text after it, or without if the text breaks off. -/
abbrev Read := Document × Option (List Char)

/-- A break that every reader meets in the same way. -/
def broken (fault : Fault) : Document := .unreadable ⟨fault, fault, some fault⟩

/-- A break inside a number or a word, met by readers who want that. -/
def brokenWord (fault skipped : Fault) : Document := .unreadable ⟨fault, .malformed, some skipped⟩

/-- A value whose word has been begun, if the text goes on with the rest of
    the word. -/
def word (value : Document) : (rest : List Char) → List Char → Read
  | [], cs => (value, some cs)
  | _ :: _, [] => (brokenWord .truncated .truncated, none)
  | c :: rest, d :: cs =>
    if c = d then word value rest cs else (brokenWord .malformed .malformed, none)

/-- The digits at the start of a text, and the text after them. -/
def digits : List Char → List Nat × List Char
  | [] => ([], [])
  | c :: cs =>
    match digit? c with
    | some d =>
      let (ds, rest) := digits cs
      (d :: ds, rest)
    | none => ([], c :: cs)

/-! ## Numbers -/

/-- Digits are missing before the given rest of the text. -/
def missingDigits : List Char → Document
  | [] => brokenWord .truncated .malformed
  | _ :: _ => brokenWord .malformed .malformed

/-- The value of a numeral with a point or an exponent. -/
def realValue (n : Numeral) : Document :=
  match n.toFloat? with
  | some x => .real x
  | none => .unreadable ⟨.malformed, .malformed, none⟩

/-- The value of a numeral without point and exponent.  A negative zero and
    numbers beyond 64 bits are floats. -/
def wholeValue (n : Numeral) : Document :=
  if !n.wholeFits then realValue n
  else if !n.negative then .int n.toNat
  else if n.toNat = 0 || (int64? (-(n.toNat : Int))).isNone then realValue n
  else .int (-(n.toNat : Int))

/-- Read the exponent after its mark. -/
def exponent (n : Numeral) (cs : List Char) : Read :=
  let (negative, cs) :=
    match cs with
    | '+' :: cs => (false, cs)
    | '-' :: cs => (true, cs)
    | cs => (false, cs)
  match digits cs with
  | ([], rest) => (missingDigits rest, none)
  | (ds, rest) =>
    let e : Int := (ds.foldl (fun s d => s * 10 + d) 0 : Nat)
    (realValue { n with exponent := if negative then -e else e }, some rest)

/-- Read a number after its sign. -/
def number (negative : Bool) (cs : List Char) : Read :=
  match digits cs with
  | ([], rest) => (missingDigits rest, none)
  | (0 :: _ :: _, _) => (brokenWord .malformed .malformed, none)
  | (whole, '.' :: cs) =>
    match digits cs with
    | ([], rest) => (missingDigits rest, none)
    | (fraction, rest) =>
      let n : Numeral := ⟨negative, whole, fraction, 0⟩
      match rest with
      | 'e' :: cs => exponent n cs
      | 'E' :: cs => exponent n cs
      | rest => (realValue n, some rest)
  | (whole, 'e' :: cs) => exponent ⟨negative, whole, [], 0⟩ cs
  | (whole, 'E' :: cs) => exponent ⟨negative, whole, [], 0⟩ cs
  | (whole, rest) => (wholeValue ⟨negative, whole, [], 0⟩, some rest)

/-! ## Texts -/

/-- What follows an opening quote. -/
inductive Quotation where
  /-- A closed text with the rest after it; no text if there is a lone
      surrogate in it. -/
  | closed (text : Option String) (rest : List Char)
  /-- The text breaks off, for readers who want it and who skip it. -/
  | broken (fault skipped : Fault)

def hexDigit? (c : Char) : Option Nat :=
  if '0' ≤ c ∧ c ≤ '9' then some (c.toNat - '0'.toNat)
  else if 'a' ≤ c ∧ c ≤ 'f' then some (c.toNat - 'a'.toNat + 10)
  else if 'A' ≤ c ∧ c ≤ 'F' then some (c.toNat - 'A'.toNat + 10)
  else none

/-- The number written by four hexadecimal digits.  A text that has fewer than
    four bytes left ends too early. -/
def fourHex (cs : List Char) : Except Fault Nat :=
  let four := cs.take 4
  if (String.ofList four).utf8ByteSize < 4 then .error .truncated
  else
    match four.mapM hexDigit? with
    | some ds => .ok (ds.foldl (fun s d => s * 16 + d) 0)
    | none => .error .malformed

/-- The character of an escape with one letter. -/
def letterEscape? : Char → Option Char
  | '"' => some '"'
  | '\\' => some '\\'
  | '/' => some '/'
  | 'b' => some '\x08'
  | 'f' => some '\x0c'
  | 'n' => some '\n'
  | 'r' => some '\r'
  | 't' => some '\t'
  | _ => none

/-- The low half that has to follow a high surrogate.  It is read over only if
    it is one. -/
inductive LowSurrogate where
  | found (unit : Nat) (rest : List Char)
  | missing
  | broken (fault : Fault)

def lowSurrogate : List Char → LowSurrogate
  | [] => .broken .truncated
  | ['\\'] => .broken .truncated
  | '\\' :: 'u' :: cs =>
    match fourHex cs with
    | .error f => .broken f
    | .ok low => if 0xDC00 ≤ low && low ≤ 0xDFFF then .found low (cs.drop 4) else .missing
  | _ => .missing

/-- Read a text after its opening quote; `read` holds the characters so far in
    reversed order, or nothing after a lone surrogate. -/
def quotation (read : Option (List Char)) : (fuel : Nat) → List Char → Quotation
  | 0, _ => .broken .truncated .truncated
  | fuel + 1, cs =>
    let stop (f : Fault) : Quotation := .broken (if read.isSome then f else .malformed) f
    match cs with
    | [] => stop .truncated
    | '"' :: rest => .closed (read.map fun cs => String.ofList cs.reverse) rest
    | ['\\'] => stop .truncated
    | '\\' :: 'u' :: rest =>
      match fourHex rest with
      | .error f => stop f
      | .ok unit =>
        let rest := rest.drop 4
        if 0xD800 ≤ unit && unit ≤ 0xDBFF then
          match lowSurrogate rest with
          | .found low rest =>
            let c := Char.ofNat ((unit - 0xD800) * 0x400 + (low - 0xDC00) + 0x10000)
            quotation (read.map (c :: ·)) fuel rest
          | .missing => quotation none fuel rest
          | .broken f => stop f
        else if 0xDC00 ≤ unit && unit ≤ 0xDFFF then quotation none fuel rest
        else quotation (read.map (Char.ofNat unit :: ·)) fuel rest
    | '\\' :: c :: rest =>
      match letterEscape? c with
      | some c => quotation (read.map (c :: ·)) fuel rest
      | none => stop .malformed
    | c :: rest =>
      if c.toNat < 0x20 then stop .malformed else quotation (read.map (c :: ·)) fuel rest

/-- The value of a text after its opening quote. -/
def textValue (fuel : Nat) (cs : List Char) : Read :=
  match quotation (some []) fuel cs with
  | .closed (some s) rest => (.string s, some rest)
  | .closed none rest => (.unreadable ⟨.malformed, .malformed, none⟩, some rest)
  | .broken f skipped => (.unreadable ⟨f, f, some skipped⟩, none)

/-! ## Values -/

/-- The fault of a value that stands where the first key of an object should
    be, when it is read as a text. -/
def asTextFault? : Document → Option Fault
  | .unreadable b => some b.fault
  | _ => none

mutual

/-- Read a value. -/
def value : (fuel : Nat) → List Char → Read
  | 0, _ => (broken .truncated, none)
  | fuel + 1, cs =>
    match skipBlanks cs with
    | [] => (broken .truncated, none)
    | 'n' :: rest => word .null ['u', 'l', 'l'] rest
    | 't' :: rest => word (.bool true) ['r', 'u', 'e'] rest
    | 'f' :: rest => word (.bool false) ['a', 'l', 's', 'e'] rest
    | '-' :: rest => number true rest
    | '"' :: rest => textValue fuel rest
    | '[' :: rest =>
      let (items, ending, rest) := items fuel true rest
      (.array items ending, rest)
    | '\x7b' :: rest =>
      let (members, ending, rest) := members fuel true rest
      (.object members ending, rest)
    | c :: rest => if (digit? c).isSome then number false (c :: rest) else (broken .malformed, none)

/-- Read the items of an array up to its end; `first` if there is none before
    them. -/
def items : (fuel : Nat) → (first : Bool) → List Char →
    List Document × Ending × Option (List Char)
  | 0, _, _ => ([], .broken .truncated false (some .truncated), none)
  | fuel + 1, first, cs =>
    match skipBlanks cs with
    | [] => ([], .broken .truncated false (some .truncated), none)
    | ']' :: rest => ([], .closed, some rest)
    | c :: rest =>
      if first then item fuel (c :: rest)
      else if c = ',' then
        match skipBlanks rest with
        | [] => ([], .broken .truncated true (some .truncated), none)
        | ']' :: _ => ([], .broken .malformed true (some .malformed), none)
        | rest => item fuel rest
      else ([], .broken .malformed false (some .malformed), none)

/-- Read an item and the items after it. -/
def item : (fuel : Nat) → List Char → List Document × Ending × Option (List Char)
  | 0, _ => ([], .broken .truncated false (some .truncated), none)
  | fuel + 1, cs =>
    match value fuel cs with
    | (v, none) => ([v], .broken .malformed false (some .malformed), none)
    | (v, some rest) =>
      let (vs, ending, rest) := items fuel false rest
      (v :: vs, ending, rest)

/-- Read the members of an object up to its end. -/
def members : (fuel : Nat) → (first : Bool) → List Char →
    List (String × Document) × Ending × Option (List Char)
  | 0, _, _ => ([], .broken .truncated false (some .truncated), none)
  | fuel + 1, first, cs =>
    match skipBlanks cs with
    | [] => ([], .broken .truncated false (some .truncated), none)
    | '\x7d' :: rest => ([], .closed, some rest)
    | c :: rest =>
      if first then
        if c = '"' then member fuel false rest
        else ([], .strayKey (asTextFault? (value fuel (c :: rest)).1), none)
      else if c = ',' then
        match skipBlanks rest with
        | [] => ([], .broken .truncated true (some .truncated), none)
        | '"' :: rest => member fuel true rest
        | _ => ([], .broken .malformed true (some .malformed), none)
      else ([], .broken .malformed false (some .malformed), none)

/-- Read a member after the opening quote of its key, and the members after
    it. -/
def member : (fuel : Nat) → (afterComma : Bool) → List Char →
    List (String × Document) × Ending × Option (List Char)
  | 0, _, _ => ([], .broken .truncated false (some .truncated), none)
  | fuel + 1, afterComma, cs =>
    match quotation (some []) fuel cs with
    | .broken f skipped => ([], .broken f afterComma (some skipped), none)
    | .closed key rest =>
      let (v, rest) :=
        match skipBlanks rest with
        | [] => (broken .truncated, none)
        | ':' :: rest => value fuel rest
        | _ => (broken .malformed, none)
      let (vs, ending, rest) :=
        match rest with
        | none => ([], .broken .malformed false (some .malformed), none)
        | some rest => members fuel false rest
      match key with
      | some key => ((key, v) :: vs, ending, rest)
      | none =>
        let skipped := v.skipFault? <|> membersSkipFault? vs <|> ending.skipFault?
        ([], .broken .malformed afterComma skipped, rest)

end

/-- The document of a whole text, and whether more than blanks follows it. -/
def ofText (s : String) : Document × Bool :=
  let cs := s.toList
  match value (3 * cs.length + 3) cs with
  | (d, none) => (d, false)
  | (d, some rest) => (d, !(skipBlanks rest).isEmpty)

end Document

end QuantumProgram
