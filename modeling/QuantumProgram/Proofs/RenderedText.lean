/-
  QuantumProgram — the text of a value is read as the value.

  The text of a value is read as a document if it is so wherever it stands, up to
  the comma or bracket after it and with fuel for its length
  (`Document.ReadAs`).  There is one lemma for each kind of value: escapes are
  read back, and arrays and objects are read item by item.
-/
import QuantumProgram.Proofs.Numerals

namespace QuantumProgram

namespace Document

/-! ## Texts -/

/-- The escapes of control characters are read back. -/
theorem quotation_control {k : Nat} (hk : k < 0x20) (read : List Char) (fuel : Nat)
    (rest : List Char) :
    quotation (some read) (fuel + 1) ((Json.escapedChar (.ofNat k)).toList ++ rest) =
      quotation (some (.ofNat k :: read)) fuel rest := by
  interval_cases k <;> rfl

theorem escapedChar_plain {c : Char} (hcontrol : ¬ c.toNat < 0x20) (hquote : c ≠ '"')
    (hslash : c ≠ '\\') : (Json.escapedChar c).toList = [c] := by
  rw [Json.escapedChar, if_neg hcontrol]
  · exact String.toList_singleton c
  all_goals rintro rfl
  all_goals first | exact hquote rfl | exact hslash rfl | exact hcontrol (by decide)

/-- A character that stands for itself is read as itself. -/
theorem quotation_plain {c : Char} (hcontrol : ¬ c.toNat < 0x20) (hquote : c ≠ '"')
    (hslash : c ≠ '\\') (read : List Char) (fuel : Nat) (rest : List Char) :
    quotation (some read) (fuel + 1) (c :: rest) = quotation (some (c :: read)) fuel rest := by
  rw [quotation]
  · simp only [if_neg hcontrol, Option.map_some]
  · exact hquote
  · exact fun h => absurd h hslash
  · exact fun _ h => absurd h hslash
  · exact fun _ _ h => absurd h hslash

/-- **What is written for a character is read as the character.** -/
theorem quotation_escapedChar (c : Char) (read : List Char) (fuel : Nat) (rest : List Char) :
    quotation (some read) (fuel + 1) ((Json.escapedChar c).toList ++ rest) =
      quotation (some (c :: read)) fuel rest := by
  by_cases hcontrol : c.toNat < 0x20
  · have hc : Char.ofNat c.toNat = c := Char.ofNat_toNat c
    exact hc ▸ quotation_control hcontrol read fuel rest
  · by_cases hquote : c = '"'
    · subst hquote
      rfl
    · by_cases hslash : c = '\\'
      · subst hslash
        rfl
      · rw [escapedChar_plain hcontrol hquote hslash]
        exact quotation_plain hcontrol hquote hslash read fuel rest

/-- What is written for some characters, up to the closing quote. -/
theorem quotation_closed (cs read : List Char) (rest : List Char) : ∀ {fuel : Nat},
    cs.length < fuel →
    quotation (some read) fuel (cs.flatMap (fun c => (Json.escapedChar c).toList) ++ '"' :: rest) =
      .closed (some (String.ofList (read.reverse ++ cs))) rest := by
  induction cs generalizing read with
  | nil =>
    rintro (_ | fuel) hfuel
    · cases hfuel
    · rw [List.append_nil]
      rfl
  | cons c cs ih =>
    rintro (_ | fuel) hfuel
    · cases hfuel
    · rw [List.flatMap_cons, List.append_assoc, quotation_escapedChar,
        ih (c :: read) (Nat.lt_of_succ_lt_succ hfuel), List.reverse_cons, List.append_assoc]
      rfl

theorem toList_textLiteral (s : String) : (Json.textLiteral s).toList =
    '"' :: (s.toList.flatMap (fun c => (Json.escapedChar c).toList) ++ ['"']) := by
  rw [Json.textLiteral, String.toList_append, String.toList_append, String.toList_join,
    List.flatMap_map]
  rfl

/-- **What is written for a text is read as the text.** -/
theorem quotation_textLiteral {s : String} {fuel : Nat} (hfuel : s.length < fuel)
    (rest : List Char) :
    quotation (some []) fuel ((Json.textLiteral s).toList.tail ++ rest) =
      .closed (some s) rest := by
  rw [toList_textLiteral, List.tail_cons, List.append_assoc]
  rw [← String.length_toList] at hfuel
  have h := quotation_closed s.toList [] rest hfuel
  rwa [List.reverse_nil, List.nil_append, String.ofList_toList] at h

/-! ## Values -/

theorem skipBlanks_cons {c : Char} (h : isBlank c = false) (cs : List Char) :
    skipBlanks (c :: cs) = c :: cs := by
  rw [skipBlanks, List.dropWhile_cons, h]
  rfl

/-- The text of the value is read as the document, given enough fuel, and
    starts in a way that shows that it is there. -/
structure ReadAs (v : Json) (d : Document) : Prop where
  start : ∃ c cs, v.render.toList = c :: cs ∧ isBlank c = false ∧ c ≠ ']'
  read : ∀ (fuel : Nat) (rest : List Char), 3 * v.render.length ≤ fuel → Delimited rest →
    value fuel (v.render.toList ++ rest) = (d, some rest)

/-- With some fuel, and a text that starts with none of the blanks. -/
theorem ReadAs.of_cons {v : Json} {d : Document} {c : Char} {cs : List Char}
    (htext : v.render.toList = c :: cs) (hblank : isBlank c = false) (hc : c ≠ ']')
    (h : ∀ {fuel : Nat} {rest : List Char}, 3 * v.render.length ≤ fuel + 1 → Delimited rest →
      value (fuel + 1) (c :: (cs ++ rest)) = (d, some rest)) : ReadAs v d where
  start := ⟨c, cs, htext, hblank, hc⟩
  read fuel rest hfuel hrest := by
    have hpos : 0 < v.render.length := by
      rw [← String.length_toList, htext]
      exact Nat.succ_pos _
    obtain ⟨fuel, rfl⟩ := Nat.exists_eq_succ_of_ne_zero (n := fuel) (by omega)
    rw [htext]
    exact h hfuel hrest

theorem readAs_null : ReadAs .null .null :=
  .of_cons rfl rfl (by decide) fun _ _ => rfl

theorem readAs_bool (b : Bool) : ReadAs (.bool b) (.bool b) := by
  cases b with
  | true => exact .of_cons rfl rfl (by decide) fun _ _ => rfl
  | false => exact .of_cons rfl rfl (by decide) fun _ _ => rfl

theorem escapedChar_ne_nil (c : Char) : (Json.escapedChar c).toList ≠ [] := by
  intro h
  have hread := quotation_escapedChar c [] 1 ['"']
  rw [h] at hread
  have htext : Quotation.closed (some (String.ofList [])) [] =
      .closed (some (String.ofList [c])) [] := hread
  simp at htext

theorem length_le_textLiteral (s : String) : s.length + 2 ≤ (Json.textLiteral s).length := by
  have hle (cs : List Char) :
      cs.length ≤ (cs.flatMap fun c => (Json.escapedChar c).toList).length := by
    induction cs with
    | nil => exact le_rfl
    | cons c cs ih =>
      have hc := List.length_pos_iff.2 (escapedChar_ne_nil c)
      rw [List.flatMap_cons, List.length_append, List.length_cons]
      omega
  rw [← String.length_toList (s := Json.textLiteral s), toList_textLiteral, List.length_cons,
    List.length_append, ← String.length_toList]
  exact Nat.succ_le_succ (Nat.succ_le_succ (hle _))

theorem readAs_string (s : String) : ReadAs (.string s) (.string s) := by
  refine .of_cons (toList_textLiteral s) rfl (by decide) fun {fuel rest} hfuel hrest => ?_
  have hlength : s.length + 2 ≤ (Json.string s).render.length := length_le_textLiteral s
  have hroom : s.length < fuel := by omega
  have hread := quotation_textLiteral hroom rest
  rw [toList_textLiteral, List.tail_cons] at hread
  show textValue fuel _ = _
  rw [textValue, hread]

theorem ne_of_isDigit {c d : Char} (hc : c.isDigit = true) (hd : d.isDigit = false) : c ≠ d := by
  rintro rfl
  rw [hc] at hd
  cases hd

theorem isBlank_of_isDigit {c : Char} (hc : c.isDigit = true) : isBlank c = false := by
  simp [isBlank, ne_of_isDigit hc]

/-- A value that starts with a digit is a number. -/
theorem value_digit {c : Char} (hc : c.isDigit = true) (fuel : Nat) (cs : List Char) :
    value (fuel + 1) (c :: cs) = number false (c :: cs) := by
  rw [value, skipBlanks_cons (isBlank_of_isDigit hc)]
  simp [ne_of_isDigit hc, digit?_of_isDigit hc]

theorem readAs_int {n : Int} (hlow : -2 ^ 63 ≤ n) (hhigh : n < 2 ^ 64) :
    ReadAs (.int n) (.int n) := by
  cases n with
  | ofNat n =>
    obtain ⟨c, cs, htext⟩ := List.exists_cons_of_ne_nil (Json.toString_ne_nil n)
    have hdigit : c.isDigit = true :=
      Json.isDigit_toString (n := n) (htext ▸ List.mem_cons_self)
    have hstart : (Json.int (.ofNat n)).render.toList = c :: cs := htext
    refine .of_cons hstart (isBlank_of_isDigit hdigit) (ne_of_isDigit hdigit rfl)
      fun {fuel rest} hfuel hrest => ?_
    rw [value_digit hdigit, ← List.cons_append, ← htext]
    exact number_nat (Int.ofNat_lt.1 hhigh) hrest
  | negSucc n =>
    have htext : (Json.int (.negSucc n)).render.toList = '-' :: (toString (n + 1)).toList :=
      Json.toList_toString_negSucc n
    refine .of_cons htext rfl (by decide) fun {fuel rest} hfuel hrest => ?_
    exact number_neg (Nat.succ_pos n) (by omega) hrest

/-- The text of a number starts with a digit. -/
theorem IsReal.exists_cons {cs : List Char} (h : IsReal cs) :
    ∃ c cs', cs = c :: cs' ∧ c.isDigit = true := by
  obtain ⟨n, hn⟩ := h false
  have hread := hn [] delimited_nil
  rw [List.append_nil] at hread
  cases cs with
  | nil => cases congrArg Prod.snd hread
  | cons c cs =>
    refine ⟨c, cs, rfl, ?_⟩
    by_contra hdigit
    have hnone : digit? c = none := by
      rw [Char.isDigit, Bool.and_eq_true, decide_eq_true_eq, decide_eq_true_eq] at hdigit
      exact if_neg hdigit
    rw [number, digits, hnone] at hread
    cases congrArg Prod.snd hread

theorem readAs_real {x : Float} (h : x.isFinite = true) : ∃ n, ReadAs (.real x) (realValue n) := by
  obtain ⟨sign, cs, htext, hsign, hreal⟩ := Json.isReal_render h
  rcases hsign with rfl | rfl
  · obtain ⟨n, hn⟩ := hreal false
    obtain ⟨c, cs, rfl, hdigit⟩ := hreal.exists_cons
    refine ⟨n, .of_cons htext (isBlank_of_isDigit hdigit) (ne_of_isDigit hdigit rfl)
      fun {fuel rest} hfuel hrest => ?_⟩
    rw [value_digit hdigit]
    exact hn rest hrest
  · obtain ⟨n, hn⟩ := hreal true
    exact ⟨n, .of_cons htext rfl (by decide) fun {fuel rest} hfuel hrest => hn rest hrest⟩

/-! ## Arrays and objects -/

theorem renderItems_cons_cons (v w : Json) (vs : List Json) :
    (Json.renderItems (v :: w :: vs)).toList =
      v.render.toList ++ ',' :: (Json.renderItems (w :: vs)).toList := by
  rw [Json.renderItems, String.toList_append, String.toList_append, List.append_assoc]
  · rfl
  · exact List.cons_ne_nil w vs

theorem renderItems_start {v : Json} {d : Document} (h : ReadAs v d) (vs : List Json) :
    ∃ c cs, (Json.renderItems (v :: vs)).toList = c :: cs ∧ isBlank c = false ∧ c ≠ ']' := by
  obtain ⟨c, cs, htext, hblank, hc⟩ := h.start
  cases vs with
  | nil => exact ⟨c, cs, htext, hblank, hc⟩
  | cons w vs =>
    exact ⟨c, _, by rw [renderItems_cons_cons, htext, List.cons_append], hblank, hc⟩

section
variable {c : Char} (hblank : isBlank c = false) (fuel : Nat) (cs : List Char)
include hblank

/-- The first item is read at once, another one after a comma. -/
theorem items_first (hc : c ≠ ']') : items (fuel + 1) true (c :: cs) = item fuel (c :: cs) := by
  rw [items, skipBlanks_cons hblank]
  split
  · next h => cases h
  · next h => exact absurd (List.cons.inj h).1 hc
  · next h =>
    cases h
    rfl

theorem items_comma (hc : c ≠ ']') :
    items (fuel + 1) false (',' :: c :: cs) = item fuel (c :: cs) := by
  rw [items, skipBlanks_cons rfl]
  split
  · next h => cases h
  · next h => exact absurd (List.cons.inj h).1 (by decide)
  · next h =>
    obtain ⟨rfl, rfl⟩ := List.cons.inj h
    rw [if_neg Bool.false_ne_true, if_pos rfl, skipBlanks_cons hblank]
    split
    · next h => cases h
    · next h => exact absurd (List.cons.inj h).1 hc
    · rfl

end

/-- The items of an array are read one after the other. -/
theorem item_renderItems {v : Json} {d : Document} {vs : List Json} {ds : List Document}
    (hv : ReadAs v d) (hvs : List.Forall₂ ReadAs vs ds) (rest : List Char) {fuel : Nat}
    (hfuel : 3 * (Json.renderItems (v :: vs)).length + 2 ≤ fuel) :
    item fuel ((Json.renderItems (v :: vs)).toList ++ ']' :: rest) =
      (d :: ds, .closed, some rest) := by
  -- each item is a call of `item` and one of `items` more than its own text needs, and
  -- the comma before it pays for both
  induction hvs generalizing v d fuel with
  | nil =>
    obtain ⟨fuel, rfl⟩ := Nat.exists_eq_add_of_le' (show 2 ≤ fuel by omega)
    have hread := hv.read (fuel + 1) (']' :: rest)
      (by rw [Json.renderItems] at hfuel; omega) (delimited_cons (by simp) rest)
    rw [Json.renderItems, item, hread]
    rfl
  | @cons w e vs ds hw hvs ih =>
    obtain ⟨fuel, rfl⟩ := Nat.exists_eq_add_of_le' (show 2 ≤ fuel by omega)
    have hlength : (Json.renderItems (v :: w :: vs)).length =
        v.render.length + 1 + (Json.renderItems (w :: vs)).length := by
      rw [← String.length_toList, renderItems_cons_cons, List.length_append, List.length_cons,
        String.length_toList, String.length_toList]
      omega
    have hread := hv.read (fuel + 1) (',' :: ((Json.renderItems (w :: vs)).toList ++ ']' :: rest))
      (by omega) (delimited_cons (by simp) _)
    obtain ⟨c, cs, htext, hblank, hc⟩ := renderItems_start hw vs
    have hroom : 3 * (Json.renderItems (w :: vs)).length + 2 ≤ fuel := by omega
    have hrest := ih hw hroom
    rw [renderItems_cons_cons, List.append_assoc, List.cons_append, item, hread]
    rw [htext, List.cons_append] at hrest ⊢
    simp only [items_comma hblank fuel _ hc, hrest]

theorem readAs_array {vs : List Json} {ds : List Document} (h : List.Forall₂ ReadAs vs ds) :
    ReadAs (.array vs) (.array ds .closed) := by
  have htext : (Json.array vs).render.toList = '[' :: ((Json.renderItems vs).toList ++ [']']) := by
    rw [Json.render, String.toList_append, String.toList_append]
    rfl
  refine .of_cons htext rfl (by decide) fun {fuel rest} hfuel hrest => ?_
  have hlength : (Json.array vs).render.length = (Json.renderItems vs).length + 2 := by
    rw [← String.length_toList, htext, List.length_cons, List.length_append, String.length_toList]
    rfl
  obtain ⟨fuel, rfl⟩ := Nat.exists_eq_add_of_le' (show 2 ≤ fuel by omega)
  rw [List.append_assoc]
  cases h with
  | nil => rfl
  | @cons v d vs ds hv hvs =>
    obtain ⟨c, cs, hitems, hblank, hc⟩ := renderItems_start hv vs
    have hroom : 3 * (Json.renderItems (v :: vs)).length + 2 ≤ fuel + 1 := by omega
    have hread := item_renderItems hv hvs rest hroom
    rw [hitems] at hread ⊢
    have hvalue : items (fuel + 2) true (c :: cs ++ ([']'] ++ rest)) =
        (d :: ds, .closed, some rest) := (items_first hblank (fuel + 1) _ hc).trans hread
    rw [value, skipBlanks_cons rfl]
    exact congrArg (fun r => (Document.array r.1 r.2.1, r.2.2)) hvalue

/-- A member is read as a member with the same name. -/
def ReadMember (m : String × Json) (m' : String × Document) : Prop :=
  m.1 = m'.1 ∧ ReadAs m.2 m'.2

theorem textLiteral_eq_cons (s : String) :
    (Json.textLiteral s).toList = '"' :: (Json.textLiteral s).toList.tail := by
  rw [toList_textLiteral, List.tail_cons]

theorem renderMembers_singleton (name : String) (v : Json) :
    (Json.renderMembers [(name, v)]).toList =
      '"' :: ((Json.textLiteral name).toList.tail ++ ':' :: v.render.toList) := by
  rw [Json.renderMembers, String.toList_append, String.toList_append, textLiteral_eq_cons,
    List.append_assoc]
  rfl

theorem renderMembers_cons_cons (name : String) (v : Json) (m : String × Json)
    (ms : List (String × Json)) : (Json.renderMembers ((name, v) :: m :: ms)).toList =
      '"' :: ((Json.textLiteral name).toList.tail ++
        ':' :: (v.render.toList ++ ',' :: (Json.renderMembers (m :: ms)).toList)) := by
  rw [Json.renderMembers]
  · simp only [String.toList_append, List.append_assoc]
    rw [textLiteral_eq_cons]
    rfl
  · exact List.cons_ne_nil m ms

theorem renderMembers_start (name : String) (v : Json) (ms : List (String × Json)) :
    ∃ cs, (Json.renderMembers ((name, v) :: ms)).toList = '"' :: cs := by
  cases ms with
  | nil => exact ⟨_, renderMembers_singleton name v⟩
  | cons m ms => exact ⟨_, renderMembers_cons_cons name v m ms⟩

theorem member_of_read {name : String} {v : Json} {d : Document} (hv : ReadAs v d)
    (afterComma : Bool) {next rest : List Char} (hnext : Delimited next) {fuel : Nat}
    (hname : name.length < fuel) (hfuel : 3 * v.render.length ≤ fuel)
    {ms' : List (String × Document)}
    (hmembers : members fuel false next = (ms', .closed, some rest)) :
    member (fuel + 1) afterComma
        ((Json.textLiteral name).toList.tail ++ ':' :: (v.render.toList ++ next)) =
      ((name, d) :: ms', .closed, some rest) := by
  rw [member, quotation_textLiteral hname]
  simp only [skipBlanks_cons (show isBlank ':' = false from rfl), hv.read _ _ hfuel hnext, hmembers]

/-- The first member is read at once, another one after a comma. -/
theorem members_first (fuel : Nat) (cs : List Char) :
    members (fuel + 1) true ('"' :: cs) = member fuel false cs := by
  rw [members, skipBlanks_cons rfl]
  rfl

theorem members_comma (fuel : Nat) (cs : List Char) :
    members (fuel + 1) false (',' :: '"' :: cs) = member fuel true cs := by
  rw [members, skipBlanks_cons rfl]
  rfl

/-- The members of an object are read one after the other. -/
theorem member_renderMembers {name : String} {v : Json} {d : Document} {ms : List (String × Json)}
    {ms' : List (String × Document)} (hv : ReadAs v d) (hms : List.Forall₂ ReadMember ms ms')
    (afterComma : Bool) (rest : List Char) {fuel : Nat}
    (hfuel : 3 * (Json.renderMembers ((name, v) :: ms)).length + 2 ≤ fuel) :
    member fuel afterComma
        ((Json.renderMembers ((name, v) :: ms)).toList.tail ++ '\x7d' :: rest) =
      ((name, d) :: ms', .closed, some rest) := by
  induction hms generalizing name v d fuel afterComma with
  | nil =>
    obtain ⟨fuel, rfl⟩ := Nat.exists_eq_add_of_le' (show 2 ≤ fuel by omega)
    have hname := length_le_textLiteral name
    have hlength : (Json.renderMembers [(name, v)]).length =
        (Json.textLiteral name).length + 1 + v.render.length := by
      rw [Json.renderMembers, String.length_append, String.length_append]
      rfl
    rw [renderMembers_singleton, List.tail_cons, List.append_assoc, List.cons_append]
    exact member_of_read hv afterComma (delimited_cons (by simp) _) (by omega) (by omega) rfl
  | @cons m m' ms ms' hm hms ih =>
    obtain ⟨fuel, rfl⟩ := Nat.exists_eq_add_of_le' (show 2 ≤ fuel by omega)
    obtain ⟨name', w⟩ := m
    obtain ⟨_, e⟩ := m'
    obtain ⟨rfl, hw⟩ := hm
    have hname := length_le_textLiteral name
    have hlength : (Json.renderMembers ((name, v) :: (name', w) :: ms)).length =
        (Json.textLiteral name).length + 1 + v.render.length + 1 +
          (Json.renderMembers ((name', w) :: ms)).length := by
      rw [Json.renderMembers, String.length_append, String.length_append, String.length_append,
        String.length_append]
      · rfl
      · exact List.cons_ne_nil _ ms
    have hroom : 3 * (Json.renderMembers ((name', w) :: ms)).length + 2 ≤ fuel := by omega
    have hrest := ih hw true hroom
    obtain ⟨cs, hcs⟩ := renderMembers_start name' w ms
    rw [hcs, List.tail_cons] at hrest
    rw [renderMembers_cons_cons, hcs, List.tail_cons, List.append_assoc, List.cons_append,
      List.append_assoc, List.cons_append, List.cons_append]
    exact member_of_read hv afterComma (delimited_cons (by simp) _) (by omega) (by omega)
      ((members_comma fuel _).trans hrest)

theorem readAs_object {ms : List (String × Json)} {ms' : List (String × Document)}
    (h : List.Forall₂ ReadMember ms ms') : ReadAs (.object ms) (.object ms' .closed) := by
  have htext : (Json.object ms).render.toList =
      '\x7b' :: ((Json.renderMembers ms).toList ++ ['\x7d']) := by
    rw [Json.render, String.toList_append, String.toList_append]
    rfl
  refine .of_cons htext rfl (by decide) fun {fuel rest} hfuel hrest => ?_
  have hlength : (Json.object ms).render.length = (Json.renderMembers ms).length + 2 := by
    rw [Json.render, String.length_append, String.length_append]
    show 1 + _ + 1 = _
    omega
  obtain ⟨fuel, rfl⟩ := Nat.exists_eq_add_of_le' (show 2 ≤ fuel by omega)
  rw [List.append_assoc, value, skipBlanks_cons rfl]
  cases h with
  | nil => rfl
  | @cons m m' ms ms' hm hms =>
    obtain ⟨name, v⟩ := m
    obtain ⟨_, d⟩ := m'
    obtain ⟨rfl, hv⟩ := hm
    obtain ⟨cs, hcs⟩ := renderMembers_start name v ms
    have hroom : 3 * (Json.renderMembers ((name, v) :: ms)).length + 2 ≤ fuel + 1 := by omega
    have hread := member_renderMembers hv hms false rest hroom
    rw [hcs, List.tail_cons] at hread
    rw [hcs]
    have hvalue : members (fuel + 2) true ('"' :: cs ++ (['\x7d'] ++ rest)) =
        ((name, d) :: ms', .closed, some rest) := (members_first (fuel + 1) _).trans hread
    exact congrArg (fun r => (Document.object r.1 r.2.1, r.2.2)) hvalue

/-! ## Whole texts -/

/-- **A value is read from its own text.** -/
theorem ReadAs.ofText_eq {v : Json} {d : Document} (h : ReadAs v d) :
    ofText v.render = (d, false) := by
  have hread := h.read (3 * v.render.toList.length + 3) []
    (by rw [String.length_toList]; omega) delimited_nil
  rw [List.append_nil] at hread
  rw [ofText, hread]
  rfl

end Document

end QuantumProgram
