import LeetBot.JsonDump
import LeetBot.JsonParse

/-!
# Between values and texts

`parse` returns only values whose objects are sorted by key and whose integers have 64 bits, and it takes back what
`dump` has written of such a value.  For the floats, whose conversions are parameters, it is assumed that what
`dump_float` writes is read back.
-/

namespace LeetBot

open SortedMembers LeetBot.Lexer LeetBot.Parser

namespace Json

/-- The keys of all objects are sorted, the integers have 64 bits, and the floats are what `float` says. -/
inductive WellFormed (float : Rat → Prop) : Json → Prop
  | null : WellFormed float null
  | boolean (b : Bool) : WellFormed float (boolean b)
  | number {i : Int} (hlow : -2 ^ 63 ≤ i) (hhigh : i < 2 ^ 64) : WellFormed float (number i)
  | numberFloat {q : Rat} (h : float q) : WellFormed float (numberFloat q)
  | string (s : String) : WellFormed float (string s)
  | array {l : List Json} (h : ∀ j ∈ l, WellFormed float j) : WellFormed float (array l)
  | object {m : List (String × Json)} (hkeys : KeysSorted m) (h : ∀ x ∈ m, WellFormed float x.2) :
      WellFormed float (object m)

/-! ### Texts -/

section Texts

variable {buffer cs : List Char} {c : Char}

private theorem hexDigit_hexChar : ∀ n < 16, hexDigit (hexChar n) = some n := by decide

private theorem getCodepoint_hex {n : Nat} (h : n < 2 ^ 16) :
    getCodepoint (hexChar (n / 4096 % 16) :: hexChar (n / 256 % 16) :: hexChar (n / 16 % 16) ::
      hexChar (n % 16) :: cs) = some (n, cs) := by
  have hdigit : ∀ k, hexDigit (hexChar (k % 16)) = some (k % 16) := fun k =>
    hexDigit_hexChar _ (Nat.mod_lt k (by decide))
  have hsum : n / 4096 % 16 * 2 ^ 12 + n / 256 % 16 * 2 ^ 8 + n / 16 % 16 * 2 ^ 4 + n % 16 = n := by omega
  simp only [getCodepoint, hdigit, Option.bind_eq_bind, Option.bind_some, Option.pure_def, hsum]

private theorem scanString_escape {e : Char} (he : escapes.lookup e = some c) (hu : e ≠ 'u') :
    scanString buffer ('\\' :: e :: cs) = scanString (buffer ++ [c]) cs := by
  apply scanString_backslash
  simp only [scanEscape, beq_iff_eq, if_neg hu, he, Option.map_some]

private theorem scanString_control (h : c.toNat ≤ 0x1F) :
    scanString buffer ('\\' :: 'u' :: hexChar (c.toNat / 4096 % 16) :: hexChar (c.toNat / 256 % 16) ::
      hexChar (c.toNat / 16 % 16) :: hexChar (c.toNat % 16) :: cs) = scanString (buffer ++ [c]) cs := by
  have hhigh : isHighSurrogate c.toNat = false := by
    simp only [isHighSurrogate, Bool.and_eq_false_iff, decide_eq_false_iff_not]
    exact .inl (by omega)
  have hlow : isLowSurrogate c.toNat = false := by
    simp only [isLowSurrogate, Bool.and_eq_false_iff, decide_eq_false_iff_not]
    exact .inl (by omega)
  apply scanString_backslash
  simp only [scanEscape, beq_self_eq_true, if_true, scanUnicode, getCodepoint_hex (by omega : c.toNat < 2 ^ 16),
    hhigh, hlow, Bool.false_eq_true, if_false, Char.ofNat_toNat]

private theorem scanString_escapeChar : scanString buffer (escapeChar c ++ cs) = scanString (buffer ++ [c]) cs := by
  unfold escapeChar
  simp only [beq_iff_eq]
  iterate 7
    split
    · subst_vars
      exact scanString_escape (by decide) (by decide)
  split
  · rename_i hcontrol
    exact scanString_control hcontrol
  · exact scanString_plain ‹_› ‹_› (by omega)

private theorem scanString_flatMap (text : List Char) :
    scanString buffer (text.flatMap escapeChar ++ '"' :: cs) = (.valueString (.ofList (buffer ++ text)), cs) := by
  induction text generalizing buffer with
  | nil =>
    rw [List.append_nil]
    exact scanString_quote
  | cons c text ih =>
    rw [List.flatMap_cons, List.append_assoc, scanString_escapeChar, ih, List.append_assoc]
    rfl

private theorem scan_dumpString (s : String) : scan (dumpString s ++ cs) = (.valueString s, cs) := by
  have hstring : scanString [] (s.toList.flatMap escapeChar ++ '"' :: cs) =
      (.valueString (.ofList ([] ++ s.toList)), cs) := scanString_flatMap s.toList
  rw [List.nil_append, String.ofList_toList] at hstring
  show scan ('"' :: (dumpEscaped s ++ ['"'] ++ cs)) = _
  rw [scan_other (by decide) (by decide) (by decide), if_pos (beq_self_eq_true _), List.append_assoc]
  exact hstring

end Texts

/-! ### Numbers -/

section Numbers

variable {rest : List Char} {n : Nat}

/-- What follows a value inside of another one, or nothing. -/
def Delimited (rest : List Char) : Prop := ∀ c ∈ rest.head?, c = ',' ∨ c = ']' ∨ c = '}'

private theorem isDigit_toDigits {c : Char} (hc : c ∈ Nat.toDigits 10 n) : c.isDigit = true :=
  Nat.isDigit_of_mem_toDigits (by decide) (by decide) hc

private theorem scanNumber_delimited {s : NumberState} {type : NumberType} {buffer : List Char}
    (hs : s = .any1 ∨ s = .zero)
    (hrest : Delimited rest) : scanNumber s type buffer rest = (convert type buffer, rest) := by
  have hdone : s.done = true := by rcases hs with rfl | rfl <;> rfl
  cases rest with
  | nil => rw [scanNumber, if_pos hdone]
  | cons c rest =>
    have hnext : s.next c = none := by
      rcases hs with rfl | rfl <;> rcases hrest c rfl with rfl | rfl | rfl <;> rfl
    rw [scanNumber, hnext]
    simp only [if_pos hdone]

private theorem scanNumber_digits {type : NumberType} {buffer digits : List Char}
    (hdigits : ∀ c ∈ digits, c.isDigit = true) (hrest : Delimited rest) :
    scanNumber .any1 type buffer (digits ++ rest) = (convert type (buffer ++ digits), rest) := by
  induction digits generalizing buffer with
  | nil =>
    rw [List.append_nil]
    exact scanNumber_delimited (.inl rfl) hrest
  | cons c digits ih =>
    have hnext : NumberState.any1.next c = some .any1 := by
      simp only [NumberState.next, hdigits c List.mem_cons_self, if_true]
    rw [List.cons_append, scanNumber, hnext]
    show scanNumber .any1 type (buffer ++ [c]) (digits ++ rest) = _
    rw [ih fun c hc => hdigits c (List.mem_cons_of_mem _ hc), List.append_assoc]
    rfl

private theorem exists_toDigits (h : 0 < n) : ∃ c ds, Nat.toDigits 10 n = c :: ds ∧ c ≠ '0' := by
  induction n using Nat.strong_induction_on with
  | _ n ih =>
    by_cases hlt : n < 10
    · refine ⟨Nat.digitChar n, [], Nat.toDigits_of_lt_base hlt, ?_⟩
      have hne : ∀ m < 10, 0 < m → Nat.digitChar m ≠ '0' := by decide
      exact hne n hlt h
    · obtain ⟨c, ds, hds, hc⟩ := ih (n / 10) (by omega) (by omega)
      refine ⟨c, ds ++ [Nat.digitChar (n % 10)], ?_, hc⟩
      rw [toDigits_of_ten_le (by omega), hds]
      rfl

private theorem lookup_of_isDigit {α : Type} {l : List (Char × α)} {c : Char} (hl : ∀ x ∈ l, x.1.isDigit = false)
    (hc : c.isDigit = true) : l.lookup c = none := by
  apply List.lookup_eq_none_iff.2
  intro x hx
  have hne : c ≠ x.1 := by
    intro heq
    rw [heq, hl x hx] at hc
    cases hc
  exact bne_iff_ne.2 hne

/-- A number that does not begin with a sign. -/
theorem scan_digit {c : Char} {cs : List Char} (hc : c.isDigit = true) :
    scan (c :: cs) = scanNumber (if c = '0' then .zero else .any1) .unsigned [c] cs := by
  have hne : ∀ x : Char, x.isDigit = false → (c == x) = false := by
    intro x hx
    apply beq_false_of_ne
    intro heq
    rw [heq, hx] at hc
    cases hc
  have hspace : isWhitespace c = false := by
    simp only [isWhitespace, hne ' ' rfl, hne '\t' rfl, hne '\n' rfl, hne '\r' rfl, Bool.or_false]
  rw [scan_other hspace (lookup_of_isDigit (by decide) hc) (lookup_of_isDigit (by decide) hc), hne '"' rfl,
    hne '-' rfl]
  by_cases h0 : c = '0'
  · simp [h0]
  · simp [h0, hc]

private theorem scanNumber_toDigits {type : NumberType} {buffer ds : List Char} {c : Char}
    (hds : Nat.toDigits 10 n = c :: ds) (hrest : Delimited rest) :
    scanNumber (if c = '0' then .zero else .any1) type (buffer ++ [c]) (ds ++ rest) =
      (convert type (buffer ++ Nat.toDigits 10 n), rest) := by
  rcases Nat.eq_zero_or_pos n with rfl | hpos
  · rw [Nat.toDigits_zero] at hds ⊢
    cases hds
    exact scanNumber_delimited (.inr rfl) hrest
  · obtain ⟨c', ds', hds', hc'⟩ := exists_toDigits hpos
    rw [hds] at hds'
    cases hds'
    have hdigits : ∀ d ∈ ds, d.isDigit = true := by
      intro d hd
      apply isDigit_toDigits (n := n)
      rw [hds]
      exact List.mem_cons_of_mem _ hd
    rw [if_neg hc', scanNumber_digits hdigits hrest, hds, List.append_assoc]
    rfl

private theorem scan_toDigits (h : n < 2 ^ 64) (hrest : Delimited rest) :
    scan (Nat.toDigits 10 n ++ rest) = (.valueUnsigned n, rest) := by
  cases hds : Nat.toDigits 10 n with
  | nil => exact absurd hds Nat.toDigits_ne_nil
  | cons c ds =>
    have hc : c.isDigit = true := by
      apply isDigit_toDigits (n := n)
      rw [hds]
      exact List.mem_cons_self
    have hnumber : scanNumber (if c = '0' then .zero else .any1) .unsigned ([] ++ [c]) (ds ++ rest) =
        (convert .unsigned ([] ++ Nat.toDigits 10 n), rest) := scanNumber_toDigits hds hrest
    rw [List.nil_append, List.nil_append] at hnumber
    rw [List.cons_append, scan_digit hc, hnumber]
    simp only [convert, Nat.ofDigitChars_ten_toDigits, if_pos h]

/-- The state behind the first digit of a negative number. -/
theorem next_minus {c : Char} (hc : c.isDigit = true) :
    NumberState.minus.next c = some (if c = '0' then .zero else .any1) := by
  by_cases h0 : c = '0' <;> simp [NumberState.next, h0, hc]

theorem numberType_first {c : Char} {type : NumberType} :
    (if c = '0' then NumberState.zero else .any1).numberType type = type := by
  split <;> rfl

private theorem scan_minus_toDigits (h : n ≤ 2 ^ 63) (hrest : Delimited rest) :
    scan ('-' :: Nat.toDigits 10 n ++ rest) = (.valueInteger (-n), rest) := by
  cases hds : Nat.toDigits 10 n with
  | nil => exact absurd hds Nat.toDigits_ne_nil
  | cons c ds =>
    have hc : c.isDigit = true := by
      apply isDigit_toDigits (n := n)
      rw [hds]
      exact List.mem_cons_self
    have hnumber : scanNumber (if c = '0' then .zero else .any1) .integer (['-'] ++ [c]) (ds ++ rest) =
        (convert .integer (['-'] ++ Nat.toDigits 10 n), rest) := scanNumber_toDigits hds hrest
    rw [List.cons_append, List.cons_append, scan_other (by decide) (by decide) (by decide)]
    show scanNumber .minus .integer ['-'] (c :: (ds ++ rest)) = _
    rw [scanNumber, next_minus hc]
    dsimp only
    rw [numberType_first, hnumber, List.singleton_append]
    simp only [convert, Nat.ofDigitChars_ten_toDigits, if_pos h]

/-- The token of an integer of 64 bits. -/
def integerToken (i : Int) : Token := if i < 0 then .valueInteger i else .valueUnsigned i.toNat

private theorem scan_dumpInteger {i : Int} (hlow : -2 ^ 63 ≤ i) (hhigh : i < 2 ^ 64) (hrest : Delimited rest) :
    scan (dumpInteger i ++ rest) = (integerToken i, rest) := by
  rw [dumpInteger_eq, integerToken]
  by_cases hneg : i < 0
  · have habs : i = -(i.natAbs : Int) := by omega
    rw [if_pos hneg, if_pos hneg, scan_minus_toDigits (by omega) hrest, ← habs]
  · have habs : i.natAbs = i.toNat := by omega
    rw [if_neg hneg, if_neg hneg, scan_toDigits (by omega) hrest, habs]

end Numbers

/-! ### Values -/

section Values

variable {strtod : List Char → Option Rat} {dumpFloat : Rat → List Char} {rest : List Char}

private theorem delimited_nil : Delimited [] := fun _ hc => nomatch hc

private theorem delimited_cons {c : Char} (h : c = ',' ∨ c = ']' ∨ c = '}') : Delimited (c :: rest) := by
  intro c' hc'
  cases hc'
  exact h

private theorem tokens_bracket : tokens (']' :: rest) = .endArray :: tokens rest :=
  tokens_structural rfl rfl (by decide) (by decide)

private theorem tokens_comma : tokens (',' :: rest) = .valueSeparator :: tokens rest :=
  tokens_structural rfl rfl (by decide) (by decide)

private theorem tokens_brace : tokens ('}' :: rest) = .endObject :: tokens rest :=
  tokens_structural rfl rfl (by decide) (by decide)

private theorem tokens_key (key : String) : tokens (dumpString key ++ ':' :: rest) =
    .valueString key :: .nameSeparator :: tokens rest := by
  rw [tokens_of_scan (scan_dumpString key) (by simp) (by simp),
    tokens_structural (c := ':') rfl rfl (by decide) (by decide)]

/-- The parser gets from the text of a value to the state behind that value. -/
def Reads (strtod : List Char → Option Rat) (dumpFloat : Rat → List Char) (j : Json) : Prop :=
  ∀ stack rest, Delimited rest →
    parseValue strtod stack (tokens (j.dump dumpFloat ++ rest)) = afterValue strtod stack j (tokens rest)

private theorem reads_number {i : Int} (hlow : -2 ^ 63 ≤ i) (hhigh : i < 2 ^ 64) :
    Reads strtod dumpFloat (number i) := by
  intro stack rest hrest
  have hscan := scan_dumpInteger hlow hhigh hrest
  unfold integerToken at hscan
  rw [dump]
  split at hscan
  · rw [tokens_of_scan hscan (by simp) (by simp), parseValue]
  · rename_i hneg
    have hcast : ((i.toNat : Nat) : Int) = i := Int.toNat_of_nonneg (by omega)
    rw [tokens_of_scan hscan (by simp) (by simp), parseValue, hcast]

private theorem Reads.ne_endArray {j : Json} (h : Reads strtod dumpFloat j) (hrest : Delimited rest)
    (ts : List Token) :
    tokens (j.dump dumpFloat ++ rest) ≠ .endArray :: ts := by
  intro heq
  have hread := h [] rest hrest
  rw [heq, parseValue_endArray, afterValue] at hread
  cases hread

/-- What `dump` writes behind an element. -/
def elementsTail (dumpFloat : Rat → List Char) : List Json → List Char
  | [] => []
  | j :: l => ',' :: dumpElements dumpFloat (j :: l)

private theorem dumpElements_cons (j : Json) (l : List Json) :
    dumpElements dumpFloat (j :: l) = j.dump dumpFloat ++ elementsTail dumpFloat l := by
  cases l with
  | nil => rw [dumpElements, elementsTail, List.append_nil]
  | cons j' l =>
    rw [dumpElements, elementsTail]
    simp

private theorem delimited_elementsTail {l : List Json} : Delimited (elementsTail dumpFloat l ++ ']' :: rest) := by
  cases l with
  | nil => exact delimited_cons (.inr (.inl rfl))
  | cons j l => exact delimited_cons (.inl rfl)

private theorem reads_elements {j : Json} {l : List Json} (h : ∀ j' ∈ j :: l, Reads strtod dumpFloat j')
    (l₀ : List Json) (stack : List Frame) :
    parseValue strtod (.array l₀ :: stack) (tokens (j.dump dumpFloat ++ (elementsTail dumpFloat l ++ ']' :: rest))) =
      afterValue strtod stack (.array (l₀ ++ j :: l)) (tokens rest) := by
  rw [h j List.mem_cons_self _ _ delimited_elementsTail]
  induction l generalizing l₀ j with
  | nil => rw [elementsTail, List.nil_append, tokens_bracket, afterValue]
  | cons j' l ih =>
    have htail : ∀ j'' ∈ j' :: l, Reads strtod dumpFloat j'' := fun j'' hj => h j'' (List.mem_cons_of_mem _ hj)
    rw [elementsTail, List.cons_append, tokens_comma, afterValue, dumpElements_cons, List.append_assoc,
      htail j' List.mem_cons_self _ _ delimited_elementsTail, ih htail, List.append_assoc]
    rfl

private theorem reads_array {l : List Json} (h : ∀ j ∈ l, Reads strtod dumpFloat j) :
    Reads strtod dumpFloat (array l) := by
  intro stack rest _
  have hbegin : ∀ cs, tokens ('[' :: cs) = .beginArray :: tokens cs := fun cs =>
    tokens_structural rfl rfl (by decide) (by decide)
  rw [dump, List.cons_append, List.append_assoc, List.singleton_append, hbegin]
  cases l with
  | nil =>
    rw [dumpElements, List.nil_append, tokens_bracket]
    rfl
  | cons j l =>
    have hne : ∀ ts, tokens (j.dump dumpFloat ++ (elementsTail dumpFloat l ++ ']' :: rest)) ≠ .endArray :: ts :=
      (h j List.mem_cons_self).ne_endArray delimited_elementsTail
    rw [dumpElements_cons, List.append_assoc, parseValue_beginArray hne, reads_elements h, List.nil_append]

/-- What `dump` writes behind the value of a member. -/
def membersTail (dumpFloat : Rat → List Char) : List (String × Json) → List Char
  | [] => []
  | x :: m => ',' :: dumpMembers dumpFloat (x :: m)

private theorem dumpMembers_cons (key : String) (j : Json) (m : List (String × Json)) :
    dumpMembers dumpFloat ((key, j) :: m) =
      dumpString key ++ ':' :: (j.dump dumpFloat ++ membersTail dumpFloat m) := by
  cases m with
  | nil => rw [dumpMembers, membersTail, List.append_nil]
  | cons x m =>
    rw [dumpMembers, membersTail]
    simp

private theorem delimited_membersTail {m : List (String × Json)} :
    Delimited (membersTail dumpFloat m ++ '}' :: rest) := by
  cases m with
  | nil => exact delimited_cons (.inr (.inr rfl))
  | cons x m => exact delimited_cons (.inl rfl)

private theorem reads_members {m : List (String × Json)} {key : String} {j : Json}
    (h : ∀ x ∈ (key, j) :: m, Reads strtod dumpFloat x.2) {m₀ : List (String × Json)}
    (hkeys : KeysSorted (m₀ ++ (key, j) :: m)) (stack : List Frame) :
    parseValue strtod (.object m₀ key :: stack)
        (tokens (j.dump dumpFloat ++ (membersTail dumpFloat m ++ '}' :: rest))) =
      afterValue strtod stack (.object (m₀ ++ (key, j) :: m)) (tokens rest) := by
  rw [h _ List.mem_cons_self _ _ delimited_membersTail]
  induction m generalizing m₀ key j with
  | nil =>
    rw [membersTail, List.nil_append, tokens_brace, afterValue, insertKey_eq_append hkeys.lt_of_append]
  | cons x m ih =>
    obtain ⟨key', j'⟩ := x
    have htail : ∀ y ∈ (key', j') :: m, Reads strtod dumpFloat y.2 := fun y hy => h y (List.mem_cons_of_mem _ hy)
    have hkeys' : KeysSorted ((m₀ ++ [(key, j)]) ++ (key', j') :: m) := by
      rw [List.append_assoc]
      exact hkeys
    rw [membersTail, List.cons_append, tokens_comma, dumpMembers_cons, List.append_assoc, List.cons_append,
      tokens_key, List.append_assoc, afterValue, insertKey_eq_append hkeys.lt_of_append,
      htail _ List.mem_cons_self _ _ delimited_membersTail, ih htail hkeys', List.append_assoc]
    rfl

private theorem reads_object {m : List (String × Json)} (hkeys : KeysSorted m)
    (h : ∀ x ∈ m, Reads strtod dumpFloat x.2) :
    Reads strtod dumpFloat (object m) := by
  intro stack rest _
  have hbegin : ∀ cs, tokens ('{' :: cs) = .beginObject :: tokens cs := fun cs =>
    tokens_structural rfl rfl (by decide) (by decide)
  rw [dump, List.cons_append, List.append_assoc, List.singleton_append, hbegin]
  cases m with
  | nil =>
    rw [dumpMembers, List.nil_append, tokens_brace]
    rfl
  | cons x m =>
    obtain ⟨key, j⟩ := x
    rw [dumpMembers_cons, List.append_assoc, List.cons_append, tokens_key, List.append_assoc]
    have hkeys' : KeysSorted ([] ++ (key, j) :: m) := hkeys
    exact reads_members h hkeys' stack

/-- What `dump_float` writes for the float is a number with a decimal point or an exponent, and its value is the
float. -/
def Rereads (strtod : List Char → Option Rat) (dumpFloat : Rat → List Char) (q : Rat) : Prop :=
  strtod (dumpFloat q) = some q ∧
    ∀ rest, Delimited rest → scan (dumpFloat q ++ rest) = (.valueFloat (dumpFloat q), rest)

/-- The parser reads what `dump` has written. -/
theorem reads_of_wellFormed {j : Json} (h : j.WellFormed (Rereads strtod dumpFloat)) : Reads strtod dumpFloat j := by
  induction h with
  | null =>
    intro stack rest _
    have hscan : scan ('n' :: (['u', 'l', 'l'] ++ rest)) = (.literalNull, rest) := scan_literal rfl rfl rfl
    rw [dump, List.cons_append, tokens_of_scan hscan (by decide) (by decide)]
    rfl
  | boolean b =>
    intro stack rest _
    cases b with
    | true =>
      have hscan : scan ('t' :: (['r', 'u', 'e'] ++ rest)) = (.literalTrue, rest) := scan_literal rfl rfl rfl
      rw [dump, List.cons_append, tokens_of_scan hscan (by decide) (by decide)]
      rfl
    | false =>
      have hscan : scan ('f' :: (['a', 'l', 's', 'e'] ++ rest)) = (.literalFalse, rest) := scan_literal rfl rfl rfl
      rw [dump, List.cons_append, tokens_of_scan hscan (by decide) (by decide)]
      rfl
  | number hlow hhigh => exact reads_number hlow hhigh
  | numberFloat h =>
    intro stack rest hrest
    rw [dump, tokens_of_scan (h.2 rest hrest) (by simp) (by simp), parseValue, h.1]
  | string s =>
    intro stack rest _
    rw [dump, tokens_of_scan (scan_dumpString s) (by simp) (by simp)]
    rfl
  | array _ ih => exact reads_array ih
  | object hkeys _ ih => exact reads_object hkeys ih

theorem parse_of_reads {j : Json} (h : Reads strtod dumpFloat j) :
    parse strtod (.ofList (j.dump dumpFloat)) = some j := by
  have hread : parseValue strtod [] (tokens (j.dump dumpFloat ++ [])) = afterValue strtod [] j (tokens []) :=
    h [] [] delimited_nil
  rw [List.append_nil, tokens_nil, afterValue] at hread
  rw [parse, String.toList_ofList, skipBom_of_parseValue hread, hread]

/-- A value that is dumped and parsed comes back. -/
theorem parse_dump {j : Json} (h : j.WellFormed (Rereads strtod dumpFloat)) :
    parse strtod (.ofList (j.dump dumpFloat)) = some j :=
  parse_of_reads (reads_of_wellFormed h)

/-- A member with a text that needs escapes, and one with an integer. -/
def sampleMembers : Json := .object [("limit", .number 50), ("name", .string "a\"\x01")]

private theorem wellFormed_sampleMembers (float : Rat → Prop) : sampleMembers.WellFormed float := by
  refine .object ?_ ?_
  · exact keysSorted_cons.2 ⟨by decide, keysSorted_cons.2 ⟨by decide, keysSorted_nil⟩⟩
  · intro x hx
    simp only [List.mem_cons, List.not_mem_nil, or_false] at hx
    rcases hx with rfl | rfl
    · exact .number (by decide) (by decide)
    · exact .string _

theorem parse_dump_sample :
    sampleMembers.WellFormed (Rereads (fun _ => none) fun _ => []) ∧
      parse (fun _ => none) "\x7b\"limit\":50,\"name\":\"a\\\"\\u0001\"\x7d" = some sampleMembers := by
  have htext : String.ofList (sampleMembers.dump fun _ => []) = "\x7b\"limit\":50,\"name\":\"a\\\"\\u0001\"\x7d" := by
    decide +kernel
  refine ⟨wellFormed_sampleMembers _, ?_⟩
  rw [← htext]
  exact parse_dump (wellFormed_sampleMembers _)

end Values

/-! ### What is accepted -/

section Accepted

variable {strtod : List Char → Option Rat} {P : Json → Prop}

/-- The integers of the lexer have 64 bits. -/
def InRange : Token → Prop
  | .valueUnsigned n => n < 2 ^ 64
  | .valueInteger i => -2 ^ 63 ≤ i ∧ i ≤ 0
  | _ => True

private theorem inRange_convert (type : NumberType) (buffer : List Char) : InRange (convert type buffer) := by
  unfold convert
  split
  · dsimp only
    split
    · assumption
    · trivial
  · dsimp only
    split
    · constructor <;> omega
    · trivial
  · trivial

private theorem inRange_scanNumber {s : NumberState} {type : NumberType} {buffer cs : List Char} :
    InRange (scanNumber s type buffer cs).1 := by
  induction cs generalizing s type buffer with
  | nil =>
    unfold scanNumber
    split
    · exact inRange_convert type buffer
    · trivial
  | cons c cs ih =>
    unfold scanNumber
    split
    · exact ih
    · split
      · exact inRange_convert type buffer
      · trivial

private theorem inRange_scanString {buffer cs : List Char} : InRange (scanString buffer cs).1 := by
  fun_induction scanString buffer cs with
  | case4 _ _ _ _ _ _ _ _ ih => exact ih
  | case6 _ _ _ _ _ _ ih => exact ih
  | _ => trivial

private theorem inRange_scanAt {c : Char} {cs : List Char} : InRange (scanAt c cs).1 := by
  unfold scanAt
  split
  · rename_i t ht
    obtain ⟨l₁, l₂, hl, -⟩ := List.lookup_eq_some_iff.1 ht
    have hmem : (c, t) ∈ structural := hl ▸ List.mem_append_right _ List.mem_cons_self
    have hall : ∀ x ∈ structural, InRange x.2 := by simp [structural, InRange]
    exact hall _ hmem
  · rename_i literal t _ ht
    obtain ⟨l₁, l₂, hl, -⟩ := List.lookup_eq_some_iff.1 ht
    have hmem : (c, literal, t) ∈ literals := hl ▸ List.mem_append_right _ List.mem_cons_self
    have hall : ∀ x ∈ literals, InRange x.2.2 := by simp [literals, InRange]
    unfold scanLiteral
    split
    · exact hall _ hmem
    · trivial
  split
  · exact inRange_scanString
  split
  · exact inRange_scanNumber
  split
  · exact inRange_scanNumber
  split
  · exact inRange_scanNumber
  split
  · trivial
  · trivial

private theorem inRange_tokens {cs : List Char} : ∀ t ∈ tokens cs, InRange t := by
  have hscan : ∀ cs, InRange (scan cs).1 := by
    intro cs
    unfold scan
    split
    · trivial
    · exact inRange_scanAt
  fun_induction tokens cs with
  | case1 =>
    intro t ht
    exact absurd ht List.not_mem_nil
  | case2 =>
    intro t ht
    rw [List.mem_singleton.1 ht]
    trivial
  | case3 cs t rest h _ _ ih =>
    intro t' ht'
    rcases List.mem_cons.1 ht' with rfl | ht'
    · have hrange := hscan cs
      rwa [h] at hrange
    · exact ih t' ht'

/-- What a frame holds. -/
def Holds (P : Json → Prop) : Frame → Prop
  | .array l => ∀ j ∈ l, P j
  | .object m _ => KeysSorted m ∧ ∀ x ∈ m, P x.2

/-- The floats that `strtod` can give. -/
def IsStrtod (strtod : List Char → Option Rat) (q : Rat) : Prop := ∃ text, strtod text = some q

private theorem holds_array_concat {l : List Json} {v : Json} (hl : Holds P (.array l)) (hv : P v) :
    Holds P (.array (l ++ [v])) := by
  intro j hj
  rcases List.mem_append.1 hj with hj | hj
  · exact hl j hj
  · exact List.mem_singleton.1 hj ▸ hv

private theorem holds_object_insertKey {m : List (String × Json)} {key key' : String} {v : Json}
    (hm : Holds P (.object m key)) (hv : P v) : Holds P (.object (insertKey key v m) key') := by
  refine ⟨hm.1.insertKey, ?_⟩
  intro x hx
  rcases mem_of_mem_insertKey hx with rfl | hx
  · exact hv
  · exact hm.2 x hx

/-- The invariant of the parser: the tokens that are left are in range, and what the stack holds is well-formed. -/
structure Sound (strtod : List Char → Option Rat) (stack : List Frame) (ts : List Token) : Prop where
  tokens : ∀ t ∈ ts, InRange t
  frames : ∀ f ∈ stack, Holds (WellFormed (IsStrtod strtod)) f

private theorem Sound.tail {stack : List Frame} {t : Token} {ts : List Token} (h : Sound strtod stack (t :: ts)) :
    Sound strtod stack ts :=
  ⟨fun t' ht' => h.tokens t' (List.mem_cons_of_mem _ ht'), h.frames⟩

private theorem Sound.push {stack : List Frame} {f : Frame} {ts : List Token} (h : Sound strtod stack ts)
    (hf : Holds (WellFormed (IsStrtod strtod)) f) : Sound strtod (f :: stack) ts := by
  refine ⟨h.tokens, ?_⟩
  intro f' hf'
  rcases List.mem_cons.1 hf' with rfl | hf'
  · exact hf
  · exact h.frames f' hf'

private theorem Sound.pop {stack : List Frame} {f : Frame} {ts : List Token} (h : Sound strtod (f :: stack) ts) :
    Sound strtod stack ts ∧ Holds (WellFormed (IsStrtod strtod)) f :=
  ⟨⟨h.tokens, fun f' hf' => h.frames f' (List.mem_cons_of_mem _ hf')⟩, h.frames f List.mem_cons_self⟩

private theorem wellFormed_of_parseValue (stack : List Frame) (ts : List Token) :
    Sound strtod stack ts → ∀ j rest, parseValue strtod stack ts = some (j, rest) →
      j.WellFormed (IsStrtod strtod) := by
  apply parseValue.induct strtod
    (fun stack ts => Sound strtod stack ts → ∀ j rest, parseValue strtod stack ts = some (j, rest) →
      j.WellFormed (IsStrtod strtod))
    (fun stack v ts => Sound strtod stack ts → v.WellFormed (IsStrtod strtod) →
      ∀ j rest, afterValue strtod stack v ts = some (j, rest) → j.WellFormed (IsStrtod strtod))
  -- the first token of a value
  · intro stack ts ih h
    exact ih h.tail.tail (.object keysSorted_nil fun x hx => nomatch hx)
  · intro stack key ts ih h
    exact ih (h.tail.tail.tail.push ⟨keysSorted_nil, fun x hx => nomatch hx⟩)
  · intro stack ts ih h
    exact ih h.tail.tail (.array fun x hx => nomatch hx)
  · intro stack ts hne ih h
    rw [parseValue_beginArray hne]
    exact ih (h.tail.push fun x hx => nomatch hx)
  · intro stack ts ih h
    exact ih h.tail (.boolean true)
  · intro stack ts ih h
    exact ih h.tail (.boolean false)
  · intro stack ts ih h
    exact ih h.tail .null
  · intro stack s ts ih h
    exact ih h.tail (.string s)
  · intro stack n ts ih h
    have hrange : n < 2 ^ 64 := h.tokens _ List.mem_cons_self
    exact ih h.tail (.number (by omega) (by omega))
  · intro stack i ts ih h
    have hrange : -2 ^ 63 ≤ i ∧ i ≤ 0 := h.tokens _ List.mem_cons_self
    exact ih h.tail (.number hrange.1 (by omega))
  · intro stack text ts q hq ih h
    rw [parseValue, hq]
    exact ih h.tail (.numberFloat ⟨text, hq⟩)
  · intro stack text ts hnone _ j rest hj
    rw [parseValue, hnone] at hj
    cases hj
  · intro ts stack _ _ _ _ _ _ _ _ _ _ _ _ j rest hj
    rw [parseValue] at hj
    · cases hj
    all_goals assumption
  -- behind a value
  · intro v ts _ hv j rest hj
    rw [afterValue] at hj
    cases hj
    exact hv
  · intro v l stack ts ih h hv
    obtain ⟨hstack, hf⟩ := h.tail.pop
    exact ih (hstack.push (holds_array_concat hf hv))
  · intro v l stack ts ih h hv
    obtain ⟨hstack, hf⟩ := h.tail.pop
    exact ih hstack (.array (holds_array_concat hf hv))
  · intro v m key stack key' ts ih h hv
    obtain ⟨hstack, hf⟩ := h.tail.tail.tail.pop
    exact ih (hstack.push (holds_object_insertKey hf hv))
  · intro v m key stack ts ih h hv
    obtain ⟨hstack, hf⟩ := h.tail.pop
    have hm : Holds (WellFormed (IsStrtod strtod)) (.object (insertKey key v m) key) := holds_object_insertKey hf hv
    exact ih hstack (.object hm.1 hm.2)
  · intro ts stack v _ _ _ _ _ _ _ j rest hj
    rw [afterValue] at hj
    · cases hj
    all_goals assumption

private theorem WellFormed.mono {float float' : Rat → Prop} {j : Json} (hfloat : ∀ q, float q → float' q)
    (h : j.WellFormed float) : j.WellFormed float' := by
  induction h with
  | null => exact .null
  | boolean b => exact .boolean b
  | number hlow hhigh => exact .number hlow hhigh
  | numberFloat h => exact .numberFloat (hfloat _ h)
  | string s => exact .string s
  | array _ ih => exact .array ih
  | object hkeys _ ih => exact .object hkeys ih

/-- What is accepted is well-formed, and its normal form, the text that `dump` makes of it, is accepted as the same
value, if floats are read back from what `dump_float` writes. -/
theorem wellFormed_of_parse {text : String} {j : Json} (h : parse strtod text = some j) :
    j.WellFormed (IsStrtod strtod) ∧
      ∀ dumpFloat, (∀ q, IsStrtod strtod q → Rereads strtod dumpFloat q) →
        parse strtod (.ofList (j.dump dumpFloat)) = some j := by
  have hvalue : ∃ rest, parseValue strtod [] (tokens (skipBom text.toList)) = some (j, rest) := by
    unfold parse at h
    split at h
    · rename_i j' hparse
      cases h
      exact ⟨[], hparse⟩
    · cases h
  obtain ⟨rest, hparse⟩ := hvalue
  have hsound : Sound strtod [] (tokens (skipBom text.toList)) := ⟨inRange_tokens, fun f hf => nomatch hf⟩
  have hwellFormed := wellFormed_of_parseValue [] _ hsound j rest hparse
  refine ⟨hwellFormed, ?_⟩
  intro dumpFloat hfloat
  exact parse_of_reads (reads_of_wellFormed (hwellFormed.mono hfloat))

/-- A text with a key that stands twice. -/
theorem wellFormed_of_parse_sample :
    ∃ j, parse (fun _ => none) " \x7b\"b\":1, \"a\":[-2,true], \"b\":\"x\\u0041\"\x7d" = some j ∧
      String.ofList (j.dump fun _ => []) = "\x7b\"a\":[-2,true],\"b\":\"xA\"\x7d" ∧
      j.WellFormed (IsStrtod fun _ => none) ∧
      ∀ dumpFloat, (∀ q, IsStrtod (fun _ => none) q → Rereads (fun _ => none) dumpFloat q) →
        parse (fun _ => none) (.ofList (j.dump dumpFloat)) = some j := by
  have hdump : (parse (fun _ => none) " \x7b\"b\":1, \"a\":[-2,true], \"b\":\"x\\u0041\"\x7d").map
      (fun j => String.ofList (j.dump fun _ => [])) = some "\x7b\"a\":[-2,true],\"b\":\"xA\"\x7d" := by decide +kernel
  obtain ⟨j, hparse, htext⟩ := Option.map_eq_some_iff.1 hdump
  exact ⟨j, hparse, htext, wellFormed_of_parse hparse⟩

end Accepted

end Json

end LeetBot
