import LeetBot.Nlohmann
import LeetBot.SortedMembers
import Mathlib.Data.String.Basic

/-!
# JSON texts as values

`nlohmann::json::parse`: the lexer, which turns a text into tokens, and the parser, which keeps a stack of the arrays
and objects it is in.  Where the library stores a reference to the container that is being filled, the stack holds the
container itself, which moves into the next one when it ends.

`strtod` is a parameter: the value of a number in decimal notation, or `none` if that value is not finite.
-/

namespace LeetBot

open SortedMembers

inductive Token where
  | beginArray
  | endArray
  | beginObject
  | endObject
  | nameSeparator
  | valueSeparator
  | literalTrue
  | literalFalse
  | literalNull
  | valueString (s : String)
  | valueUnsigned (n : Nat)
  | valueInteger (i : Int)
  | valueFloat (text : List Char)
  | parseError
  | endOfInput
deriving DecidableEq

namespace Lexer

/-! ### Texts -/

/-- A hexadecimal digit, as `get_codepoint` reads it. -/
def hexDigit (c : Char) : Option Nat :=
  if '0' ≤ c ∧ c ≤ '9' then some (c.toNat - 0x30)
  else if 'A' ≤ c ∧ c ≤ 'F' then some (c.toNat - 0x37)
  else if 'a' ≤ c ∧ c ≤ 'f' then some (c.toNat - 0x57)
  else none

/-- `get_codepoint`; `none` is its `-1`. -/
def getCodepoint : List Char → Option (Nat × List Char)
  | a :: b :: c :: d :: cs => do
      let a ← hexDigit a
      let b ← hexDigit b
      let c ← hexDigit c
      let d ← hexDigit d
      return (a * 2 ^ 12 + b * 2 ^ 8 + c * 2 ^ 4 + d, cs)
  | _ => none

/-- The escapes of one character. -/
def escapes : List (Char × Char) :=
  [('"', '"'), ('\\', '\\'), ('/', '/'), ('b', '\x08'), ('f', '\x0c'), ('n', '\n'), ('r', '\r'), ('t', '\t')]

def isHighSurrogate (codepoint : Nat) : Bool := 0xD800 ≤ codepoint && codepoint ≤ 0xDBFF

def isLowSurrogate (codepoint : Nat) : Bool := 0xDC00 ≤ codepoint && codepoint ≤ 0xDFFF

/-- The code point of two surrogates. -/
def ofSurrogates (codepoint1 codepoint2 : Nat) : Nat := codepoint1 * 2 ^ 10 + codepoint2 - 0x35FDC00

/-- The character for what follows `\u`: one code point, or two surrogates. -/
def scanUnicode (cs : List Char) : Option (Char × List Char) :=
  match getCodepoint cs with
  | none => none
  | some (codepoint1, cs) =>
      if isHighSurrogate codepoint1 then
        match cs with
        | '\\' :: 'u' :: cs =>
            match getCodepoint cs with
            | none => none
            | some (codepoint2, cs) =>
                if isLowSurrogate codepoint2 then some (Char.ofNat (ofSurrogates codepoint1 codepoint2), cs)
                else none
        | _ => none
      else if isLowSurrogate codepoint1 then none
      else some (Char.ofNat codepoint1, cs)

/-- The character for what follows a backslash. -/
def scanEscape : List Char → Option (Char × List Char)
  | [] => none
  | c :: cs => if c == 'u' then scanUnicode cs else (escapes.lookup c).map (·, cs)

private theorem length_getCodepoint {cs rest : List Char} {n : Nat} (h : getCodepoint cs = some (n, rest)) :
    rest.length < cs.length := by
  unfold getCodepoint at h
  split at h
  · simp only [Option.bind_eq_bind, Option.bind_eq_some_iff, Option.pure_def, Option.some.injEq, Prod.mk.injEq] at h
    obtain ⟨_, -, _, -, _, -, _, -, -, rfl⟩ := h
    simp only [List.length_cons]
    omega
  · cases h

private theorem length_scanUnicode {cs rest : List Char} {c : Char} (h : scanUnicode cs = some (c, rest)) :
    rest.length < cs.length := by
  unfold scanUnicode at h
  split at h
  · cases h
  rename_i codepoint1 cs₁ h₁
  have hlt₁ := length_getCodepoint h₁
  split at h
  · split at h
    · rename_i cs₂ _
      split at h
      · cases h
      rename_i codepoint2 cs₃ h₂
      have hlt₂ := length_getCodepoint h₂
      split at h
      · simp only [Option.some.injEq, Prod.mk.injEq] at h
        obtain ⟨-, rfl⟩ := h
        simp only [List.length_cons] at hlt₁
        omega
      · cases h
    · cases h
  split at h
  · cases h
  · simp only [Option.some.injEq, Prod.mk.injEq] at h
    obtain ⟨-, rfl⟩ := h
    exact hlt₁

private theorem length_scanEscape {cs rest : List Char} {c : Char} (h : scanEscape cs = some (c, rest)) :
    rest.length < cs.length := by
  cases cs with
  | nil => cases h
  | cons c' cs =>
    unfold scanEscape at h
    rw [List.length_cons]
    split at h
    · cases h
    · rename_i c'' cs' heq
      cases heq
      split at h
      · exact Nat.lt_succ_of_lt (length_scanUnicode h)
      · obtain ⟨x, -, hx⟩ := Option.map_eq_some_iff.1 h
        cases hx
        exact Nat.lt_succ_self _

/-- `scan_string`, behind the opening quotation mark. -/
def scanString (buffer : List Char) (cs : List Char) : Token × List Char :=
  match cs with
  | [] => (.parseError, [])
  | c :: cs =>
      if c == '"' then (.valueString (.ofList buffer), cs)
      else if c == '\\' then
        match _ : scanEscape cs with
        | none => (.parseError, [])
        | some (c, rest) => scanString (buffer ++ [c]) rest
      else if c.toNat ≤ 0x1F then (.parseError, [])
      else scanString (buffer ++ [c]) cs
termination_by cs.length
decreasing_by
  · have hlt := length_scanEscape ‹_›
    simp only [List.length_cons]
    omega
  · exact Nat.lt_succ_self _

theorem scanString_quote {buffer cs : List Char} :
    scanString buffer ('"' :: cs) = (.valueString (.ofList buffer), cs) := by
  rw [scanString]
  rfl

theorem scanString_backslash {buffer cs rest : List Char} {c : Char} (h : scanEscape cs = some (c, rest)) :
    scanString buffer ('\\' :: cs) = scanString (buffer ++ [c]) rest := by
  rw [scanString, if_neg (by decide), if_pos (beq_self_eq_true _)]
  split
  · rename_i hnone
    rw [h] at hnone
    cases hnone
  · rename_i c' rest' hsome
    rw [h] at hsome
    cases hsome
    rfl

theorem scanString_plain {buffer cs : List Char} {c : Char} (hquote : c ≠ '"') (hbackslash : c ≠ '\\')
    (hcontrol : 0x1F < c.toNat) : scanString buffer (c :: cs) = scanString (buffer ++ [c]) cs := by
  rw [scanString]
  simp only [beq_iff_eq, if_neg hquote, if_neg hbackslash, if_neg (Nat.not_le_of_lt hcontrol)]

private theorem length_scanString {buffer cs rest : List Char} {t : Token} (h : scanString buffer cs = (t, rest))
    (ht : t ≠ .parseError) : rest.length < cs.length := by
  fun_induction scanString buffer cs with
  | case1 buffer =>
    cases h
    exact absurd rfl ht
  | case2 buffer c cs hquote =>
    cases h
    exact Nat.lt_succ_self _
  | case3 buffer c cs hquote hbackslash hnone =>
    cases h
    exact absurd rfl ht
  | case4 buffer c cs hquote hbackslash c' rest' hsome ih =>
    have hlt := ih h
    have hlt' := length_scanEscape hsome
    rw [List.length_cons]
    omega
  | case5 buffer c cs hquote hbackslash hcontrol =>
    cases h
    exact absurd rfl ht
  | case6 buffer c cs hquote hbackslash hcontrol ih => exact Nat.lt_succ_of_lt (ih h)

/-! ### Numbers -/

/-- The labels of `scan_number`. -/
inductive NumberState where
  | minus
  | zero
  | any1
  | decimal1
  | decimal2
  | exponent
  | sign
  | any2
deriving DecidableEq

inductive NumberType where
  | unsigned
  | integer
  | float
deriving DecidableEq

namespace NumberState

/-- The label to which `scan_number` jumps with the next character, if that belongs to the number. -/
def next (s : NumberState) (c : Char) : Option NumberState :=
  match s with
  | minus => if c == '0' then some zero else if c.isDigit then some any1 else none
  | zero => if c == '.' then some decimal1 else if c == 'e' || c == 'E' then some exponent else none
  | any1 =>
      if c.isDigit then some any1
      else if c == '.' then some decimal1
      else if c == 'e' || c == 'E' then some exponent
      else none
  | decimal1 => if c.isDigit then some decimal2 else none
  | decimal2 => if c.isDigit then some decimal2 else if c == 'e' || c == 'E' then some exponent else none
  | exponent => if c == '+' || c == '-' then some sign else if c.isDigit then some any2 else none
  | sign => if c.isDigit then some any2 else none
  | any2 => if c.isDigit then some any2 else none

/-- Whether the number may end here. -/
def done : NumberState → Bool
  | zero | any1 | decimal2 | any2 => true
  | _ => false

/-- What the label sets `number_type` to. -/
def numberType (s : NumberState) (type : NumberType) : NumberType :=
  match s with
  | minus => .integer
  | decimal1 | exponent => .float
  | _ => type

end NumberState

/-- The conversion of a number: to an integer if it is one of 64 bits, and to a float otherwise. -/
def convert (type : NumberType) (buffer : List Char) : Token :=
  match type, buffer with
  | .unsigned, digits =>
      let x := Nat.ofDigitChars 10 digits 0
      if x < 2 ^ 64 then .valueUnsigned x else .valueFloat buffer
  | .integer, '-' :: digits =>
      let x := Nat.ofDigitChars 10 digits 0
      if x ≤ 2 ^ 63 then .valueInteger (-x) else .valueFloat buffer
  | _, _ => .valueFloat buffer

/-- `scan_number` from a label on. -/
def scanNumber (s : NumberState) (type : NumberType) (buffer : List Char) : List Char → Token × List Char
  | [] => if s.done then (convert type buffer, []) else (.parseError, [])
  | c :: cs =>
      match s.next c with
      | some s' => scanNumber s' (s'.numberType type) (buffer ++ [c]) cs
      | none => if s.done then (convert type buffer, c :: cs) else (.parseError, [])

private theorem length_scanNumber {s : NumberState} {type : NumberType} {buffer cs rest : List Char} {t : Token}
    (h : scanNumber s type buffer cs = (t, rest)) : rest.length ≤ cs.length := by
  induction cs generalizing s type buffer with
  | nil =>
    unfold scanNumber at h
    split at h
    all_goals
      cases h
      exact Nat.le_refl _
  | cons c cs ih =>
    unfold scanNumber at h
    split at h
    · exact Nat.le_succ_of_le (ih h)
    · split at h
      · cases h
        exact Nat.le_refl _
      · cases h
        exact Nat.zero_le _

/-! ### Tokens -/

def isWhitespace (c : Char) : Bool := c == ' ' || c == '\t' || c == '\n' || c == '\r'

/-- `scan_literal`, behind the first character. -/
def scanLiteral (literal : List Char) (t : Token) (cs : List Char) : Token × List Char :=
  if literal.isPrefixOf cs then (t, cs.drop literal.length) else (.parseError, [])

/-- The structural characters. -/
def structural : List (Char × Token) :=
  [('[', .beginArray), (']', .endArray), ('{', .beginObject), ('}', .endObject), (':', .nameSeparator),
    (',', .valueSeparator)]

/-- The literals, each by its first character. -/
def literals : List (Char × List Char × Token) :=
  [('t', ['r', 'u', 'e'], .literalTrue), ('f', ['a', 'l', 's', 'e'], .literalFalse),
    ('n', ['u', 'l', 'l'], .literalNull)]

/-- `scan` at a character that is not whitespace. -/
def scanAt (c : Char) (cs : List Char) : Token × List Char :=
  match structural.lookup c, literals.lookup c with
  | some t, _ => (t, cs)
  | none, some (literal, t) => scanLiteral literal t cs
  | none, none =>
      if c == '"' then scanString [] cs
      else if c == '-' then scanNumber .minus .integer [c] cs
      else if c == '0' then scanNumber .zero .unsigned [c] cs
      else if c.isDigit then scanNumber .any1 .unsigned [c] cs
      else if c == '\x00' then (.endOfInput, cs)
      else (.parseError, [])

/-- `scan` -/
def scan (cs : List Char) : Token × List Char :=
  match cs.dropWhile isWhitespace with
  | [] => (.endOfInput, [])
  | c :: cs => scanAt c cs

section Scan

variable {c : Char} {cs : List Char}

theorem scan_cons (h : isWhitespace c = false) : scan (c :: cs) = scanAt c cs := by
  unfold scan
  rw [List.dropWhile_cons_of_neg (by rw [h]; decide)]

theorem scan_structural {t : Token} (h : isWhitespace c = false) (ht : structural.lookup c = some t) :
    scan (c :: cs) = (t, cs) := by
  rw [scan_cons h, scanAt, ht]

theorem scan_literal {literal : List Char} {t : Token} (h : isWhitespace c = false)
    (hs : structural.lookup c = none) (ht : literals.lookup c = some (literal, t)) :
    scan (c :: (literal ++ cs)) = (t, cs) := by
  have hprefix : literal.isPrefixOf (literal ++ cs) = true := List.isPrefixOf_iff_prefix.2 (List.prefix_append _ _)
  rw [scan_cons h, scanAt, hs, ht]
  simp only [scanLiteral, hprefix, if_true, List.drop_left]

/-- A character that begins a text or a number. -/
theorem scan_other (h : isWhitespace c = false) (hs : structural.lookup c = none) (hl : literals.lookup c = none) :
    scan (c :: cs) =
      if c == '"' then scanString [] cs
      else if c == '-' then scanNumber .minus .integer [c] cs
      else if c == '0' then scanNumber .zero .unsigned [c] cs
      else if c.isDigit then scanNumber .any1 .unsigned [c] cs
      else if c == '\x00' then (.endOfInput, cs)
      else (.parseError, []) := by
  rw [scan_cons h, scanAt, hs, hl]

end Scan

private theorem length_scanLiteral {literal cs rest : List Char} {t t' : Token}
    (h : scanLiteral literal t' cs = (t, rest)) : rest.length ≤ cs.length := by
  unfold scanLiteral at h
  split at h
  · cases h
    rw [List.length_drop]
    omega
  · cases h
    exact Nat.zero_le _

private theorem length_scanAt {c : Char} {cs rest : List Char} {t : Token} (h : scanAt c cs = (t, rest))
    (ht : t ≠ .parseError) : rest.length ≤ cs.length := by
  unfold scanAt at h
  split at h
  · cases h
    exact Nat.le_refl _
  · exact length_scanLiteral h
  split at h
  · exact Nat.le_of_lt (length_scanString h ht)
  split at h
  · exact length_scanNumber h
  split at h
  · exact length_scanNumber h
  split at h
  · exact length_scanNumber h
  split at h
  · cases h
    exact Nat.le_refl _
  · cases h
    exact Nat.zero_le _

private theorem length_scan {cs rest : List Char} {t : Token} (h : scan cs = (t, rest)) (ht : t ≠ .endOfInput)
    (ht' : t ≠ .parseError) : rest.length < cs.length := by
  unfold scan at h
  have hle := (List.dropWhile_suffix isWhitespace (l := cs)).length_le
  split at h
  · cases h
    exact absurd rfl ht
  · rename_i c cs' hcs
    rw [hcs, List.length_cons] at hle
    have hrest := length_scanAt h ht'
    omega

/-- The tokens that `get_token` returns one after the other, up to the end or to an error. -/
def tokens (cs : List Char) : List Token :=
  match _ : scan cs with
  | (t, rest) =>
      if _ : t = .endOfInput then []
      else if _ : t = .parseError then [.parseError]
      else t :: tokens rest
termination_by cs.length
decreasing_by exact length_scan ‹_› ‹_› ‹_›

theorem tokens_nil : tokens [] = [] := by
  rw [tokens]
  rfl

theorem tokens_of_scan {cs rest : List Char} {t : Token} (h : scan cs = (t, rest)) (ht : t ≠ .endOfInput)
    (ht' : t ≠ .parseError) : tokens cs = t :: tokens rest := by
  rw [tokens]
  simp only [h, dif_neg ht, dif_neg ht']

theorem tokens_structural {c : Char} {cs : List Char} {t : Token} (h : isWhitespace c = false)
    (ht : structural.lookup c = some t) (hend : t ≠ .endOfInput) (herror : t ≠ .parseError) :
    tokens (c :: cs) = t :: tokens cs :=
  tokens_of_scan (scan_structural h ht) hend herror

/-- `skip_bom` -/
def skipBom : List Char → List Char
  | [] => []
  | c :: cs => if c == '\uFEFF' then cs else c :: cs

end Lexer

namespace Parser

/-- An array or an object that is being parsed, the latter with the key of the next value. -/
inductive Frame where
  | array (elements : List Json)
  | object (members : List (String × Json)) (key : String)

variable (strtod : List Char → Option Rat)

mutual

/-- `sax_parse_internal` at the first token of a value. -/
def parseValue (stack : List Frame) : List Token → Option (Json × List Token)
  | .beginObject :: .endObject :: ts => afterValue stack (.object []) ts
  | .beginObject :: .valueString key :: .nameSeparator :: ts => parseValue (.object [] key :: stack) ts
  | .beginArray :: .endArray :: ts => afterValue stack (.array []) ts
  | .beginArray :: ts => parseValue (.array [] :: stack) ts
  | .literalTrue :: ts => afterValue stack (.boolean true) ts
  | .literalFalse :: ts => afterValue stack (.boolean false) ts
  | .literalNull :: ts => afterValue stack .null ts
  | .valueString s :: ts => afterValue stack (.string s) ts
  | .valueUnsigned n :: ts => afterValue stack (.number n) ts
  | .valueInteger i :: ts => afterValue stack (.number i) ts
  | .valueFloat text :: ts =>
      match strtod text with
      | some q => afterValue stack (.numberFloat q) ts
      | none => none
  | _ => none

/-- `sax_parse_internal` behind a value. -/
def afterValue (stack : List Frame) (v : Json) (ts : List Token) : Option (Json × List Token) :=
  match stack, ts with
  | [], ts => some (v, ts)
  | .array l :: stack, .valueSeparator :: ts => parseValue (.array (l ++ [v]) :: stack) ts
  | .array l :: stack, .endArray :: ts => afterValue stack (.array (l ++ [v])) ts
  | .object m key :: stack, .valueSeparator :: .valueString key' :: .nameSeparator :: ts =>
      parseValue (.object (insertKey key v m) key' :: stack) ts
  | .object m key :: stack, .endObject :: ts => afterValue stack (.object (insertKey key v m)) ts
  | _, _ => none

end

variable {strtod} {stack : List Frame} {ts : List Token}

theorem parseValue_endArray : parseValue strtod stack (.endArray :: ts) = none := rfl

/-- What can be parsed as it is does not begin with a byte order mark. -/
theorem skipBom_of_parseValue {cs : List Char} {result : Json × List Token}
    (h : parseValue strtod [] (Lexer.tokens cs) = some result) : Lexer.skipBom cs = cs := by
  cases cs with
  | nil => rfl
  | cons c cs =>
    show (if c == '\uFEFF' then cs else c :: cs) = c :: cs
    split
    · rename_i hbom
      have hscan : Lexer.scan ('\uFEFF' :: cs) = (.parseError, []) := Lexer.scan_other rfl rfl rfl
      rw [eq_of_beq hbom, Lexer.tokens, hscan] at h
      cases h
    · rfl

/-- An array that has elements. -/
theorem parseValue_beginArray (h : ∀ ts', ts ≠ .endArray :: ts') :
    parseValue strtod stack (.beginArray :: ts) = parseValue strtod (.array [] :: stack) ts := by
  rw [parseValue]
  exact h

end Parser

/-- `nlohmann::json::parse`; `none` when it throws. -/
def Json.parse (strtod : List Char → Option Rat) (text : String) : Option Json :=
  match Parser.parseValue strtod [] (Lexer.tokens (Lexer.skipBom text.toList)) with
  | some (j, []) => some j
  | _ => none

end LeetBot
