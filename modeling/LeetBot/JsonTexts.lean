import LeetBot.JsonGrammar
import LeetBot.JsonNumbers
import Mathlib.Data.List.Chain

/-!
# The texts of JSON

How a token is written, and how a text that consists of tokens.  The lexer, which takes the longest number that it can
get, finds the tokens of a text whenever no two numbers follow each other, and in a value they never do.
-/

namespace LeetBot

open LeetBot.Lexer LeetBot.Parser

namespace Grammar

/-! ### Strings -/

/-- The hexadecimal digits, with their values. -/
def hexDigits : List (Char × Nat) :=
  [('0', 0), ('1', 1), ('2', 2), ('3', 3), ('4', 4), ('5', 5), ('6', 6), ('7', 7), ('8', 8), ('9', 9),
    ('a', 10), ('b', 11), ('c', 12), ('d', 13), ('e', 14), ('f', 15),
    ('A', 10), ('B', 11), ('C', 12), ('D', 13), ('E', 14), ('F', 15)]

/-- Four hexadecimal digits. -/
def IsHex (w : List Char) (n : Nat) : Prop :=
  ∃ a b c d a' b' c' d', w = [a, b, c, d] ∧ (a, a') ∈ hexDigits ∧ (b, b') ∈ hexDigits ∧ (c, c') ∈ hexDigits ∧
    (d, d') ∈ hexDigits ∧ n = ((a' * 16 + b') * 16 + c') * 16 + d'

/-- What may stand behind a backslash, and the character that it means. -/
def escaped : List (Char × Char) :=
  [('"', '"'), ('\\', '\\'), ('/', '/'), ('b', '\x08'), ('f', '\x0c'), ('n', '\n'), ('r', '\r'), ('t', '\t')]

/-- A character of a string, as it may be written; one above the sixteen bits is written as two surrogates. -/
inductive IsCharacter : List Char → Char → Prop where
  | plain {c : Char} (hquote : c ≠ '"') (hbackslash : c ≠ '\\') (hcontrol : 0x1F < c.toNat) : IsCharacter [c] c
  | escape {e c : Char} (h : (e, c) ∈ escaped) : IsCharacter ['\\', e] c
  | unicode {w : List Char} {n : Nat} (h : IsHex w n) (hno : n < 0xD800 ∨ 0xDFFF < n) :
      IsCharacter ('\\' :: 'u' :: w) (Char.ofNat n)
  | surrogates {w₁ w₂ : List Char} {n₁ n₂ : Nat} (h₁ : IsHex w₁ n₁) (h₂ : IsHex w₂ n₂)
      (hhigh : 0xD800 ≤ n₁ ∧ n₁ ≤ 0xDBFF) (hlow : 0xDC00 ≤ n₂ ∧ n₂ ≤ 0xDFFF) :
      IsCharacter ('\\' :: 'u' :: (w₁ ++ '\\' :: 'u' :: w₂))
        (Char.ofNat (0x10000 + (n₁ - 0xD800) * 0x400 + (n₂ - 0xDC00)))

section Strings

variable {cs rest w : List Char} {c : Char} {n : Nat}

private theorem forall_of_lookup {α : Type} {P : Char × α → Prop} {l : List (Char × α)} {a : α} (hl : ∀ x ∈ l, P x)
    (h : l.lookup c = some a) : P (c, a) := by
  obtain ⟨l₁, l₂, rfl, -⟩ := List.lookup_eq_some_iff.1 h
  exact hl _ (List.mem_append_right _ List.mem_cons_self)

private theorem hexDigit_iff : hexDigit c = some n ↔ (c, n) ∈ hexDigits := by
  constructor
  · intro h
    have hlt : c.toNat < 128 := by
      unfold hexDigit at h
      have hle : c ≤ 'f' := by
        split at h
        · exact Char.le_trans (And.right ‹_›) (by decide)
        split at h
        · exact Char.le_trans (And.right ‹_›) (by decide)
        split at h
        · exact And.right ‹_›
        · cases h
      exact Nat.lt_of_le_of_lt hle (by decide)
    have hall : ∀ k < 128, ∀ m ∈ hexDigit (Char.ofNat k), (Char.ofNat k, m) ∈ hexDigits := by decide +kernel
    have hmem := hall c.toNat hlt n
    rw [Char.ofNat_toNat] at hmem
    exact hmem h
  · intro h
    have hall : ∀ x ∈ hexDigits, hexDigit x.1 = some x.2 := by decide
    exact hall (c, n) h

private theorem lookup_escapes {e : Char} : escapes.lookup e = some c ↔ (e, c) ∈ escaped := by
  constructor
  · intro h
    have hall : ∀ x ∈ escapes, x ∈ escaped := by decide
    exact forall_of_lookup hall h
  · intro h
    have hall : ∀ x ∈ escaped, escapes.lookup x.1 = some x.2 := by decide
    exact hall (e, c) h

private theorem getCodepoint_iff : getCodepoint cs = some (n, rest) ↔ ∃ w, IsHex w n ∧ cs = w ++ rest := by
  constructor
  · intro h
    unfold getCodepoint at h
    split at h
    · rename_i a b c d cs
      simp only [Option.bind_eq_bind, Option.bind_eq_some_iff, Option.pure_def, Option.some.injEq,
        Prod.mk.injEq] at h
      obtain ⟨a', ha, b', hb, c', hc, d', hd, rfl, rfl⟩ := h
      exact ⟨[a, b, c, d], ⟨a, b, c, d, a', b', c', d', rfl, hexDigit_iff.1 ha, hexDigit_iff.1 hb, hexDigit_iff.1 hc,
        hexDigit_iff.1 hd, by omega⟩, rfl⟩
    · cases h
  · rintro ⟨_, ⟨a, b, c, d, a', b', c', d', rfl, ha, hb, hc, hd, rfl⟩, rfl⟩
    have hsum : a' * 2 ^ 12 + b' * 2 ^ 8 + c' * 2 ^ 4 + d' = ((a' * 16 + b') * 16 + c') * 16 + d' := by omega
    simp only [List.cons_append, List.nil_append, getCodepoint, hexDigit_iff.2 ha, hexDigit_iff.2 hb,
      hexDigit_iff.2 hc, hexDigit_iff.2 hd, Option.bind_eq_bind, Option.bind_some, Option.pure_def, hsum]

private theorem isHighSurrogate_iff : isHighSurrogate n = true ↔ 0xD800 ≤ n ∧ n ≤ 0xDBFF := by
  simp only [isHighSurrogate, Bool.and_eq_true, decide_eq_true_eq]

private theorem isLowSurrogate_iff : isLowSurrogate n = true ↔ 0xDC00 ≤ n ∧ n ≤ 0xDFFF := by
  simp only [isLowSurrogate, Bool.and_eq_true, decide_eq_true_eq]

private theorem noSurrogate_iff :
    ¬ isHighSurrogate n = true ∧ ¬ isLowSurrogate n = true ↔ n < 0xD800 ∨ 0xDFFF < n := by
  rw [isHighSurrogate_iff, isLowSurrogate_iff]
  omega

private theorem ofSurrogates_eq {n₁ n₂ : Nat} (hhigh : 0xD800 ≤ n₁ ∧ n₁ ≤ 0xDBFF) (hlow : 0xDC00 ≤ n₂ ∧ n₂ ≤ 0xDFFF) :
    ofSurrogates n₁ n₂ = 0x10000 + (n₁ - 0xD800) * 0x400 + (n₂ - 0xDC00) := by
  unfold ofSurrogates
  omega

private theorem scanUnicode_iff : scanUnicode cs = some (c, rest) ↔
    ∃ w, IsCharacter ('\\' :: 'u' :: w) c ∧ cs = w ++ rest := by
  constructor
  · intro h
    unfold scanUnicode at h
    split at h
    · cases h
    rename_i n₁ cs₁ h₁
    obtain ⟨w₁, hw₁, rfl⟩ := getCodepoint_iff.1 h₁
    split at h
    · rename_i hhigh
      split at h
      · rename_i cs₂
        split at h
        · cases h
        rename_i n₂ cs₃ h₂
        obtain ⟨w₂, hw₂, rfl⟩ := getCodepoint_iff.1 h₂
        split at h
        · rename_i hlow
          obtain ⟨rfl, rfl⟩ := Prod.mk.inj (Option.some.inj h)
          refine ⟨w₁ ++ '\\' :: 'u' :: w₂, ?_, by simp⟩
          rw [isHighSurrogate_iff] at hhigh
          rw [isLowSurrogate_iff] at hlow
          rw [ofSurrogates_eq hhigh hlow]
          exact .surrogates hw₁ hw₂ hhigh hlow
        · cases h
      · cases h
    rename_i hhigh
    split at h
    · cases h
    · rename_i hlow
      cases h
      exact ⟨w₁, .unicode hw₁ (noSurrogate_iff.1 ⟨hhigh, hlow⟩), rfl⟩
  · rintro ⟨w, h, rfl⟩
    cases h with
    | escape he => cases lookup_escapes.2 he
    | unicode hw hno =>
      obtain ⟨hhigh, hlow⟩ := noSurrogate_iff.2 hno
      unfold scanUnicode
      rw [getCodepoint_iff.2 ⟨w, hw, rfl⟩]
      simp only [hhigh, hlow, Bool.false_eq_true, if_false]
    | @surrogates w₁ w₂ n₁ n₂ hw₁ hw₂ hhigh hlow =>
      unfold scanUnicode
      rw [List.append_assoc, getCodepoint_iff.2 ⟨w₁, hw₁, rfl⟩]
      simp only [isHighSurrogate_iff.2 hhigh, if_true, List.cons_append, getCodepoint_iff.2 ⟨w₂, hw₂, rfl⟩,
        isLowSurrogate_iff.2 hlow, ofSurrogates_eq hhigh hlow]

private theorem scanEscape_iff :
    scanEscape cs = some (c, rest) ↔ ∃ w, IsCharacter ('\\' :: w) c ∧ cs = w ++ rest := by
  constructor
  · intro h
    unfold scanEscape at h
    split at h
    · cases h
    rename_i e cs
    split at h
    · rename_i hu
      obtain rfl := eq_of_beq hu
      obtain ⟨w, hw, rfl⟩ := scanUnicode_iff.1 h
      exact ⟨'u' :: w, hw, rfl⟩
    · obtain ⟨d, hd, hpair⟩ := Option.map_eq_some_iff.1 h
      cases hpair
      exact ⟨[e], .escape (lookup_escapes.1 hd), rfl⟩
  · rintro ⟨w, h, rfl⟩
    cases h with
    | plain _ hbackslash => exact absurd rfl hbackslash
    | @escape e _ he =>
      have hu : e ≠ 'u' := by
        rintro rfl
        cases lookup_escapes.2 he
      simp only [List.singleton_append, scanEscape, beq_iff_eq, if_neg hu, lookup_escapes.2 he, Option.map_some]
    | unicode hw hno =>
      exact scanUnicode_iff.2 ⟨_, .unicode hw hno, rfl⟩
    | surrogates hw₁ hw₂ hhigh hlow =>
      exact scanUnicode_iff.2 ⟨_, .surrogates hw₁ hw₂ hhigh hlow, rfl⟩

private theorem scanString_character {buffer : List Char} (h : IsCharacter w c) :
    scanString buffer (w ++ cs) = scanString (buffer ++ [c]) cs := by
  cases h with
  | plain hquote hbackslash hcontrol => exact scanString_plain hquote hbackslash hcontrol
  | escape he => exact scanString_backslash (scanEscape_iff.2 ⟨_, .escape he, rfl⟩)
  | unicode hw hno => exact scanString_backslash (scanEscape_iff.2 ⟨_, .unicode hw hno, rfl⟩)
  | surrogates hw₁ hw₂ hhigh hlow =>
    exact scanString_backslash (scanEscape_iff.2 ⟨_, .surrogates hw₁ hw₂ hhigh hlow, rfl⟩)

private theorem scanString_characters {xs : List (List Char × Char)} (h : ∀ x ∈ xs, IsCharacter x.1 x.2)
    (buffer : List Char) :
    scanString buffer (xs.flatMap Prod.fst ++ '"' :: rest) =
      (.valueString (.ofList (buffer ++ xs.map Prod.snd)), rest) := by
  induction xs generalizing buffer with
  | nil =>
    rw [List.map_nil, List.append_nil]
    exact scanString_quote
  | cons x xs ih =>
    have hxs : ∀ y ∈ xs, IsCharacter y.1 y.2 := fun y hy => h y (List.mem_cons_of_mem _ hy)
    rw [List.flatMap_cons, List.append_assoc, scanString_character (h x List.mem_cons_self), ih hxs,
      List.append_assoc]
    rfl

/-- What the lexer takes as a string. -/
private theorem characters_of_scanString {buffer : List Char} {t : Token} (h : scanString buffer cs = (t, rest))
    (ht : t ≠ .parseError) :
    ∃ xs : List (List Char × Char), (∀ x ∈ xs, IsCharacter x.1 x.2) ∧ cs = xs.flatMap Prod.fst ++ '"' :: rest ∧
      t = .valueString (.ofList (buffer ++ xs.map Prod.snd)) := by
  fun_induction scanString buffer cs with
  | case1 buffer =>
    cases h
    exact absurd rfl ht
  | case2 buffer c cs hquote =>
    cases h
    rw [eq_of_beq hquote]
    exact ⟨[], List.forall_mem_nil _, rfl, by rw [List.map_nil, List.append_nil]⟩
  | case3 buffer c cs hquote hbackslash hnone =>
    cases h
    exact absurd rfl ht
  | case4 buffer c cs hquote hbackslash c' rest' hsome ih =>
    obtain ⟨w, hw, rfl⟩ := scanEscape_iff.1 hsome
    obtain ⟨xs, hxs, rfl, rfl⟩ := ih h
    rw [eq_of_beq hbackslash]
    refine ⟨('\\' :: w, c') :: xs, List.forall_mem_cons.2 ⟨hw, hxs⟩, ?_, ?_⟩
    · rw [List.flatMap_cons, List.append_assoc]
      rfl
    · rw [List.append_assoc]
      rfl
  | case5 buffer c cs hquote hbackslash hcontrol =>
    cases h
    exact absurd rfl ht
  | case6 buffer c cs hquote hbackslash hcontrol ih =>
    obtain ⟨xs, hxs, rfl, rfl⟩ := ih h
    have hc : IsCharacter [c] c := .plain (by simpa using hquote) (by simpa using hbackslash) (by omega)
    refine ⟨([c], c) :: xs, List.forall_mem_cons.2 ⟨hc, hxs⟩, rfl, ?_⟩
    rw [List.append_assoc]
    rfl

end Strings

/-! ### Tokens -/

/-- The tokens that are written in one way only. -/
def fixedTokens : List (List Char × Token) :=
  [(['['], .beginArray), ([']'], .endArray), (['{'], .beginObject), (['}'], .endObject), ([':'], .nameSeparator),
    ([','], .valueSeparator), (['t', 'r', 'u', 'e'], .literalTrue), (['f', 'a', 'l', 's', 'e'], .literalFalse),
    (['n', 'u', 'l', 'l'], .literalNull)]

/-- A token, as it may be written. -/
inductive IsToken : List Char → Token → Prop where
  | fixed {w : List Char} {t : Token} (h : (w, t) ∈ fixedTokens) : IsToken w t
  | string {xs : List (List Char × Char)} (h : ∀ x ∈ xs, IsCharacter x.1 x.2) :
      IsToken ('"' :: (xs.flatMap Prod.fst ++ ['"'])) (.valueString (.ofList (xs.map Prod.snd)))
  | number {w : List Char} (h : IsNumber w) : IsToken w (numberToken w)

/-- Blanks, tabulators and line ends. -/
def IsSpace (w : List Char) : Prop := ∀ c ∈ w, c ∈ [' ', '\t', '\n', '\r']

/-- A text consists of these tokens, with whitespace before, between and behind them.  What follows a null character
is not read. -/
inductive Spells : List Char → List Token → Prop where
  | stop {space rest : List Char} (hspace : IsSpace space)
      (hrest : rest = [] ∨ ∃ cs, rest = '\x00' :: cs) : Spells (space ++ rest) []
  | token {space w rest : List Char} {t : Token} {ts : List Token} (hspace : IsSpace space)
      (ht : IsToken w t) (hts : Spells rest ts) : Spells (space ++ (w ++ rest)) (t :: ts)

def isNumber : Token → Bool
  | .valueUnsigned _ | .valueInteger _ | .valueFloat _ => true
  | _ => false

/-- No two numbers follow each other. -/
abbrev Separate (ts : List Token) : Prop := ts.IsChain fun t t' => isNumber t = false ∨ isNumber t' = false

section Tokens

variable {cs rest w space : List Char} {c : Char} {t : Token} {ts : List Token}

private theorem isNumber_numberToken : isNumber (numberToken w) = true := by
  rw [numberToken_eq]
  unfold convert
  split
  · dsimp only
    split <;> rfl
  · dsimp only
    split <;> rfl
  · rfl

private theorem fixedTokens_cases (h : (w, t) ∈ fixedTokens) : (∃ c, w = [c] ∧ structural.lookup c = some t) ∨
    ∃ c w', w = c :: w' ∧ literals.lookup c = some (w', t) := by
  simp only [fixedTokens, List.mem_cons, List.not_mem_nil, Prod.mk.injEq, or_false] at h
  rcases h with ⟨rfl, rfl⟩ | ⟨rfl, rfl⟩ | ⟨rfl, rfl⟩ | ⟨rfl, rfl⟩ | ⟨rfl, rfl⟩ | ⟨rfl, rfl⟩ | h
  iterate 6 exact .inl ⟨_, rfl, rfl⟩
  right
  rcases h with ⟨rfl, rfl⟩ | ⟨rfl, rfl⟩ | ⟨rfl, rfl⟩ <;> exact ⟨_, _, rfl, rfl⟩

private theorem mem_fixedTokens_of_structural (h : structural.lookup c = some t) : ([c], t) ∈ fixedTokens := by
  have hall : ∀ x ∈ structural, ([x.1], x.2) ∈ fixedTokens := by decide
  exact forall_of_lookup (P := fun x => ([x.1], x.2) ∈ fixedTokens) hall h

private theorem mem_fixedTokens_of_literals (h : literals.lookup c = some (w, t)) : (c :: w, t) ∈ fixedTokens := by
  have hall : ∀ x ∈ literals, (x.1 :: x.2.1, x.2.2) ∈ fixedTokens := by decide
  exact forall_of_lookup (P := fun x => (x.1 :: x.2.1, x.2.2) ∈ fixedTokens) hall h

private theorem isWhitespace_iff : isWhitespace c = true ↔ c ∈ [' ', '\t', '\n', '\r'] := by
  simp [isWhitespace, or_assoc]

private theorem IsToken.endsNumber (h : IsToken w t) (ht : isNumber t = false) : EndsNumber (w ++ rest) := by
  intro c hc
  cases h with
  | fixed h =>
    rcases fixedTokens_cases h with ⟨c', rfl, hs⟩ | ⟨c', w', rfl, hl⟩
    · cases hc
      have hall : ∀ x ∈ structural, BreaksNumber x.1 := by decide
      exact forall_of_lookup (P := fun x => BreaksNumber x.1) hall hs
    · cases hc
      have hall : ∀ x ∈ literals, BreaksNumber x.1 := by decide
      exact forall_of_lookup (P := fun x => BreaksNumber x.1) hall hl
  | string h =>
    cases hc
    decide
  | number h =>
    rw [isNumber_numberToken] at ht
    cases ht

private theorem endsNumber_space {c : Char} (hc : c ∈ [' ', '\t', '\n', '\r']) : EndsNumber (c :: rest) := by
  intro c' hc'
  cases hc'
  simp only [List.mem_cons, List.not_mem_nil, or_false] at hc
  rcases hc with rfl | rfl | rfl | rfl <;> decide

private theorem Spells.endsNumber (h : Spells rest ts) (hts : ∀ t ∈ ts.head?, isNumber t = false) :
    EndsNumber rest := by
  cases h with
  | @stop space rest hspace hrest =>
    cases space with
    | nil =>
      rcases hrest with rfl | ⟨cs, rfl⟩
      · exact fun c hc => nomatch hc
      · intro c hc
        cases hc
        decide
    | cons c space => exact endsNumber_space (hspace c List.mem_cons_self)
  | @token space w rest t ts hspace ht _ =>
    cases space with
    | nil => exact ht.endsNumber (hts t rfl)
    | cons c space => exact endsNumber_space (hspace c List.mem_cons_self)

/-! ### The lexer -/

private theorem scan_space (hspace : IsSpace space) : scan (space ++ cs) = scan cs := by
  unfold scan
  rw [List.dropWhile_append_of_pos fun c hc => isWhitespace_iff.2 (hspace c hc)]

private theorem not_isWhitespace_of_lookup {α : Type} {l : List (Char × α)} {a : α}
    (hl : ∀ x ∈ l, isWhitespace x.1 = false) (h : l.lookup c = some a) : isWhitespace c = false :=
  forall_of_lookup (P := fun x => isWhitespace x.1 = false) hl h

private theorem scan_token (h : IsToken w t) (hrest : isNumber t = true → EndsNumber rest) :
    scan (w ++ rest) = (t, rest) := by
  cases h with
  | fixed h =>
    rcases fixedTokens_cases h with ⟨c, rfl, hs⟩ | ⟨c, w, rfl, hl⟩
    · exact scan_structural (not_isWhitespace_of_lookup (by decide) hs) hs
    · have hs : structural.lookup c = none := by
        have hall : ∀ x ∈ literals, structural.lookup x.1 = none := by decide
        exact forall_of_lookup (P := fun x => structural.lookup x.1 = none) hall hl
      exact scan_literal (not_isWhitespace_of_lookup (by decide) hl) hs hl
  | @string xs h =>
    rw [List.cons_append, List.append_assoc, scan_other (by decide) (by decide) (by decide),
      if_pos (beq_self_eq_true _)]
    exact scanString_characters h []
  | number h => exact scan_number h (hrest isNumber_numberToken)

private theorem IsToken.ne (h : IsToken w t) : t ≠ .endOfInput ∧ t ≠ .parseError := by
  cases h with
  | fixed h =>
    have hall : ∀ x ∈ fixedTokens, x.2 ≠ .endOfInput ∧ x.2 ≠ .parseError := by decide
    exact hall _ h
  | string h => exact ⟨fun h => (nomatch h), fun h => nomatch h⟩
  | number h =>
    have hne : ∀ t, isNumber t = false → numberToken w ≠ t := by
      rintro t ht rfl
      rw [isNumber_numberToken] at ht
      cases ht
    exact ⟨hne _ rfl, hne _ rfl⟩

private theorem tokens_of_spells (h : Spells cs ts) (hts : Separate ts) : tokens cs = ts := by
  induction h with
  | @stop space rest hspace hrest =>
    have hscan : (scan (space ++ rest)).1 = .endOfInput := by
      rw [scan_space hspace]
      rcases hrest with rfl | ⟨cs, rfl⟩ <;> rfl
    rw [tokens]
    simp only [hscan, dif_pos]
  | @token space w rest t ts hspace ht hrest ih =>
    have hends : isNumber t = true → EndsNumber rest := by
      intro hnumber
      apply hrest.endsNumber
      intro t' ht'
      refine ((List.isChain_cons.1 hts).1 t' ht').resolve_left ?_
      rw [hnumber]
      exact Bool.noConfusion
    have hscan : scan (space ++ (w ++ rest)) = (t, rest) := by rw [scan_space hspace, scan_token ht hends]
    rw [tokens_of_scan hscan ht.ne.1 ht.ne.2, ih (List.isChain_cons.1 hts).2]

/-- What the lexer takes at a character that is not whitespace. -/
private theorem isToken_of_scan (hc : isWhitespace c = false) (h : scan (c :: cs) = (t, rest))
    (ht : t ≠ .parseError) :
    (c = '\x00' ∧ t = .endOfInput) ∨ ∃ w, c :: cs = w ++ rest ∧ IsToken w t := by
  cases hs : structural.lookup c with
  | some t' =>
    rw [scan_structural hc hs] at h
    cases h
    exact .inr ⟨[c], rfl, .fixed (mem_fixedTokens_of_structural hs)⟩
  | none =>
    cases hl : literals.lookup c with
    | some x =>
      obtain ⟨w, t'⟩ := x
      rw [scan_cons hc, scanAt, hs, hl] at h
      simp only [scanLiteral] at h
      split at h
      · rename_i hprefix
        cases h
        obtain ⟨cs', rfl⟩ := List.isPrefixOf_iff_prefix.1 hprefix
        exact .inr ⟨c :: w, by rw [List.drop_left, List.cons_append], .fixed (mem_fixedTokens_of_literals hl)⟩
      · cases h
        exact absurd rfl ht
    | none =>
      have hscan := h
      rw [scan_other hc hs hl] at h
      split at h
      · rename_i hquote
        obtain ⟨xs, hxs, rfl, rfl⟩ := characters_of_scanString h ht
        refine .inr ⟨_, ?_, .string hxs⟩
        rw [eq_of_beq hquote, List.cons_append, List.append_assoc]
        rfl
      split at h
      · rename_i hminus
        rw [eq_of_beq hminus] at hscan ⊢
        obtain ⟨w, hw, hnumber, rfl⟩ := isNumber_of_scan_minus hscan ht
        exact .inr ⟨w, hw, .number hnumber⟩
      by_cases hdigit : c.isDigit = true
      · obtain ⟨w, hw, hnumber, rfl⟩ := isNumber_of_scan_digit hdigit hscan ht
        exact .inr ⟨w, hw, .number hnumber⟩
      · have h0 : c ≠ '0' := by
          rintro rfl
          exact hdigit rfl
        rw [if_neg (by simpa using h0), if_neg hdigit] at h
        split at h
        · rename_i hnull
          cases h
          exact .inl ⟨eq_of_beq hnull, rfl⟩
        · cases h
          exact absurd rfl ht

/-- What the lexer takes. -/
private theorem spells_of_scan (h : scan cs = (t, rest)) (ht : t ≠ .parseError) :
    (t = .endOfInput → Spells cs []) ∧ (t ≠ .endOfInput → ∀ ts, Spells rest ts → Spells cs (t :: ts)) := by
  have hspace : IsSpace (cs.takeWhile isWhitespace) := fun c hc =>
    isWhitespace_iff.1 (List.all_eq_true.1 List.all_takeWhile c hc)
  have hcs : cs.takeWhile isWhitespace ++ cs.dropWhile isWhitespace = cs := List.takeWhile_append_dropWhile
  rw [← hcs, scan_space hspace] at h
  cases hdrop : cs.dropWhile isWhitespace with
  | nil =>
    rw [hdrop] at h hcs
    cases h
    rw [← hcs]
    exact ⟨fun _ => .stop hspace (.inl rfl), fun hend => absurd rfl hend⟩
  | cons c cs' =>
    rw [hdrop] at h hcs
    have hc : isWhitespace c = false := by
      have hhead := List.head?_dropWhile_not isWhitespace cs
      rw [hdrop] at hhead
      simpa using hhead
    rw [← hcs]
    rcases isToken_of_scan hc h ht with ⟨rfl, rfl⟩ | ⟨w, hw, htoken⟩
    · exact ⟨fun _ => .stop hspace (.inr ⟨cs', rfl⟩), fun hend => absurd rfl hend⟩
    · rw [hw]
      exact ⟨fun hend => absurd hend htoken.ne.1, fun _ ts hts => .token hspace htoken hts⟩

private theorem spells_of_tokens (h : .parseError ∉ tokens cs) : Spells cs (tokens cs) := by
  fun_induction tokens cs with
  | case1 cs rest hscan => exact (spells_of_scan hscan Token.noConfusion).1 rfl
  | case2 => exact absurd (List.mem_singleton_self _) h
  | case3 cs t rest hscan hend herror ih =>
    exact (spells_of_scan hscan herror).2 hend _ (ih fun hmem => h (List.mem_cons_of_mem _ hmem))

/-! ### Values -/

/-- No number follows another one, and nothing is an error. -/
structure Clean (ts : List Token) : Prop where
  separate : Separate ts
  noError : .parseError ∉ ts

/-- A token that may stand anywhere. -/
def Neutral (t : Token) : Prop := isNumber t = false ∧ t ≠ .parseError

private theorem clean_singleton (h : t ≠ .parseError) : Clean [t] :=
  ⟨.singleton t, fun hmem => h (List.mem_singleton.1 hmem).symm⟩

private theorem Clean.cons (h : Clean ts) (ht : Neutral t) : Clean (t :: ts) := by
  refine ⟨List.isChain_cons.2 ⟨fun _ _ => .inl ht.1, h.separate⟩, ?_⟩
  intro hmem
  rcases List.mem_cons.1 hmem with heq | hmem
  · exact ht.2 heq.symm
  · exact h.noError hmem

private theorem Clean.append {us : List Token} (hus : Clean us) (hts : Clean ts) (ht : Neutral t) :
    Clean (us ++ t :: ts) := by
  have hcons : Clean (t :: ts) := hts.cons ht
  constructor
  · apply hus.separate.append hcons.separate
    intro t₁ _ t₂ ht₂
    cases ht₂
    exact .inr ht.1
  · intro hmem
    rcases List.mem_append.1 hmem with hmem | hmem
    · exact hus.noError hmem
    · exact hcons.noError hmem

private theorem clean_tail {us : List Token} {uss : List (List Token)} {last : Token} (hlast : Neutral last)
    (hus : Clean us) (huss : ∀ us ∈ uss, Clean us) : Clean (us ++ (tail uss ++ [last])) := by
  have hcomma : Neutral .valueSeparator := ⟨rfl, Token.noConfusion⟩
  induction uss generalizing us with
  | nil => exact hus.append ⟨.nil, List.not_mem_nil⟩ hlast
  | cons us' uss ih =>
    rw [tail_cons, List.cons_append, List.append_assoc]
    exact hus.append (ih (huss us' List.mem_cons_self) fun us hus => huss us (List.mem_cons_of_mem _ hus)) hcomma

private theorem clean_container {uss : List (List Token)} {first last : Token} (hfirst : Neutral first)
    (hlast : Neutral last) (huss : ∀ us ∈ uss, Clean us) : Clean (first :: separated uss ++ [last]) := by
  cases uss with
  | nil => exact (clean_singleton hlast.2).cons hfirst
  | cons us uss =>
    rw [separated, List.cons_append, List.append_assoc]
    have hrest : ∀ us ∈ uss, Clean us := fun us hus => huss us (List.mem_cons_of_mem _ hus)
    exact (clean_tail hlast (huss us List.mem_cons_self) hrest).cons hfirst

private theorem Denotes.clean {strtod : List Char → Option Rat} {j : Json} (h : Denotes strtod ts j) : Clean ts := by
  induction h with
  | @array xs _ ih =>
    apply clean_container ⟨rfl, Token.noConfusion⟩ ⟨rfl, Token.noConfusion⟩
    intro us hus
    obtain ⟨x, hx, rfl⟩ := List.mem_map.1 hus
    exact ih x hx
  | @object xs _ ih =>
    apply clean_container ⟨rfl, Token.noConfusion⟩ ⟨rfl, Token.noConfusion⟩
    intro us hus
    obtain ⟨x, hx, rfl⟩ := List.mem_map.1 hus
    exact ((ih x hx).cons ⟨rfl, Token.noConfusion⟩).cons ⟨rfl, Token.noConfusion⟩
  | _ => exact clean_singleton Token.noConfusion

end Tokens

end Grammar

namespace Json

open Grammar

/-- `parse` accepts a text, with or without a byte order mark, if and only if it is written in the grammar of JSON, up
to its end or to a null character, and it returns the value that the text denotes. -/
theorem parse_iff_grammar (strtod : List Char → Option Rat) (text : String) (j : Json) :
    parse strtod text = some j ↔ ∃ ts, Spells (skipBom text.toList) ts ∧ Denotes strtod ts j := by
  have hparse : parse strtod text = some j ↔
      parseValue strtod [] (tokens (skipBom text.toList)) = some (j, []) := by
    unfold parse
    split
    · rename_i j' h
      rw [h]
      simp
    · rename_i h
      constructor
      · intro hnone
        cases hnone
      · intro hsome
        exact absurd hsome (h j)
  rw [hparse, parseValue_iff_denotes]
  constructor
  · intro h
    exact ⟨_, spells_of_tokens h.clean.noError, h⟩
  · rintro ⟨ts, hspells, h⟩
    rwa [tokens_of_spells hspells h.clean.separate]

end Json

end LeetBot
