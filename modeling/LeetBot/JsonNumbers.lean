import LeetBot.JsonRoundTrip

/-!
# The numbers of JSON

The labels of `scan_number` and the jumps between them are an automaton.  It accepts the numbers of the grammar: a
sign, digits that do not begin with a needless zero, a fraction and an exponent.
-/

namespace LeetBot

open LeetBot.Lexer

namespace Grammar

/-! ### The grammar -/

def IsDigits (w : List Char) : Prop := ∀ c ∈ w, c.isDigit = true

/-- A zero, or digits that do not begin with a zero. -/
def IsInt (w : List Char) : Prop := w = ['0'] ∨ ∃ d ds, IsDigits (d :: ds) ∧ d ≠ '0' ∧ w = d :: ds

/-- A fraction, or nothing. -/
def IsFrac (w : List Char) : Prop := w = [] ∨ ∃ d ds, IsDigits (d :: ds) ∧ w = '.' :: d :: ds

/-- An exponent, or nothing. -/
def IsExp (w : List Char) : Prop :=
  w = [] ∨ ∃ e sign d ds, (e = 'e' ∨ e = 'E') ∧ (sign = [] ∨ sign = ['+'] ∨ sign = ['-']) ∧ IsDigits (d :: ds) ∧
    w = e :: (sign ++ d :: ds)

/-- A number without its sign. -/
def IsMagnitude (w : List Char) : Prop :=
  ∃ int frac exp, IsInt int ∧ IsFrac frac ∧ IsExp exp ∧ w = int ++ (frac ++ exp)

def IsNumber (w : List Char) : Prop := IsMagnitude w ∨ ∃ w', IsMagnitude w' ∧ w = '-' :: w'

/-- The type of a number, by the characters in it. -/
def numberTypeOf : List Char → NumberType
  | '-' :: w => if w.all Char.isDigit then .integer else .float
  | w => if w.all Char.isDigit then .unsigned else .float

/-- The texts that `scan_number` takes from a label on. -/
inductive Accepts : NumberState → List Char → Prop where
  | done {s : NumberState} (h : s.done = true) : Accepts s []
  | next {s s' : NumberState} {c : Char} {w : List Char} (h : s.next c = some s') (hw : Accepts s' w) :
      Accepts s (c :: w)

/-! ### The automaton -/

section Numbers

variable {s s' : NumberState} {c : Char} {w ds : List Char}

private theorem isDigits_cons : IsDigits (c :: w) ↔ c.isDigit = true ∧ IsDigits w := List.forall_mem_cons

private theorem Accepts.digits (hloop : ∀ c : Char, c.isDigit = true → s.next c = some s) (hds : IsDigits ds)
    (hw : Accepts s w) : Accepts s (ds ++ w) := by
  induction ds with
  | nil => exact hw
  | cons d ds ih =>
    obtain ⟨hd, hds⟩ := isDigits_cons.1 hds
    exact .next (hloop d hd) (ih hds)

private theorem Accepts.split (hloop : ∀ c : Char, c.isDigit = true → s.next c = some s) (h : Accepts s w) :
    ∃ ds w', IsDigits ds ∧ w = ds ++ w' ∧ Accepts s w' ∧ ∀ c ∈ w'.head?, c.isDigit = false := by
  induction w with
  | nil => exact ⟨[], [], fun _ hc => (nomatch hc), rfl, h, fun _ hc => nomatch hc⟩
  | cons c w ih =>
    cases hc : c.isDigit with
    | false => exact ⟨[], c :: w, fun _ hc => (nomatch hc), rfl, h, fun _ hc' => Option.some.inj hc' ▸ hc⟩
    | true =>
      have hw : Accepts s w := by
        cases h with
        | next hnext hw =>
          rw [hloop c hc] at hnext
          exact Option.some.inj hnext ▸ hw
      obtain ⟨ds, w', hds, rfl, hw', hhead⟩ := ih hw
      exact ⟨c :: ds, w', isDigits_cons.2 ⟨hc, hds⟩, rfl, hw', hhead⟩

private theorem accepts_any2 : Accepts .any2 w ↔ IsDigits w := by
  have hloop : ∀ c : Char, c.isDigit = true → NumberState.any2.next c = some .any2 := by
    intro c hc
    simp only [NumberState.next, hc, if_true]
  constructor
  · intro h
    obtain ⟨ds, w', hds, rfl, hw', hhead⟩ := h.split hloop
    cases hw' with
    | done => rwa [List.append_nil]
    | @next _ _ c _ hnext =>
      simp [NumberState.next, hhead c rfl] at hnext
  · intro h
    have hdigits := Accepts.digits hloop h (.done rfl)
    rwa [List.append_nil] at hdigits

private theorem accepts_sign : Accepts .sign w ↔ ∃ d ds, IsDigits (d :: ds) ∧ w = d :: ds := by
  constructor
  · intro h
    cases h with
    | done h => cases h
    | @next _ _ c w hnext hw =>
      simp only [NumberState.next, Option.ite_none_right_eq_some, Option.some.injEq] at hnext
      obtain ⟨hc, rfl⟩ := hnext
      exact ⟨c, w, isDigits_cons.2 ⟨hc, accepts_any2.1 hw⟩, rfl⟩
  · rintro ⟨d, ds, hds, rfl⟩
    obtain ⟨hd, hds⟩ := isDigits_cons.1 hds
    exact .next (by simp only [NumberState.next, hd, if_true]) (accepts_any2.2 hds)

private theorem accepts_exponent : Accepts .exponent w ↔
    ∃ sign d ds, (sign = [] ∨ sign = ['+'] ∨ sign = ['-']) ∧ IsDigits (d :: ds) ∧ w = sign ++ d :: ds := by
  constructor
  · intro h
    cases h with
    | done h => cases h
    | @next _ _ c w hnext hw =>
      simp only [NumberState.next] at hnext
      split at hnext
      · rename_i hsign
        obtain rfl := Option.some.inj hnext
        obtain ⟨d, ds, hds, rfl⟩ := accepts_sign.1 hw
        have hc : c = '+' ∨ c = '-' := by simpa using hsign
        rcases hc with rfl | rfl
        · exact ⟨['+'], d, ds, .inr (.inl rfl), hds, rfl⟩
        · exact ⟨['-'], d, ds, .inr (.inr rfl), hds, rfl⟩
      split at hnext
      · rename_i hc
        obtain rfl := Option.some.inj hnext
        exact ⟨[], c, w, .inl rfl, isDigits_cons.2 ⟨hc, accepts_any2.1 hw⟩, rfl⟩
      · cases hnext
  · rintro ⟨sign, d, ds, hsign, hds, rfl⟩
    have hd : d.isDigit = true := (isDigits_cons.1 hds).1
    rcases hsign with rfl | rfl | rfl
    · have hne : ∀ c : Char, c.isDigit = false → (d == c) = false := by
        intro c hc
        apply beq_false_of_ne
        rintro rfl
        rw [hd] at hc
        cases hc
      refine .next ?_ (accepts_any2.2 (isDigits_cons.1 hds).2)
      simp only [NumberState.next, hne '+' rfl, hne '-' rfl, hd, Bool.or_self, Bool.false_eq_true, if_false, if_true]
    · exact .next rfl (accepts_sign.2 ⟨d, ds, hds, rfl⟩)
    · exact .next rfl (accepts_sign.2 ⟨d, ds, hds, rfl⟩)

private theorem isExp_cons : IsExp (c :: w) ↔ (c = 'e' ∨ c = 'E') ∧ Accepts .exponent w := by
  rw [accepts_exponent]
  constructor
  · rintro (h | ⟨e, sign, d, ds, he, hsign, hds, h⟩)
    · cases h
    · cases h
      exact ⟨he, sign, d, ds, hsign, hds, rfl⟩
  · rintro ⟨he, sign, d, ds, hsign, hds, rfl⟩
    exact .inr ⟨c, sign, d, ds, he, hsign, hds, rfl⟩

private theorem accepts_decimal2 : Accepts .decimal2 w ↔ ∃ ds exp, IsDigits ds ∧ IsExp exp ∧ w = ds ++ exp := by
  have hloop : ∀ c : Char, c.isDigit = true → NumberState.decimal2.next c = some .decimal2 := by
    intro c hc
    simp only [NumberState.next, hc, if_true]
  constructor
  · intro h
    obtain ⟨ds, w', hds, rfl, hw', hhead⟩ := h.split hloop
    refine ⟨ds, w', hds, ?_, rfl⟩
    cases hw' with
    | done => exact .inl rfl
    | @next _ _ c w hnext hw =>
      simp only [NumberState.next, hhead c rfl, Bool.false_eq_true, if_false, Option.ite_none_right_eq_some,
        Option.some.injEq] at hnext
      obtain ⟨hc, rfl⟩ := hnext
      exact isExp_cons.2 ⟨by simpa using hc, hw⟩
  · rintro ⟨ds, exp, hds, hexp, rfl⟩
    apply Accepts.digits hloop hds
    cases exp with
    | nil => exact .done rfl
    | cons c exp =>
      obtain ⟨hc, hexp⟩ := isExp_cons.1 hexp
      refine .next ?_ hexp
      rcases hc with rfl | rfl <;> rfl

private theorem accepts_decimal1 : Accepts .decimal1 w ↔
    ∃ d ds exp, IsDigits (d :: ds) ∧ IsExp exp ∧ w = d :: ds ++ exp := by
  constructor
  · intro h
    cases h with
    | done h => cases h
    | @next _ _ c w hnext hw =>
      simp only [NumberState.next, Option.ite_none_right_eq_some, Option.some.injEq] at hnext
      obtain ⟨hc, rfl⟩ := hnext
      obtain ⟨ds, exp, hds, hexp, rfl⟩ := accepts_decimal2.1 hw
      exact ⟨c, ds, exp, isDigits_cons.2 ⟨hc, hds⟩, hexp, rfl⟩
  · rintro ⟨d, ds, exp, hds, hexp, rfl⟩
    obtain ⟨hd, hds⟩ := isDigits_cons.1 hds
    exact .next (by simp only [NumberState.next, hd, if_true]) (accepts_decimal2.2 ⟨ds, exp, hds, hexp, rfl⟩)

/-- A fraction and an exponent, each of which may be missing. -/
def IsFracExp (w : List Char) : Prop := ∃ frac exp, IsFrac frac ∧ IsExp exp ∧ w = frac ++ exp

private theorem isFracExp_nil : IsFracExp [] := ⟨[], [], .inl rfl, .inl rfl, rfl⟩

private theorem isFracExp_cons :
    IsFracExp (c :: w) ↔ c = '.' ∧ Accepts .decimal1 w ∨ (c = 'e' ∨ c = 'E') ∧ Accepts .exponent w := by
  rw [accepts_decimal1]
  constructor
  · rintro ⟨frac, exp, rfl | ⟨d, ds, hds, rfl⟩, hexp, h⟩
    · obtain rfl : c :: w = exp := h
      exact .inr (isExp_cons.1 hexp)
    · cases h
      exact .inl ⟨rfl, d, ds, exp, hds, hexp, rfl⟩
  · rintro (⟨rfl, d, ds, exp, hds, hexp, rfl⟩ | h)
    · exact ⟨'.' :: d :: ds, exp, .inr ⟨d, ds, hds, rfl⟩, hexp, rfl⟩
    · exact ⟨[], c :: w, .inl rfl, isExp_cons.2 h, rfl⟩

private theorem accepts_zero : Accepts .zero w ↔ IsFracExp w := by
  constructor
  · intro h
    cases h with
    | done => exact isFracExp_nil
    | @next _ _ c w hnext hw =>
      simp only [NumberState.next] at hnext
      split at hnext
      · rename_i hc
        obtain rfl := Option.some.inj hnext
        exact isFracExp_cons.2 (.inl ⟨eq_of_beq hc, hw⟩)
      split at hnext
      · rename_i hc
        obtain rfl := Option.some.inj hnext
        exact isFracExp_cons.2 (.inr ⟨by simpa using hc, hw⟩)
      · cases hnext
  · intro h
    cases w with
    | nil => exact .done rfl
    | cons c w =>
      rcases isFracExp_cons.1 h with ⟨rfl, hw⟩ | ⟨rfl | rfl, hw⟩
      · exact .next rfl hw
      · exact .next rfl hw
      · exact .next rfl hw

private theorem accepts_any1 : Accepts .any1 w ↔ ∃ ds w', IsDigits ds ∧ IsFracExp w' ∧ w = ds ++ w' := by
  have hloop : ∀ c : Char, c.isDigit = true → NumberState.any1.next c = some .any1 := by
    intro c hc
    simp only [NumberState.next, hc, if_true]
  -- behind the digits, the two labels go on in the same way
  have hzero : ∀ {w'}, (∀ c ∈ w'.head?, c.isDigit = false) → (Accepts .any1 w' ↔ Accepts .zero w') := by
    intro w' hhead
    cases w' with
    | nil => exact ⟨fun _ => .done rfl, fun _ => .done rfl⟩
    | cons c w' =>
      have hnext : NumberState.any1.next c = NumberState.zero.next c := by
        simp only [NumberState.next, hhead c rfl, Bool.false_eq_true, if_false]
      constructor
      · intro h
        cases h with
        | next h hw => exact .next (hnext ▸ h) hw
      · intro h
        cases h with
        | next h hw => exact .next (hnext ▸ h) hw
  constructor
  · intro h
    obtain ⟨ds, w', hds, rfl, hw', hhead⟩ := h.split hloop
    exact ⟨ds, w', hds, accepts_zero.1 ((hzero hhead).1 hw'), rfl⟩
  · rintro ⟨ds, w', hds, hw', rfl⟩
    have hhead : ∀ c ∈ w'.head?, c.isDigit = false := by
      intro c hc
      cases w' with
      | nil => cases hc
      | cons c' w' =>
        cases hc
        rcases isFracExp_cons.1 hw' with ⟨rfl, -⟩ | ⟨rfl | rfl, -⟩ <;> rfl
    exact Accepts.digits hloop hds ((hzero hhead).2 (accepts_zero.2 hw'))

private theorem isMagnitude_cons :
    IsMagnitude (c :: w) ↔ c.isDigit = true ∧ Accepts (if c = '0' then .zero else .any1) w := by
  constructor
  · rintro ⟨int, frac, exp, rfl | ⟨d, ds, hds, hd, rfl⟩, hfrac, hexp, h⟩
    · cases h
      exact ⟨rfl, accepts_zero.2 ⟨frac, exp, hfrac, hexp, rfl⟩⟩
    · cases h
      obtain ⟨hc, hds⟩ := isDigits_cons.1 hds
      rw [if_neg hd]
      exact ⟨hc, accepts_any1.2 ⟨ds, frac ++ exp, hds, ⟨frac, exp, hfrac, hexp, rfl⟩, rfl⟩⟩
  · rintro ⟨hc, hw⟩
    by_cases h0 : c = '0'
    · rw [if_pos h0] at hw
      obtain ⟨frac, exp, hfrac, hexp, rfl⟩ := accepts_zero.1 hw
      exact ⟨['0'], frac, exp, .inl rfl, hfrac, hexp, by rw [h0]; rfl⟩
    · rw [if_neg h0] at hw
      obtain ⟨ds, w', hds, ⟨frac, exp, hfrac, hexp, rfl⟩, rfl⟩ := accepts_any1.1 hw
      exact ⟨c :: ds, frac, exp, .inr ⟨c, ds, isDigits_cons.2 ⟨hc, hds⟩, h0, rfl⟩, hfrac, hexp, rfl⟩

/-! ### The lexer -/

/-- No number goes on with this character where it may end. -/
abbrev BreaksNumber (c : Char) : Prop := c.isDigit = false ∧ c ≠ '.' ∧ c ≠ 'e' ∧ c ≠ 'E'

/-- What follows a number in a text that is not a longer number. -/
def EndsNumber (rest : List Char) : Prop := ∀ c ∈ rest.head?, BreaksNumber c

private theorem EndsNumber.next_eq_none {rest : List Char} (h : EndsNumber (c :: rest)) (hs : s.done = true) :
    s.next c = none := by
  obtain ⟨hdigit, hpoint, he, hE⟩ := h c rfl
  cases s <;> simp_all [NumberState.next, NumberState.done]

/-- The type with which `scan_number` ends. -/
def typeBehind (type : NumberType) (w : List Char) : NumberType := if w.all Char.isDigit then type else .float

private theorem typeBehind_float : typeBehind .float w = .float := ite_self _

private theorem next_ne_minus (h : s.next c = some s') : s' ≠ .minus := by
  rintro rfl
  cases s <;> simp only [NumberState.next] at h <;> repeat' split at h
  all_goals cases h

/-- One character more; behind a point or an `e`, the number is a float. -/
private theorem typeBehind_cons {type : NumberType} (hs : s = .zero ∨ s = .any1 ∨ type = .float)
    (h : s.next c = some s') :
    typeBehind (s'.numberType type) w = typeBehind type (c :: w) ∧
      (s' = .zero ∨ s' = .any1 ∨ s'.numberType type = .float) := by
  -- from these labels, a digit does not change the label, and all else makes the number a float
  have hcases : s'.numberType type = .float ∧ (type = .float ∨ c.isDigit = false) ∨
      s'.numberType type = type ∧ c.isDigit = true ∧ s' = .any1 := by
    rcases hs with rfl | rfl | rfl
    · left
      simp only [NumberState.next] at h
      split at h
      · rename_i hc
        cases h
        exact ⟨rfl, .inr (by rw [eq_of_beq hc]; rfl)⟩
      split at h
      · rename_i hc
        cases h
        have he : c = 'e' ∨ c = 'E' := by simpa using hc
        exact ⟨rfl, .inr (by rcases he with rfl | rfl <;> rfl)⟩
      · cases h
    · cases hc : c.isDigit with
      | true =>
        right
        simp only [NumberState.next, hc, if_true, Option.some.injEq] at h
        exact ⟨by rw [← h]; rfl, rfl, h.symm⟩
      | false =>
        left
        simp only [NumberState.next, hc, Bool.false_eq_true, if_false] at h
        split at h
        · cases h
          exact ⟨rfl, .inr rfl⟩
        split at h
        · cases h
          exact ⟨rfl, .inr rfl⟩
        · cases h
    · left
      refine ⟨?_, .inl rfl⟩
      have hne := next_ne_minus h
      cases s' <;> first | rfl | exact absurd rfl hne
  rcases hcases with ⟨hfloat, rfl | hc⟩ | ⟨hsame, hc, rfl⟩
  · exact ⟨by rw [hfloat, typeBehind_float, typeBehind_float], .inr (.inr hfloat)⟩
  · refine ⟨?_, .inr (.inr hfloat)⟩
    rw [hfloat, typeBehind_float, typeBehind, List.all_cons, hc]
    rfl
  · refine ⟨?_, .inr (.inl rfl)⟩
    rw [hsame, typeBehind, typeBehind, List.all_cons, hc, Bool.true_and]

private theorem scanNumber_of_accepts {type : NumberType} {buffer rest : List Char}
    (hs : s = .zero ∨ s = .any1 ∨ type = .float) (h : Accepts s w) (hrest : EndsNumber rest) :
    scanNumber s type buffer (w ++ rest) = (convert (typeBehind type w) (buffer ++ w), rest) := by
  induction h generalizing type buffer with
  | @done s hdone =>
    rw [List.append_nil]
    cases rest with
    | nil => rw [List.append_nil, scanNumber, if_pos hdone]; rfl
    | cons c rest =>
      rw [List.nil_append, scanNumber, hrest.next_eq_none hdone]
      simp only [if_pos hdone]
      rfl
  | @next s s' c w hnext _ ih =>
    obtain ⟨htype, hs'⟩ := typeBehind_cons (w := w) hs hnext
    rw [List.cons_append, scanNumber, hnext]
    dsimp only
    rw [ih hs', htype, List.append_assoc, List.singleton_append]

/-- What the lexer takes as a number, from a label on. -/
private theorem accepts_of_scanNumber {type : NumberType} {buffer cs rest : List Char} {t : Token}
    (hs : s = .zero ∨ s = .any1 ∨ type = .float) (h : scanNumber s type buffer cs = (t, rest))
    (ht : t ≠ .parseError) :
    ∃ w, cs = w ++ rest ∧ Accepts s w ∧ t = convert (typeBehind type w) (buffer ++ w) := by
  induction cs generalizing s type buffer with
  | nil =>
    rw [scanNumber] at h
    split at h
    · rename_i hdone
      cases h
      exact ⟨[], rfl, .done hdone, by rw [List.append_nil]; rfl⟩
    · cases h
      exact absurd rfl ht
  | cons c cs ih =>
    rw [scanNumber] at h
    cases hnext : s.next c with
    | some s' =>
      rw [hnext] at h
      dsimp only at h
      obtain ⟨w, rfl, hw, rfl⟩ := ih (typeBehind_cons (w := cs) hs hnext).2 h
      refine ⟨c :: w, rfl, .next hnext hw, ?_⟩
      rw [(typeBehind_cons hs hnext).1, List.append_assoc, List.singleton_append]
    | none =>
      rw [hnext] at h
      dsimp only at h
      split at h
      · rename_i hdone
        cases h
        exact ⟨[], rfl, .done hdone, by rw [List.append_nil]; rfl⟩
      · cases h
        exact absurd rfl ht

/-- The token of a number: an integer of 64 bits, or a float. -/
def numberToken : List Char → Token
  | '-' :: w =>
      if w.all Char.isDigit ∧ Nat.ofDigitChars 10 w 0 ≤ 2 ^ 63 then .valueInteger (-Nat.ofDigitChars 10 w 0)
      else .valueFloat ('-' :: w)
  | w =>
      if w.all Char.isDigit ∧ Nat.ofDigitChars 10 w 0 < 2 ^ 64 then .valueUnsigned (Nat.ofDigitChars 10 w 0)
      else .valueFloat w

theorem numberToken_eq (w : List Char) : numberToken w = convert (numberTypeOf w) w := by
  unfold numberToken numberTypeOf
  split
  · rename_i w
    cases hdigits : w.all Char.isDigit <;> simp [convert]
  · cases hdigits : w.all Char.isDigit <;> simp [convert]

private theorem numberTypeOf_digit (hc : c.isDigit = true) : numberTypeOf (c :: w) = typeBehind .unsigned w := by
  unfold numberTypeOf
  split
  · rename_i heq
    cases heq
    cases hc
  · rw [List.all_cons, hc, Bool.true_and]
    rfl

private theorem numberTypeOf_minus (hc : c.isDigit = true) :
    numberTypeOf ('-' :: c :: w) = typeBehind .integer w := by
  show (if (c :: w).all Char.isDigit then NumberType.integer else .float) = _
  rw [List.all_cons, hc, Bool.true_and]
  rfl

private theorem exists_of_isMagnitude (h : IsMagnitude w) : ∃ c w', w = c :: w' := by
  obtain ⟨int, frac, exp, rfl | ⟨d, ds, -, -, rfl⟩, -, -, rfl⟩ := h
  · exact ⟨_, _, rfl⟩
  · exact ⟨_, _, rfl⟩

private theorem first_states : (if c = '0' then NumberState.zero else .any1) = .zero ∨
    (if c = '0' then NumberState.zero else .any1) = .any1 := by
  split
  · exact .inl rfl
  · exact .inr rfl

/-- The lexer gets a number that is not continued. -/
theorem scan_number {rest : List Char} (h : IsNumber w) (hrest : EndsNumber rest) :
    scan (w ++ rest) = (numberToken w, rest) := by
  have hfirst : ∀ c, ∀ type : NumberType, (if c = '0' then NumberState.zero else .any1) = .zero ∨
      (if c = '0' then NumberState.zero else .any1) = .any1 ∨ type = .float := fun c type =>
    first_states.imp_right .inl
  rcases h with h | ⟨w', h, rfl⟩
  · obtain ⟨c, w, rfl⟩ := exists_of_isMagnitude h
    obtain ⟨hc, hw⟩ := isMagnitude_cons.1 h
    rw [List.cons_append, Json.scan_digit hc, scanNumber_of_accepts (hfirst c _) hw hrest, numberToken_eq,
      numberTypeOf_digit hc, List.singleton_append]
  · obtain ⟨c, w, rfl⟩ := exists_of_isMagnitude h
    obtain ⟨hc, hw⟩ := isMagnitude_cons.1 h
    rw [List.cons_append, List.cons_append, scan_other (by decide) (by decide) (by decide)]
    show scanNumber .minus .integer ['-'] (c :: (w ++ rest)) = _
    rw [scanNumber, Json.next_minus hc]
    dsimp only
    rw [Json.numberType_first, scanNumber_of_accepts (hfirst c _) hw hrest, numberToken_eq, numberTypeOf_minus hc]
    rfl

/-- What begins with a digit, and is a token, begins with a number. -/
theorem isNumber_of_scan_digit {cs rest : List Char} {t : Token} (hc : c.isDigit = true)
    (h : scan (c :: cs) = (t, rest)) (ht : t ≠ .parseError) :
    ∃ w, c :: cs = w ++ rest ∧ IsNumber w ∧ t = numberToken w := by
  rw [Json.scan_digit hc] at h
  obtain ⟨w, rfl, hw, rfl⟩ := accepts_of_scanNumber (first_states.imp_right .inl) h ht
  refine ⟨c :: w, rfl, .inl (isMagnitude_cons.2 ⟨hc, hw⟩), ?_⟩
  rw [numberToken_eq, numberTypeOf_digit hc]
  rfl

theorem isNumber_of_scan_minus {cs rest : List Char} {t : Token} (h : scan ('-' :: cs) = (t, rest))
    (ht : t ≠ .parseError) : ∃ w, '-' :: cs = w ++ rest ∧ IsNumber w ∧ t = numberToken w := by
  rw [scan_other (by decide) (by decide) (by decide)] at h
  have h : scanNumber .minus .integer ['-'] cs = (t, rest) := h
  cases cs with
  | nil =>
    cases h
    exact absurd rfl ht
  | cons c cs =>
    cases hc : c.isDigit with
    | false =>
      have hnext : NumberState.minus.next c = none := by
        have h0 : c ≠ '0' := by
          rintro rfl
          cases hc
        simp only [NumberState.next, beq_iff_eq, if_neg h0, hc, Bool.false_eq_true, if_false]
      rw [scanNumber, hnext] at h
      cases h
      exact absurd rfl ht
    | true =>
      rw [scanNumber, Json.next_minus hc] at h
      dsimp only at h
      rw [Json.numberType_first] at h
      obtain ⟨w, rfl, hw, rfl⟩ := accepts_of_scanNumber (first_states.imp_right .inl) h ht
      refine ⟨'-' :: c :: w, rfl, .inr ⟨c :: w, isMagnitude_cons.2 ⟨hc, hw⟩, rfl⟩, ?_⟩
      rw [numberToken_eq, numberTypeOf_minus hc]
      rfl

end Numbers

end Grammar

end LeetBot
