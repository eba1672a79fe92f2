import LeetBot.JsonParse

/-!
# The grammar of JSON

The lists of tokens that are a value, by the grammar of JSON, and the value that each of them denotes.  The parser,
which never calls itself and keeps a stack instead, accepts those and no others.
-/

namespace LeetBot

open SortedMembers LeetBot.Lexer LeetBot.Parser

namespace Grammar

/-- The elements or members behind the first one, each behind a comma. -/
def tail (uss : List (List Token)) : List Token := uss.flatMap (.valueSeparator :: ·)

/-- Elements or members with commas between them. -/
def separated : List (List Token) → List Token
  | [] => []
  | us :: uss => us ++ tail uss

/-- A member as it is written. -/
def memberTokens (x : String × List Token × Json) : List Token := .valueString x.1 :: .nameSeparator :: x.2.1

/-- The members, each at its key; of two with the same key, the later one stays. -/
def members (m : List (String × Json)) (xs : List (String × List Token × Json)) : List (String × Json) :=
  xs.foldl (fun m x => insertKey x.1 x.2.2 m) m

/-- The tokens are a value, and denote it. -/
inductive Denotes (strtod : List Char → Option Rat) : List Token → Json → Prop where
  | null : Denotes strtod [.literalNull] .null
  | true : Denotes strtod [.literalTrue] (.boolean true)
  | false : Denotes strtod [.literalFalse] (.boolean false)
  | string (s : String) : Denotes strtod [.valueString s] (.string s)
  | unsigned (n : Nat) : Denotes strtod [.valueUnsigned n] (.number n)
  | integer (i : Int) : Denotes strtod [.valueInteger i] (.number i)
  | float {text : List Char} {q : Rat} (h : strtod text = some q) : Denotes strtod [.valueFloat text] (.numberFloat q)
  | array {xs : List (List Token × Json)} (h : ∀ x ∈ xs, Denotes strtod x.1 x.2) :
      Denotes strtod (.beginArray :: separated (xs.map Prod.fst) ++ [.endArray]) (.array (xs.map Prod.snd))
  | object {xs : List (String × List Token × Json)} (h : ∀ x ∈ xs, Denotes strtod x.2.1 x.2.2) :
      Denotes strtod (.beginObject :: separated (xs.map memberTokens) ++ [.endObject]) (.object (members [] xs))

section Grammar

variable {strtod : List Char → Option Rat} {us ts : List Token} {v j : Json}

@[simp] theorem tail_cons (us : List Token) (uss : List (List Token)) :
    tail (us :: uss) = .valueSeparator :: (us ++ tail uss) := rfl

@[simp] theorem members_cons (m : List (String × Json)) (x : String × List Token × Json)
    (xs : List (String × List Token × Json)) : members m (x :: xs) = members (insertKey x.1 x.2.2 m) xs := rfl

private theorem Denotes.ne_endArray (h : Denotes strtod us v) : ∀ ts', us ++ ts ≠ .endArray :: ts' := by
  intro ts' heq
  cases h <;> cases heq

/-! ### What the grammar has, the parser accepts -/

/-- The parser reads these tokens as this value, wherever it is. -/
def Read (strtod : List Char → Option Rat) (us : List Token) (v : Json) : Prop :=
  ∀ fs ts, parseValue strtod fs (us ++ ts) = afterValue strtod fs v ts

private theorem read_elements {xs : List (List Token × Json)} (h : ∀ x ∈ xs, Read strtod x.1 x.2) (fs : List Frame)
    (l : List Json) (v : Json) (ts : List Token) :
    afterValue strtod (.array l :: fs) v (tail (xs.map Prod.fst) ++ .endArray :: ts) =
      afterValue strtod fs (.array (l ++ v :: xs.map Prod.snd)) ts := by
  induction xs generalizing l v with
  | nil => rfl
  | cons x xs ih =>
    have hx : Read strtod x.1 x.2 := h x List.mem_cons_self
    have hxs : ∀ y ∈ xs, Read strtod y.1 y.2 := fun y hy => h y (List.mem_cons_of_mem _ hy)
    rw [List.map_cons, tail_cons, List.cons_append, afterValue, List.append_assoc, hx, ih hxs, List.append_assoc]
    rfl

private theorem read_members {xs : List (String × List Token × Json)} (h : ∀ x ∈ xs, Read strtod x.2.1 x.2.2)
    (fs : List Frame) (m : List (String × Json)) (key : String) (v : Json) (ts : List Token) :
    afterValue strtod (.object m key :: fs) v (tail (xs.map memberTokens) ++ .endObject :: ts) =
      afterValue strtod fs (.object (members (insertKey key v m) xs)) ts := by
  induction xs generalizing m key v with
  | nil => rfl
  | cons x xs ih =>
    have hx : Read strtod x.2.1 x.2.2 := h x List.mem_cons_self
    have hxs : ∀ y ∈ xs, Read strtod y.2.1 y.2.2 := fun y hy => h y (List.mem_cons_of_mem _ hy)
    rw [List.map_cons, tail_cons, memberTokens, List.cons_append, List.append_assoc, List.cons_append,
      List.cons_append, afterValue, hx, ih hxs, members_cons]

private theorem Denotes.read (h : Denotes strtod us v) : Read strtod us v := by
  induction h with
  | null => exact fun fs ts => rfl
  | true => exact fun fs ts => rfl
  | false => exact fun fs ts => rfl
  | string s => exact fun fs ts => rfl
  | unsigned n => exact fun fs ts => rfl
  | integer i => exact fun fs ts => rfl
  | float h =>
    intro fs ts
    rw [List.singleton_append, parseValue, h]
  | @array xs h ih =>
    intro fs ts
    cases xs with
    | nil => rfl
    | cons x xs =>
      have hx : Denotes strtod x.1 x.2 := h x List.mem_cons_self
      have hxs : ∀ y ∈ xs, Read strtod y.1 y.2 := fun y hy => ih y (List.mem_cons_of_mem _ hy)
      rw [List.map_cons, separated, List.cons_append, List.cons_append, List.append_assoc, List.append_assoc,
        parseValue_beginArray hx.ne_endArray, ih x List.mem_cons_self, List.singleton_append, read_elements hxs]
      rfl
  | @object xs h ih =>
    intro fs ts
    cases xs with
    | nil => rfl
    | cons x xs =>
      have hxs : ∀ y ∈ xs, Read strtod y.2.1 y.2.2 := fun y hy => ih y (List.mem_cons_of_mem _ hy)
      rw [List.map_cons, separated, memberTokens, List.cons_append, List.cons_append, List.append_assoc,
        List.append_assoc, List.cons_append, List.cons_append, parseValue, ih x List.mem_cons_self,
        List.singleton_append, read_members hxs]
      rfl

/-! ### What the parser accepts, the grammar has -/

/-- The tokens close the frames around a value, one container after the other; at the end there are a value and the
tokens behind it. -/
def Closes (strtod : List Char → Option Rat) : List Frame → Json → List Token → Json × List Token → Prop
  | [], v, ts, result => result = (v, ts)
  | .array l :: fs, v, ts, result => ∃ (xs : List (List Token × Json)) (ts' : List Token),
      (∀ x ∈ xs, Denotes strtod x.1 x.2) ∧
      ts = tail (xs.map Prod.fst) ++ .endArray :: ts' ∧
      Closes strtod fs (.array (l ++ v :: xs.map Prod.snd)) ts' result
  | .object m key :: fs, v, ts, result => ∃ (xs : List (String × List Token × Json)) (ts' : List Token),
      (∀ x ∈ xs, Denotes strtod x.2.1 x.2.2) ∧
      ts = tail (xs.map memberTokens) ++ .endObject :: ts' ∧
      Closes strtod fs (.object (members (insertKey key v m) xs)) ts' result

/-- The tokens begin with a value, and behind it they close the frames. -/
def BeginsWithValue (strtod : List Char → Option Rat) (fs : List Frame) (ts : List Token)
    (result : Json × List Token) : Prop :=
  ∃ us v ts', Denotes strtod us v ∧ ts = us ++ ts' ∧ Closes strtod fs v ts' result

private theorem beginsWithValue_array {fs : List Frame} {result : Json × List Token}
    (h : BeginsWithValue strtod (.array [] :: fs) ts result) :
    BeginsWithValue strtod fs (.beginArray :: ts) result := by
  obtain ⟨us, v, ts', hus, rfl, xs, ts'', hxs, rfl, hcloses⟩ := h
  have harray : ∀ x ∈ (us, v) :: xs, Denotes strtod x.1 x.2 := List.forall_mem_cons.2 ⟨hus, hxs⟩
  refine ⟨_, _, ts'', .array harray, ?_, hcloses⟩
  simp [separated]

private theorem beginsWithValue_object {fs : List Frame} {key : String} {result : Json × List Token}
    (h : BeginsWithValue strtod (.object [] key :: fs) ts result) :
    BeginsWithValue strtod fs (.beginObject :: .valueString key :: .nameSeparator :: ts) result := by
  obtain ⟨us, v, ts', hus, rfl, xs, ts'', hxs, rfl, hcloses⟩ := h
  have hobject : ∀ x ∈ (key, us, v) :: xs, Denotes strtod x.2.1 x.2.2 := List.forall_mem_cons.2 ⟨hus, hxs⟩
  refine ⟨_, _, ts'', .object hobject, ?_, hcloses⟩
  simp [separated, memberTokens]

private theorem closes_element {fs : List Frame} {l : List Json} {result : Json × List Token}
    (h : BeginsWithValue strtod (.array (l ++ [v]) :: fs) ts result) :
    Closes strtod (.array l :: fs) v (.valueSeparator :: ts) result := by
  obtain ⟨us, v', ts', hus, rfl, xs, ts'', hxs, rfl, hcloses⟩ := h
  exact ⟨(us, v') :: xs, ts'', List.forall_mem_cons.2 ⟨hus, hxs⟩, by simp, by simpa using hcloses⟩

private theorem closes_member {fs : List Frame} {m : List (String × Json)} {key key' : String}
    {result : Json × List Token} (h : BeginsWithValue strtod (.object (insertKey key v m) key' :: fs) ts result) :
    Closes strtod (.object m key :: fs) v (.valueSeparator :: .valueString key' :: .nameSeparator :: ts) result := by
  obtain ⟨us, v', ts', hus, rfl, xs, ts'', hxs, rfl, hcloses⟩ := h
  exact ⟨(key', us, v') :: xs, ts'', List.forall_mem_cons.2 ⟨hus, hxs⟩, by simp [memberTokens], hcloses⟩

private theorem beginsWithValue_of_parseValue (fs : List Frame) (ts : List Token) :
    ∀ result, parseValue strtod fs ts = some result → BeginsWithValue strtod fs ts result := by
  apply parseValue.induct strtod
    (fun fs ts => ∀ result, parseValue strtod fs ts = some result → BeginsWithValue strtod fs ts result)
    (fun fs v ts => ∀ result, afterValue strtod fs v ts = some result → Closes strtod fs v ts result)
  -- the first token of a value
  · intro fs ts ih result h
    have hempty : ∀ x ∈ ([] : List (String × List Token × Json)), Denotes strtod x.2.1 x.2.2 :=
      List.forall_mem_nil _
    exact ⟨_, _, ts, .object hempty, rfl, ih result h⟩
  · intro fs key ts ih result h
    exact beginsWithValue_object (ih result h)
  · intro fs ts ih result h
    have hempty : ∀ x ∈ ([] : List (List Token × Json)), Denotes strtod x.1 x.2 := List.forall_mem_nil _
    exact ⟨_, _, ts, .array hempty, rfl, ih result h⟩
  · intro fs ts hne ih result h
    rw [parseValue_beginArray hne] at h
    exact beginsWithValue_array (ih result h)
  · intro fs ts ih result h
    exact ⟨_, _, ts, .true, rfl, ih result h⟩
  · intro fs ts ih result h
    exact ⟨_, _, ts, .false, rfl, ih result h⟩
  · intro fs ts ih result h
    exact ⟨_, _, ts, .null, rfl, ih result h⟩
  · intro fs s ts ih result h
    exact ⟨_, _, ts, .string s, rfl, ih result h⟩
  · intro fs n ts ih result h
    exact ⟨_, _, ts, .unsigned n, rfl, ih result h⟩
  · intro fs i ts ih result h
    exact ⟨_, _, ts, .integer i, rfl, ih result h⟩
  · intro fs text ts q hq ih result h
    rw [parseValue, hq] at h
    exact ⟨_, _, ts, .float hq, rfl, ih result h⟩
  · intro fs text ts hnone result h
    rw [parseValue, hnone] at h
    cases h
  · intro ts fs _ _ _ _ _ _ _ _ _ _ _ result h
    rw [parseValue] at h
    · cases h
    all_goals assumption
  -- behind a value
  · intro v ts result h
    rw [afterValue] at h
    exact (Option.some.inj h).symm
  · intro v l fs ts ih result h
    exact closes_element (ih result h)
  · intro v l fs ts ih result h
    exact ⟨[], ts, List.forall_mem_nil _, rfl, ih result h⟩
  · intro v m key fs key' ts ih result h
    exact closes_member (ih result h)
  · intro v m key fs ts ih result h
    exact ⟨[], ts, List.forall_mem_nil _, rfl, ih result h⟩
  · intro ts fs v _ _ _ _ _ result h
    rw [afterValue] at h
    · cases h
    all_goals assumption

/-- The parser accepts a list of tokens, up to its end, if and only if it is a value. -/
theorem parseValue_iff_denotes : parseValue strtod [] ts = some (j, []) ↔ Denotes strtod ts j := by
  constructor
  · intro h
    obtain ⟨us, v, ts', hus, rfl, hcloses⟩ := beginsWithValue_of_parseValue [] ts _ h
    obtain ⟨rfl, rfl⟩ := Prod.ext_iff.1 (show (j, []) = (v, ts') from hcloses)
    rwa [List.append_nil]
  · intro h
    have hread := h.read [] []
    rw [List.append_nil, afterValue] at hread
    exact hread

end Grammar

end Grammar

end LeetBot
