import LeetBot.JsonParse

/-!
# The handlers of the parser

`sax_parse_internal` builds nothing.  It remembers whether it is in an array or in an object, and calls a handler for
each value, each key and each bracket.  `parse` runs it with `json_sax_dom_parser`, which builds the value in place
and points to the containers that are open; `accept` runs it with `json_sax_acceptor`, which builds nothing.
-/

namespace LeetBot

open SortedMembers LeetBot.Lexer LeetBot.Parser

namespace Sax

/-- A call of the handler. -/
inductive Event where
  | null
  | boolean (b : Bool)
  | numberInteger (i : Int)
  | numberUnsigned (n : Nat)
  | numberFloat (q : Rat)
  | string (s : String)
  | startObject
  | key (s : String)
  | endObject
  | startArray
  | endArray

section Parse

variable {σ : Type} (handle : σ → Event → Option σ) (strtod : List Char → Option Rat)

mutual

/-- `sax_parse_internal` at the first token of a value; in `states`, an array is `true`. -/
def saxValue (states : List Bool) (s : σ) : List Token → Option (σ × List Token)
  | .beginObject :: .endObject :: ts => do
      let s ← handle s .startObject
      let s ← handle s .endObject
      saxState states s ts
  | .beginObject :: .valueString key :: .nameSeparator :: ts => do
      let s ← handle s .startObject
      let s ← handle s (.key key)
      saxValue (false :: states) s ts
  | .beginArray :: .endArray :: ts => do
      let s ← handle s .startArray
      let s ← handle s .endArray
      saxState states s ts
  | .beginArray :: ts => do
      let s ← handle s .startArray
      saxValue (true :: states) s ts
  | .literalTrue :: ts => do saxState states (← handle s (.boolean true)) ts
  | .literalFalse :: ts => do saxState states (← handle s (.boolean false)) ts
  | .literalNull :: ts => do saxState states (← handle s .null) ts
  | .valueString text :: ts => do saxState states (← handle s (.string text)) ts
  | .valueUnsigned n :: ts => do saxState states (← handle s (.numberUnsigned n)) ts
  | .valueInteger i :: ts => do saxState states (← handle s (.numberInteger i)) ts
  | .valueFloat text :: ts =>
      match strtod text with
      | some q => do saxState states (← handle s (.numberFloat q)) ts
      | none => none
  | _ => none

/-- `sax_parse_internal` behind a value. -/
def saxState (states : List Bool) (s : σ) (ts : List Token) : Option (σ × List Token) :=
  match states, ts with
  | [], ts => some (s, ts)
  | true :: states, .valueSeparator :: ts => saxValue (true :: states) s ts
  | true :: states, .endArray :: ts => do saxState states (← handle s .endArray) ts
  | false :: states, .valueSeparator :: .valueString key :: .nameSeparator :: ts => do
      let s ← handle s (.key key)
      saxValue (false :: states) s ts
  | false :: states, .endObject :: ts => do saxState states (← handle s .endObject) ts
  | _, _ => none

end

/-- `sax_parse`, up to the end of the text. -/
def saxParse (s : σ) (text : String) : Option σ :=
  match saxValue handle strtod [] s (tokens (skipBom text.toList)) with
  | some (s, []) => some s
  | _ => none

end Parse

/-! ### Handlers that keep up with the parser -/

/-- Whether a frame is that of an array. -/
def isArray : Frame → Bool
  | .array _ => true
  | .object _ _ => false

/-- The value that an event brings, if it brings one. -/
def Event.scalar : Event → Option Json
  | .null => some .null
  | .boolean b => some (.boolean b)
  | .numberInteger i => some (.number i)
  | .numberUnsigned n => some (.number n)
  | .numberFloat q => some (.numberFloat q)
  | .string s => some (.string s)
  | _ => none

/-- A handler keeps up with the parser: it never refuses, and its state is what it should be where a value is
expected in the frames (`Before`), where the innermost container is open with these elements or members (`Within`),
and where a value has ended (`Behind`). -/
structure Tracks {σ : Type} (handle : σ → Event → Option σ) (Before : List Frame → σ → Prop)
    (Within Behind : List Frame → Json → σ → Prop) : Prop where
  scalar : ∀ {fs s e v}, e.scalar = some v → Before fs s → ∃ s', handle s e = some s' ∧ Behind fs v s'
  startObject : ∀ {fs s}, Before fs s → ∃ s', handle s .startObject = some s' ∧ Within fs (.object []) s'
  startArray : ∀ {fs s}, Before fs s → ∃ s', handle s .startArray = some s' ∧ Within fs (.array []) s'
  key : ∀ {fs s m} key, Within fs (.object m) s →
    ∃ s', handle s (.key key) = some s' ∧ Before (.object m key :: fs) s'
  endObject : ∀ {fs s m}, Within fs (.object m) s → ∃ s', handle s .endObject = some s' ∧ Behind fs (.object m) s'
  endArray : ∀ {fs s l}, Within fs (.array l) s → ∃ s', handle s .endArray = some s' ∧ Behind fs (.array l) s'
  element : ∀ {fs s l}, Within fs (.array l) s → Before (.array l :: fs) s
  element_ended : ∀ {fs s l v}, Behind (.array l :: fs) v s → Within fs (.array (l ++ [v])) s
  member_ended : ∀ {fs s m key v}, Behind (.object m key :: fs) v s → Within fs (.object (insertKey key v m)) s

section Tracks

variable {σ : Type} {handle : σ → Event → Option σ} {Before : List Frame → σ → Prop}
  {Within Behind : List Frame → Json → σ → Prop} {strtod : List Char → Option Rat}

/-- The parser with the handler ends where the parser of values ends, with a state for the value. -/
def Agrees (Behind : List Frame → Json → σ → Prop) (result : Option (σ × List Token))
    (value : Option (Json × List Token)) : Prop :=
  Option.Rel (fun x y => Behind [] y.1 x.1 ∧ x.2 = y.2) result value

/-- Behind a value, the parser with the handler goes on with the tokens with which the parser of values does. -/
private theorem saxState_eq_none {fs : List Frame} {ts : List Token} {s : σ} (hnil : fs ≠ [])
    (hsep : ∀ l fs' ts', fs = .array l :: fs' → ts ≠ .valueSeparator :: ts')
    (hend : ∀ l fs' ts', fs = .array l :: fs' → ts ≠ .endArray :: ts')
    (hmember : ∀ m key fs' key' ts', fs = .object m key :: fs' →
      ts ≠ .valueSeparator :: .valueString key' :: .nameSeparator :: ts')
    (hclose : ∀ m key fs' ts', fs = .object m key :: fs' → ts ≠ .endObject :: ts') :
    saxState handle strtod (fs.map isArray) s ts = none := by
  cases fs with
  | nil => exact absurd rfl hnil
  | cons f fs =>
    cases f with
    | array l =>
      rw [List.map_cons, isArray, saxState]
      · exact List.cons_ne_nil _ _
      · exact fun _ ts' _ hts => hsep l fs ts' rfl hts
      · exact fun _ ts' _ hts => hend l fs ts' rfl hts
      · intro _ _ _ h
        cases h
      · intro _ _ h
        cases h
    | object m key =>
      rw [List.map_cons, isArray, saxState]
      · exact List.cons_ne_nil _ _
      · intro _ _ h
        cases h
      · intro _ _ h
        cases h
      · exact fun _ key' ts' _ hts => hmember m key fs key' ts' rfl hts
      · exact fun _ ts' _ hts => hclose m key fs ts' rfl hts

private theorem Tracks.agrees_scalar (htracks : Tracks handle Before Within Behind) {fs : List Frame} {s : σ}
    {e : Event} {v : Json} {ts : List Token} (he : e.scalar = some v) (hs : Before fs s)
    (ih : ∀ s, Behind fs v s →
      Agrees Behind (saxState handle strtod (fs.map isArray) s ts) (afterValue strtod fs v ts)) :
    Agrees Behind (do saxState handle strtod (fs.map isArray) (← handle s e) ts) (afterValue strtod fs v ts) := by
  obtain ⟨s', hhandle, hs'⟩ := htracks.scalar he hs
  rw [hhandle]
  exact ih s' hs'

private theorem Tracks.agrees (htracks : Tracks handle Before Within Behind) (fs : List Frame) (ts : List Token) :
    ∀ s, Before fs s →
      Agrees Behind (saxValue handle strtod (fs.map isArray) s ts) (parseValue strtod fs ts) := by
  apply parseValue.induct strtod
    (fun fs ts => ∀ s, Before fs s →
      Agrees Behind (saxValue handle strtod (fs.map isArray) s ts) (parseValue strtod fs ts))
    (fun fs v ts => ∀ s, Behind fs v s →
      Agrees Behind (saxState handle strtod (fs.map isArray) s ts) (afterValue strtod fs v ts))
  -- the first token of a value
  · intro fs ts ih s hs
    obtain ⟨s₁, hstart, hs₁⟩ := htracks.startObject hs
    obtain ⟨s₂, hend, hs₂⟩ := htracks.endObject hs₁
    rw [saxValue, hstart, Option.bind_eq_bind, Option.bind_some, hend]
    exact ih s₂ hs₂
  · intro fs key ts ih s hs
    obtain ⟨s₁, hstart, hs₁⟩ := htracks.startObject hs
    obtain ⟨s₂, hkey, hs₂⟩ := htracks.key key hs₁
    rw [saxValue, hstart, Option.bind_eq_bind, Option.bind_some, hkey]
    exact ih s₂ hs₂
  · intro fs ts ih s hs
    obtain ⟨s₁, hstart, hs₁⟩ := htracks.startArray hs
    obtain ⟨s₂, hend, hs₂⟩ := htracks.endArray hs₁
    rw [saxValue, hstart, Option.bind_eq_bind, Option.bind_some, hend]
    exact ih s₂ hs₂
  · intro fs ts hne ih s hs
    obtain ⟨s₁, hstart, hs₁⟩ := htracks.startArray hs
    rw [parseValue_beginArray hne, saxValue, hstart]
    · exact ih s₁ (htracks.element hs₁)
    · exact hne
  · intro fs ts ih s hs
    exact htracks.agrees_scalar rfl hs ih
  · intro fs ts ih s hs
    exact htracks.agrees_scalar rfl hs ih
  · intro fs ts ih s hs
    exact htracks.agrees_scalar rfl hs ih
  · intro fs text ts ih s hs
    exact htracks.agrees_scalar rfl hs ih
  · intro fs n ts ih s hs
    exact htracks.agrees_scalar rfl hs ih
  · intro fs i ts ih s hs
    exact htracks.agrees_scalar rfl hs ih
  · intro fs text ts q hq ih s hs
    rw [parseValue, saxValue, hq]
    exact htracks.agrees_scalar rfl hs ih
  · intro fs text ts hnone s _
    rw [parseValue, saxValue, hnone]
    exact .none
  · intro ts fs _ _ _ _ _ _ _ _ _ _ _ s _
    rw [parseValue, saxValue]
    · exact .none
    all_goals assumption
  -- behind a value
  · intro v ts s hs
    rw [afterValue, List.map_nil, saxState]
    exact .some ⟨hs, rfl⟩
  · intro v l fs ts ih s hs
    exact ih s (htracks.element (htracks.element_ended hs))
  · intro v l fs ts ih s hs
    obtain ⟨s', hend, hs'⟩ := htracks.endArray (htracks.element_ended hs)
    rw [List.map_cons, isArray, saxState, hend]
    exact ih s' hs'
  · intro v m key fs key' ts ih s hs
    obtain ⟨s', hkey, hs'⟩ := htracks.key key' (htracks.member_ended hs)
    rw [List.map_cons, isArray, saxState, hkey]
    exact ih s' hs'
  · intro v m key fs ts ih s hs
    obtain ⟨s', hend, hs'⟩ := htracks.endObject (htracks.member_ended hs)
    rw [List.map_cons, isArray, saxState, hend]
    exact ih s' hs'
  · intro ts fs v hnil hsep hend hmember hclose s _
    have hvalue : afterValue strtod fs v ts = none := by
      rw [afterValue] <;> assumption
    rw [hvalue, saxState_eq_none hnil hsep hend hmember hclose]
    exact .none

private theorem Tracks.saxParse (htracks : Tracks handle Before Within Behind) {s : σ} (hs : Before [] s)
    (text : String) :
    Option.Rel (fun s j => Behind [] j s) (saxParse handle strtod s text) (Json.parse strtod text) := by
  have hagrees : Agrees Behind (saxValue handle strtod [] s (tokens (skipBom text.toList)))
      (parseValue strtod [] (tokens (skipBom text.toList))) := htracks.agrees [] _ s hs
  unfold Sax.saxParse Json.parse
  generalize saxValue handle strtod [] s (tokens (skipBom text.toList)) = result at hagrees
  generalize parseValue strtod [] (tokens (skipBom text.toList)) = value at hagrees
  cases hagrees with
  | none => exact .none
  | @some x y hxy =>
    obtain ⟨s, rest⟩ := x
    obtain ⟨j, rest'⟩ := y
    obtain ⟨hs, rfl⟩ : Behind [] j s ∧ rest = rest' := hxy
    cases rest with
    | nil => exact .some hs
    | cons t ts => exact .none

end Tracks

/-! ### `json_sax_acceptor` -/

/-- `json_sax_acceptor`: every call returns `true`. -/
def acceptor (_ : Unit) (_ : Event) : Option Unit := some ()

private theorem tracks_acceptor : Tracks acceptor (fun _ _ => True) (fun _ _ _ => True) (fun _ _ _ => True) where
  scalar _ _ := ⟨(), rfl, trivial⟩
  startObject _ := ⟨(), rfl, trivial⟩
  startArray _ := ⟨(), rfl, trivial⟩
  key _ _ := ⟨(), rfl, trivial⟩
  endObject _ := ⟨(), rfl, trivial⟩
  endArray _ := ⟨(), rfl, trivial⟩
  element _ := trivial
  element_ended _ := trivial
  member_ended _ := trivial

/-! ### Pointers into a value -/

/-- The way from a container to one of its values. -/
inductive Place where
  | element (i : Nat)
  | member (key : String)

/-- A pointer into a value, as the way to what it points to from the root. -/
abbrev Pointer := List Place

/-- `*p` -/
def deref : Json → Pointer → Option Json
  | j, [] => some j
  | .array l, .element i :: p => do deref (← l[i]?) p
  | .object m, .member key :: p => do deref (← m.lookup key) p
  | _, _ => none

/-- `*p = v` -/
def assign (v : Json) : Json → Pointer → Json
  | _, [] => v
  | .array l, .element i :: p =>
      match l[i]? with
      | some j => .array (l.set i (assign v j p))
      | none => .array l
  | .object m, .member key :: p =>
      match m.lookup key with
      | some j => .object (insertKey key (assign v j p) m)
      | none => .object m
  | j, _ => j

section Pointer

variable {j j' v w : Json} {p q : Pointer}

private theorem deref_append : deref j (p ++ q) = (deref j p).bind (deref · q) := by
  induction p generalizing j with
  | nil => simp [deref]
  | cons place p ih =>
    cases place with
    | element i =>
      cases j with
      | array l => cases hl : l[i]? <;> simp [deref, hl, ih]
      | _ => rfl
    | member key =>
      cases j with
      | object m => cases hm : m.lookup key <;> simp [deref, hm, ih]
      | _ => rfl

/-- What is behind a pointer is assigned to through that pointer. -/
private theorem assign_append (h : deref j p = some j') : assign v j (p ++ q) = assign (assign v j' q) j p := by
  induction p generalizing j with
  | nil =>
    obtain rfl : j = j' := Option.some.inj h
    rfl
  | cons place p ih =>
    cases place with
    | element i =>
      cases j with
      | array l =>
        obtain ⟨j₁, hl, h⟩ : ∃ j₁, l[i]? = some j₁ ∧ deref j₁ p = some j' := by
          simpa [deref, Option.bind_eq_some_iff] using h
        simp only [List.cons_append, assign, hl]
        rw [ih h]
      | _ => cases h
    | member key =>
      cases j with
      | object m =>
        obtain ⟨j₁, hm, h⟩ : ∃ j₁, m.lookup key = some j₁ ∧ deref j₁ p = some j' := by
          simpa [deref, Option.bind_eq_some_iff] using h
        simp only [List.cons_append, assign, hm]
        rw [ih h]
      | _ => cases h

/-- The value of a frame, with the value that the parser is at put in. -/
def fill : Frame → Json → Json
  | .array l, v => .array (l ++ [v])
  | .object m key, v => .object (insertKey key v m)

def place : Frame → Place
  | .array l => .element l.length
  | .object _ key => .member key

/-- The whole value. -/
def plug : List Frame → Json → Json
  | [], v => v
  | f :: fs, v => plug fs (fill f v)

/-- The way from the root to the value that the parser is at. -/
def hole : List Frame → Pointer
  | [] => []
  | f :: fs => hole fs ++ [place f]

/-- The pointers to the containers that are open. -/
def pointers : List Frame → List Pointer
  | [] => []
  | _ :: fs => hole fs :: pointers fs

private theorem deref_fill (f : Frame) : deref (fill f v) [place f] = some v := by
  cases f with
  | array l => simp [fill, place, deref]
  | object m key => simp [fill, place, deref, lookup_insertKey]

private theorem assign_fill (f : Frame) : assign w (fill f v) [place f] = fill f w := by
  cases f with
  | array l => simp [fill, place, assign]
  | object m key => simp [fill, place, assign, lookup_insertKey, insertKey_insertKey]

private theorem deref_plug (fs : List Frame) : deref (plug fs v) (hole fs) = some v := by
  induction fs generalizing v with
  | nil => rfl
  | cons f fs ih =>
    rw [plug, hole, deref_append, ih, Option.bind_some, deref_fill]

private theorem assign_plug (fs : List Frame) : assign w (plug fs v) (hole fs) = plug fs w := by
  induction fs generalizing v w with
  | nil => rfl
  | cons f fs ih =>
    rw [plug, hole, assign_append (deref_plug fs), ih, assign_fill, plug]

end Pointer

/-! ### `json_sax_dom_parser` -/

/-- `root`, `ref_stack` and `object_element`. -/
structure Dom where
  root : Json
  refStack : List Pointer
  objectElement : Option Pointer

/-- The handler for a result that is not yet parsed. -/
def Dom.initial : Dom := ⟨.null, [], none⟩

/-- `handle_value`, with the pointer that it returns; `none` when an assertion fails. -/
def Dom.handleValue (d : Dom) (v : Json) : Option (Dom × Pointer) :=
  match d.refStack with
  | [] => some ({ d with root := v }, [])
  | p :: _ =>
    match deref d.root p with
    | some (.array l) =>
        some ({ d with root := assign (.array (l ++ [v])) d.root p }, p ++ [.element l.length])
    | some (.object _) => do
        let q ← d.objectElement
        return ({ d with root := assign v d.root q }, q)
    | _ => none

/-- The calls of `json_sax_dom_parser`; `none` when an assertion fails. -/
def Dom.handle (d : Dom) : Event → Option Dom
  | .null => (d.handleValue .null).map Prod.fst
  | .boolean b => (d.handleValue (.boolean b)).map Prod.fst
  | .numberInteger i => (d.handleValue (.number i)).map Prod.fst
  | .numberUnsigned n => (d.handleValue (.number n)).map Prod.fst
  | .numberFloat q => (d.handleValue (.numberFloat q)).map Prod.fst
  | .string s => (d.handleValue (.string s)).map Prod.fst
  | .startObject => do
      let (d, p) ← d.handleValue (.object [])
      return { d with refStack := p :: d.refStack }
  | .startArray => do
      let (d, p) ← d.handleValue (.array [])
      return { d with refStack := p :: d.refStack }
  | .key key =>
      match d.refStack with
      | [] => none
      | p :: _ =>
        match deref d.root p with
        | some (.object m) => some { d with
            root := assign (.object (emplaceKey key .null m)) d.root p
            objectElement := some (p ++ [.member key]) }
        | _ => none
  | .endObject =>
      match d.refStack with
      | [] => none
      | p :: refStack =>
        match deref d.root p with
        | some (.object _) => some { d with refStack }
        | _ => none
  | .endArray =>
      match d.refStack with
      | [] => none
      | p :: refStack =>
        match deref d.root p with
        | some (.array _) => some { d with refStack }
        | _ => none

/-- A container is open: it is the value at the place of the parser, and the last pointer on the stack. -/
def Dom.Within (fs : List Frame) (container : Json) (d : Dom) : Prop :=
  d.root = plug fs container ∧ d.refStack = hole fs :: pointers fs

/-- A value has ended. -/
def Dom.Behind (fs : List Frame) (v : Json) (d : Dom) : Prop :=
  d.root = plug fs v ∧ d.refStack = pointers fs

/-- A value is expected: the next element of an array, or the member of an object that the key has made. -/
def Dom.Before : List Frame → Dom → Prop
  | [], d => d.refStack = []
  | .array l :: fs, d => d.Within fs (.array l)
  | .object m key :: fs, d =>
      d.Within fs (.object (emplaceKey key .null m)) ∧ d.objectElement = some (hole fs ++ [.member key])

section Dom

variable {d : Dom} {fs : List Frame} {v : Json}

/-- The value comes to its place, and the pointer that is returned is the way to it. -/
private theorem Dom.Before.handleValue (hd : Dom.Before fs d) (v : Json) :
    ∃ d', d.handleValue v = some (d', hole fs) ∧ Dom.Behind fs v d' := by
  match fs, hd with
  | [], hd =>
    have hstack : d.refStack = [] := hd
    exact ⟨{ d with root := v }, by rw [Dom.handleValue, hstack]; rfl, rfl, hstack⟩
  | .array l :: fs, hd =>
    obtain ⟨hroot, hstack⟩ : Dom.Within fs (.array l) d := hd
    have hderef : deref d.root (hole fs) = some (.array l) := by rw [hroot, deref_plug]
    have hassign : assign (.array (l ++ [v])) d.root (hole fs) = plug fs (.array (l ++ [v])) := by
      rw [hroot, assign_plug]
    refine ⟨{ d with root := assign (.array (l ++ [v])) d.root (hole fs) }, ?_, hassign, hstack⟩
    simp only [Dom.handleValue, hstack, hderef]
    rfl
  | .object m key :: fs, hd =>
    obtain ⟨⟨hroot, hstack⟩, helement⟩ := hd
    have hderef : deref d.root (hole fs) = some (.object (emplaceKey key .null m)) := by rw [hroot, deref_plug]
    have hmember : assign v (.object (emplaceKey key .null m)) [.member key] = .object (insertKey key v m) := by
      obtain ⟨w, hw⟩ : ∃ w, (emplaceKey key .null m).lookup key = some w := by
        rw [lookup_emplaceKey, if_pos rfl]
        cases m.lookup key with
        | none => exact ⟨.null, rfl⟩
        | some w => exact ⟨w, rfl⟩
      simp only [assign, hw, insertKey_emplaceKey]
    have hassign : assign v d.root (hole fs ++ [.member key]) = plug fs (.object (insertKey key v m)) := by
      rw [assign_append hderef, hmember, hroot, assign_plug]
    refine ⟨{ d with root := assign v d.root (hole fs ++ [.member key]) }, ?_, hassign, hstack⟩
    simp only [Dom.handleValue, hstack, hderef, helement]
    rfl

private theorem Dom.Behind.push (hd : Dom.Behind fs v d) :
    Dom.Within fs v { d with refStack := hole fs :: d.refStack } :=
  ⟨hd.1, by rw [hd.2]⟩

private theorem Dom.Within.deref (hd : Dom.Within fs v d) : Sax.deref d.root (hole fs) = some v := by
  rw [hd.1, deref_plug]

private theorem Dom.tracks : Tracks Dom.handle Dom.Before Dom.Within Dom.Behind where
  scalar := by
    intro fs d e v he hd
    obtain ⟨d', hhandle, hd'⟩ := hd.handleValue v
    have heq : Dom.handle d e = (d.handleValue v).map Prod.fst := by
      cases e <;> cases he <;> rfl
    exact ⟨d', by rw [heq, hhandle]; rfl, hd'⟩
  startObject := by
    intro fs d hd
    obtain ⟨d', hhandle, hd'⟩ := hd.handleValue (.object [])
    exact ⟨_, by rw [Dom.handle, hhandle]; rfl, hd'.push⟩
  startArray := by
    intro fs d hd
    obtain ⟨d', hhandle, hd'⟩ := hd.handleValue (.array [])
    exact ⟨_, by rw [Dom.handle, hhandle]; rfl, hd'.push⟩
  key := by
    intro fs d m key hd
    have hassign : assign (.object (emplaceKey key .null m)) d.root (hole fs) =
        plug fs (.object (emplaceKey key .null m)) := by
      rw [hd.1, assign_plug]
    refine ⟨{ d with
      root := assign (.object (emplaceKey key .null m)) d.root (hole fs)
      objectElement := some (hole fs ++ [.member key]) }, ?_, ⟨hassign, hd.2⟩, rfl⟩
    simp only [Dom.handle, hd.2, hd.deref]
  endObject := by
    intro fs d m hd
    refine ⟨{ d with refStack := pointers fs }, ?_, hd.1, rfl⟩
    simp only [Dom.handle, hd.2, hd.deref]
  endArray := by
    intro fs d l hd
    refine ⟨{ d with refStack := pointers fs }, ?_, hd.1, rfl⟩
    simp only [Dom.handle, hd.2, hd.deref]
  element := fun hd => hd
  element_ended := fun hd => hd
  member_ended := fun hd => hd

end Dom

end Sax

namespace Json

open Sax

/-- `parse`, as the library does it: the value is built in place. -/
def parseInPlace (strtod : List Char → Option Rat) (text : String) : Option Json :=
  (saxParse Dom.handle strtod .initial text).map Dom.root

/-- `nlohmann::json::accept` -/
def accept (strtod : List Char → Option Rat) (text : String) : Bool := (saxParse acceptor strtod () text).isSome

/-- `parse` with the text of the exception that it throws. -/
def parseOrThrow (strtod : List Char → Option Rat) (what : String → String) (text : String) : Except String Json :=
  match parse strtod text with
  | some j => .ok j
  | none => .error (what text)

/-- Building in place, through pointers to the containers that are open, gives the value; no assertion fails.  And
`accept` says whether `parse` throws. -/
theorem parse_in_place (strtod : List Char → Option Rat) (what : String → String) (text : String) :
    parseInPlace strtod text = parse strtod text ∧
      accept strtod text = LeetBot.accept (parseOrThrow strtod what) text := by
  constructor
  · have hbefore : Dom.Before [] Dom.initial := rfl
    have hparse : Option.Rel (fun d j => Dom.Behind [] j d) (saxParse Dom.handle strtod .initial text)
        (parse strtod text) := Dom.tracks.saxParse hbefore text
    unfold parseInPlace
    generalize saxParse Dom.handle strtod .initial text = result at hparse
    generalize parse strtod text = value at hparse
    cases hparse with
    | none => rfl
    | some hj => exact congrArg some hj.1
  · have hparse : Option.Rel (fun _ _ => True) (saxParse acceptor strtod () text) (parse strtod text) :=
      tracks_acceptor.saxParse trivial text
    unfold accept LeetBot.accept parseOrThrow
    generalize saxParse acceptor strtod () text = result at hparse
    generalize parse strtod text = value at hparse
    cases hparse with
    | none => rfl
    | some hj => rfl

end Json

end LeetBot
