import LeetBot.TextReplace
import Mathlib.Data.List.Find

/-!
# Decoding entities

The loop of `htmlDecoder` with its index, against a decoder that looks at the beginning of what is left of the text.

The loop looks for the next `;` at any distance.  A code has its `;` at its end and no other, so the text up to the
next `;` is a code exactly when the code is a prefix of the text: the two decoders take the same steps.
-/

namespace LeetBot

open Rewriting

/-- `text.find(c, pos)` -/
def findFrom (text : List Char) (c : Char) (pos : Nat) : Option Nat :=
  ((text.drop pos).idxOf? c).map (pos + ·)

/-- One round of the loop: the character that is appended to `out`, and the index of the next round. -/
def decodeAt (text : List Char) (i : Nat) (hi : i < text.length) : Char × Nat :=
  if text[i] = '&' then
    match findFrom text ';' i with
    | some sec =>
      match entities.lookup ((text.drop i).take (sec - i + 1)) with
      | some c => (c, sec + 1)
      | none => (text[i], i + 1)
    | none => (text[i], i + 1)
  else
    (text[i], i + 1)

private theorem le_of_findFrom {text : List Char} {c : Char} {pos sec : Nat} (h : findFrom text c pos = some sec) :
    pos ≤ sec := by
  obtain ⟨k, -, rfl⟩ := Option.map_eq_some_iff.1 h
  omega

private theorem lt_decodeAt (text : List Char) (i : Nat) (hi : i < text.length) : i < (decodeAt text i hi).2 := by
  unfold decodeAt
  split
  · split
    · rename_i sec hsec
      have hle := le_of_findFrom hsec
      split
      · exact Nat.lt_succ_of_le hle
      · exact Nat.lt_succ_self i
    · exact Nat.lt_succ_self i
  · exact Nat.lt_succ_self i

/-- The loop from the index `i` on. -/
def decodeFrom (text : List Char) (i : Nat) (out : List Char) : List Char :=
  if hi : i < text.length then
    decodeFrom text (decodeAt text i hi).2 (out ++ [(decodeAt text i hi).1])
  else
    out
termination_by text.length - i
decreasing_by
  have := lt_decodeAt text i hi
  omega

/-- The six entities, and the character that each stands for. -/
def entityCharacters : List (List Char × Char) :=
  [(['&', 'l', 't', ';'], '<'), (['&', 'g', 't', ';'], '>'), (['&', 'a', 'm', 'p', ';'], '&'),
    (['&', 'q', 'u', 'o', 't', ';'], '"'), (['&', '#', '3', '9', ';'], '\''), (['&', 'n', 'b', 's', 'p', ';'], ' ')]

/-- The entity that the text begins with. -/
def entityAt (xs : List Char) : Option (List Char × Char) := entityCharacters.find? fun e => e.1.isPrefixOf xs

/-- From left to right: the character of the entity that the text begins with, and on behind the entity, or the first
character, and on behind it. -/
def decodeEntities : List Char → List Char
  | [] => []
  | x :: xs =>
    match entityAt (x :: xs) with
    | some (code, c) => c :: decodeEntities (xs.drop (code.length - 1))
    | none => x :: decodeEntities xs
termination_by xs => xs.length
decreasing_by
  · rw [List.length_drop, List.length_cons]
    omega
  · exact Nat.lt_succ_self _

/-! ### The first semicolon -/

section Codes

variable {x : Char} {xs rest body ys : List Char}

private theorem entities_eq : entities = entityCharacters := by decide

private theorem entityCharacters_shape {e : List Char × Char} (he : e ∈ entityCharacters) :
    ∃ code, e.1 = '&' :: (code ++ [';']) ∧ ';' ∉ code := by
  have hshape : ∀ e ∈ entityCharacters, e.1 = '&' :: (e.1.tail.dropLast ++ [';']) ∧ ';' ∉ e.1.tail.dropLast := by
    decide
  exact ⟨_, hshape e he⟩

private theorem entityAt_eq_none_of_ne (h : x ≠ '&') : entityAt (x :: xs) = none := by
  rw [entityAt, List.find?_eq_none]
  intro e he hpre
  obtain ⟨code, hcode, -⟩ := entityCharacters_shape he
  rw [List.isPrefixOf_iff_prefix, hcode] at hpre
  exact h (List.cons_prefix_cons.1 hpre).1.symm

private theorem entityAt_eq_none_of_notMem (h : ';' ∉ xs) : entityAt (x :: xs) = none := by
  rw [entityAt, List.find?_eq_none]
  intro e he hpre
  obtain ⟨code, hcode, -⟩ := entityCharacters_shape he
  rw [List.isPrefixOf_iff_prefix, hcode] at hpre
  exact h ((List.cons_prefix_cons.1 hpre).2.subset (by simp))

private theorem entityAt_semicolon (h : ';' ∉ body) :
    entityAt ('&' :: (body ++ ';' :: ys)) = entityCharacters.find? fun e => '&' :: (body ++ [';']) == e.1 := by
  refine List.find?_congr fun e he => ?_
  obtain ⟨code, hcode, hmem⟩ := entityCharacters_shape he
  rw [Bool.eq_iff_iff, List.isPrefixOf_iff_prefix, beq_iff_eq, hcode]
  constructor
  · rintro hpre
    obtain ⟨-, zs, hzs⟩ := List.cons_prefix_cons.1 hpre
    rw [List.append_assoc] at hzs
    rw [append_cons_inj hmem h hzs]
  · intro heq
    rw [← heq]
    exact ⟨ys, by simp⟩

private theorem lookup_entities (code : List Char) :
    entities.lookup code = (entityCharacters.find? fun e => code == e.1).map Prod.snd := by
  rw [entities_eq, List.lookup_eq_findSome?]
  induction entityCharacters with
  | nil => rfl
  | cons e es ih =>
    rw [List.findSome?_cons, List.find?_cons, ih]
    cases code == e.1 <;> rfl

/-- The rule of the scan fires where an entity begins, and takes the entity. -/
private theorem entityRule_eq (xs : List Char) : entityRule xs = (entityAt xs).map fun e => (e.1.length, [e.2]) := by
  cases xs with
  | nil => decide
  | cons x xs =>
    by_cases hx : x = '&'
    · subst hx
      by_cases hmem : ';' ∈ xs
      · obtain ⟨body, ys, rfl, hbody⟩ := List.eq_append_cons_of_mem hmem
        rw [entityAt_semicolon hbody]
        simp only [entityRule, if_pos hmem, takeWhile_ne_append ys hbody, lookup_entities, Option.map_map]
        cases hfind : entityCharacters.find? fun e => '&' :: (body ++ [';']) == e.1 with
        | none => rw [List.cons_append, hfind]; rfl
        | some e =>
          have hcode := List.find?_some hfind
          rw [beq_iff_eq] at hcode
          rw [List.cons_append, hfind, Option.map_some, Option.map_some, ← hcode]
          rfl
      · rw [entityAt_eq_none_of_notMem hmem]
        simp [entityRule, hmem]
    · rw [entityAt_eq_none_of_ne hx]
      unfold entityRule
      split
      · rename_i h
        exact absurd (List.cons.inj h).1 hx
      · rfl

/-- A round takes the entity that the rest of the text begins with, or one character. -/
private theorem decodeAt_eq (text : List Char) (i : Nat) (hi : i < text.length) :
    decodeAt text i hi =
      match entityAt (text.drop i) with
      | some (code, c) => (c, i + code.length)
      | none => (text[i], i + 1) := by
  have hdrop := List.drop_eq_getElem_cons hi
  unfold decodeAt
  by_cases hx : text[i] = '&'
  · rw [if_pos hx]
    by_cases hmem : ';' ∈ text.drop (i + 1)
    · obtain ⟨body, ys, hys, hbody⟩ := List.eq_append_cons_of_mem hmem
      rw [hx, hys] at hdrop
      have hsec : findFrom text ';' i = some (i + (body.length + 1)) := by
        have hfirst : ';' ∉ '&' :: body := by simpa using hbody
        rw [findFrom, hdrop, ← List.cons_append, idxOf?_append_cons hfirst]
        rfl
      have hcode : (text.drop i).take (i + (body.length + 1) - i + 1) = '&' :: (body ++ [';']) := by
        have hsplit : text.drop i = '&' :: (body ++ [';']) ++ ys := by
          rw [hdrop]
          simp
        rw [hsplit]
        exact List.take_left' (by simp)
      rw [hsec]
      simp only [hcode, lookup_entities]
      rw [hdrop, entityAt_semicolon hbody]
      cases hfind : entityCharacters.find? fun e => '&' :: (body ++ [';']) == e.1 with
      | none => rfl
      | some e =>
        have heq := List.find?_some hfind
        rw [beq_iff_eq] at heq
        have hlen : e.1.length = body.length + 2 := by rw [← heq]; simp
        simp only [Option.map_some, hlen]
        rfl
    · have hsec : findFrom text ';' i = none := by
        rw [findFrom, hdrop, hx, List.idxOf?_eq_none_iff.2 (by simpa using hmem)]
        rfl
      rw [hsec, hdrop, entityAt_eq_none_of_notMem hmem]
  · rw [if_neg hx, hdrop, entityAt_eq_none_of_ne hx]

end Codes

/-! ### The loop -/

private theorem decodeEntities_eq_rewriteAll (xs : List Char) : decodeEntities xs = rewriteAll entityRule xs := by
  refine rewriteAll_induction (motive := fun xs out => decodeEntities xs = out) ?_ ?_ ?_ xs
  · rw [decodeEntities]
  · intro x xs hrule ih
    rw [entityRule_eq, Option.map_eq_none_iff] at hrule
    rw [decodeEntities, hrule]
    exact congrArg _ ih
  · intro x xs n out hrule ih
    rw [entityRule_eq, Option.map_eq_some_iff] at hrule
    obtain ⟨⟨code, c⟩, hentity, hm⟩ := hrule
    cases hm
    rw [decodeEntities, hentity]
    exact congrArg _ ih

private theorem decodeFrom_eq (text : List Char) (i : Nat) (out : List Char) :
    decodeFrom text i out = out ++ decodeEntities (text.drop i) := by
  induction i, out using decodeFrom.induct text with
  | case1 i out hi ih =>
    rw [decodeFrom, dif_pos hi, ih, decodeAt_eq]
    rw [List.drop_eq_getElem_cons hi, decodeEntities]
    cases hentity : entityAt (text[i] :: text.drop (i + 1)) with
    | none => simp
    | some e =>
      obtain ⟨code, hcode, -⟩ := entityCharacters_shape (List.mem_of_find?_eq_some hentity)
      have hindex : i + 1 + (e.1.length - 1) = i + e.1.length := by
        rw [hcode, List.length_cons]
        omega
      simp only [List.drop_drop, hindex, List.append_assoc, List.singleton_append]
  | case2 i out hi =>
    rw [decodeFrom, dif_neg hi, List.drop_of_length_le (Nat.not_lt.1 hi), decodeEntities, List.append_nil]

/-- `htmlDecoder` with its index. -/
def htmlDecoderLoop (text : String) : String := .ofList (decodeFrom text.toList 0 [])

private theorem htmlDecoderLoop_eq (text : String) : htmlDecoderLoop text = htmlDecoder text := by
  rw [htmlDecoderLoop, htmlDecoder, decodeFrom_eq, List.drop_zero, List.nil_append, decodeEntities_eq_rewriteAll]

/-- A text in pieces: entities with their characters, and single characters. -/
def Pieces (ps : List (List Char × Char)) : Prop := ∀ p ∈ ps, p ∈ entityCharacters ∨ p.1 = [p.2]

/-- The reference decodes each piece of the text on its own, in order. -/
private theorem exists_pieces (xs : List Char) :
    ∃ ps, Pieces ps ∧ xs = ps.flatMap Prod.fst ∧ decodeEntities xs = ps.map Prod.snd := by
  induction xs using decodeEntities.induct with
  | case1 => exact ⟨[], by simp [Pieces], rfl, by rw [decodeEntities]; rfl⟩
  | case2 x xs code c hentity ih =>
    obtain ⟨ps, hps, hxs, hout⟩ := ih
    refine ⟨(code, c) :: ps, ?_, ?_, ?_⟩
    · exact List.forall_mem_cons.2 ⟨.inl (List.mem_of_find?_eq_some hentity), hps⟩
    · have hpre := List.find?_some hentity
      rw [List.isPrefixOf_iff_prefix] at hpre
      obtain ⟨body, hcode, -⟩ := entityCharacters_shape (List.mem_of_find?_eq_some hentity)
      rw [List.flatMap_cons, ← hxs]
      dsimp only at hcode ⊢
      rw [hcode] at hpre ⊢
      exact (List.prefix_iff_eq_append.1 hpre).symm
    · rw [decodeEntities, hentity]
      exact congrArg _ hout
  | case3 x xs hentity ih =>
    obtain ⟨ps, hps, hxs, hout⟩ := ih
    refine ⟨([x], x) :: ps, ?_, ?_, ?_⟩
    · exact List.forall_mem_cons.2 ⟨.inr rfl, hps⟩
    · exact congrArg _ hxs
    · rw [decodeEntities, hentity]
      exact congrArg _ hout

/-- `htmlDecoder` takes the steps of the reference, and its index always advances. -/
theorem htmlDecoder_refines (text : String) :
    (∀ i, ∀ hi : i < text.toList.length, i < (decodeAt text.toList i hi).2) ∧
      htmlDecoderLoop text = htmlDecoder text ∧ htmlDecoder text = .ofList (decodeEntities text.toList) ∧
      ∃ ps, Pieces ps ∧ text.toList = ps.flatMap Prod.fst ∧ (htmlDecoder text).toList = ps.map Prod.snd := by
  have hdecoder : htmlDecoder text = .ofList (decodeEntities text.toList) := by
    rw [htmlDecoder, decodeEntities_eq_rewriteAll]
  refine ⟨lt_decodeAt text.toList, htmlDecoderLoop_eq text, hdecoder, ?_⟩
  rw [hdecoder, String.toList_ofList]
  exact exists_pieces text.toList

/-- What is decoded is not decoded again, and a code that is not one of the six stays. -/
example : htmlDecoder "&lt;&gt;&amp;lt;&quot;&#39;&nbsp;&copy;" = "<>&lt;\"' &copy;" := by
  rw [htmlDecoder, ← decodeEntities_eq_rewriteAll]
  simp [decodeEntities, entityAt, entityCharacters]

end LeetBot
