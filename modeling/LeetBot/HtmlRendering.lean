import LeetBot.TextReplace

/-!
# Rendering HTML documents

`htmlDecoder (htmlToMarkdown html)`, which is how the description of a question is shown, on the source of a
document: the texts come out as they were before escaping, code elements between backticks, preformatted elements
between fences, and nothing of the other tags.

The source of a document is a sequence of pieces, tags and escaped texts, and each of the five passes of
`htmlToMarkdown` and the scan of `htmlDecoder` rewrites it piece by piece: a tag is enclosed between `<` and `>`
and has neither in between, and an escaped text has neither at all.
-/

namespace LeetBot

open Rewriting

def codeName : List Char := ['c', 'o', 'd', 'e']

def preName : List Char := ['p', 'r', 'e']

/-- An element that is neither `code` nor `pre`.  Its name consists of letters and digits, or of any characters
that cannot be taken for its end or for the slash of an end tag. -/
structure OtherTag where
  name : List Char
  attributes : List Char
  name_ne_nil : name ≠ []
  name_ne_code : name ≠ codeName
  name_ne_pre : name ≠ preName
  name_chars : ∀ c ∈ name, c ≠ '<' ∧ c ≠ '>' ∧ c ≠ '/' ∧ c ≠ ' '
  attributes_chars : ∀ c ∈ attributes, c ≠ '<' ∧ c ≠ '>'

inductive Tag where
  | code
  | pre
  | other (t : OtherTag)

/-- A sequence of nodes: texts, and elements with their children. -/
inductive Document where
  | nil
  | text (s : String) (rest : Document)
  | element (tag : Tag) (children rest : Document)

/-- What stands between `<` and `>` in a start tag. -/
def Tag.startBody : Tag → List Char
  | code => codeName
  | pre => preName
  | other t => t.name ++ if t.attributes = [] then [] else ' ' :: t.attributes

/-- What stands between `</` and `>` in an end tag. -/
def Tag.name : Tag → List Char
  | code => codeName
  | pre => preName
  | other t => t.name

def Tag.startTag (t : Tag) : List Char := '<' :: t.startBody ++ ['>']

def Tag.endTag (t : Tag) : List Char := '<' :: ('/' :: t.name) ++ ['>']

/-- What the reader sees in place of the tags of an element. -/
def Tag.mark : Tag → List Char
  | code => ['`']
  | pre => ['`', '`', '`']
  | other _ => []

def escapeChar : Char → List Char
  | '&' => "&amp;".toList
  | '<' => "&lt;".toList
  | '>' => "&gt;".toList
  | '"' => "&quot;".toList
  | '\'' => "&#39;".toList
  | c => [c]

def escape (s : List Char) : List Char := s.flatMap escapeChar

/-- A document printed with the given forms of start tags, end tags and texts. -/
def Document.print (opening closing : Tag → List Char) (txt : List Char → List Char) : Document → List Char
  | nil => []
  | text s rest => txt s.toList ++ rest.print opening closing txt
  | element t children rest =>
      opening t ++ (children.print opening closing txt ++ (closing t ++ rest.print opening closing txt))

def Document.serialize (d : Document) : String := .ofList (d.print Tag.startTag Tag.endTag escape)

/-- The texts in document order, with the marks of the elements around their contents. -/
def Document.render (d : Document) : String := .ofList (d.print Tag.mark Tag.mark id)

private theorem Document.rewritesTo_print {rule : Rule Char} {o c o' c' : Tag → List Char}
    {txt txt' : List Char → List Char} (ho : ∀ t, RewritesTo rule (o t) (o' t))
    (hc : ∀ t, RewritesTo rule (c t) (c' t)) (ht : ∀ s, RewritesTo rule (txt s) (txt' s)) (d : Document) :
    RewritesTo rule (d.print o c txt) (d.print o' c' txt') := by
  induction d with
  | nil => exact .nil
  | text s rest ih => exact (ht _).append ih
  | element t children rest ihc ihr => exact (ho t).append (ihc.append ((hc t).append ihr))

/-! ### The passes of `htmlToMarkdown` -/

/-- What a pass meets: a tag, or something without `<`. -/
def TagOrPlain (xs : List Char) : Prop := Enclosed '<' '>' xs ∨ '<' ∉ xs

/-- A text made of such pieces. -/
inductive Tagged : List Char → Prop
  | nil : Tagged []
  | cons {xs ys : List Char} (hxs : TagOrPlain xs) (hys : Tagged ys) : Tagged (xs ++ ys)

theorem TagOrPlain.tagged {xs : List Char} (h : TagOrPlain xs) : Tagged xs := by
  simpa using Tagged.cons h .nil

theorem Tagged.append {xs ys : List Char} (hxs : Tagged xs) (hys : Tagged ys) : Tagged (xs ++ ys) := by
  induction hxs with
  | nil => exact hys
  | cons hpiece _ ih =>
    rw [List.append_assoc]
    exact .cons hpiece ih

/-- What the pass that puts `out` in the place of `pat` makes of a piece. -/
private def substitute (pat out xs : List Char) : List Char := if xs = pat then out else xs

theorem enclosed_of_body {body : List Char} (h : ∀ c ∈ body, c ≠ '<' ∧ c ≠ '>') :
    Enclosed '<' '>' ('<' :: body ++ ['>']) :=
  ⟨body, rfl, fun hc => (h _ hc).1 rfl, fun hc => (h _ hc).2 rfl⟩

private theorem Tag.name_chars (t : Tag) : ∀ c ∈ t.name, c ≠ '<' ∧ c ≠ '>' := by
  cases t with
  | code => simp [name, codeName]
  | pre => simp [name, preName]
  | other t => exact fun c hc => ⟨(t.name_chars c hc).1, (t.name_chars c hc).2.1⟩

theorem Tag.startBody_chars (t : Tag) : ∀ c ∈ t.startBody, c ≠ '<' ∧ c ≠ '>' := by
  cases t with
  | code => simp [startBody, codeName]
  | pre => simp [startBody, preName]
  | other t =>
    intro c hc
    simp only [startBody, List.mem_append] at hc
    rcases hc with hc | hc
    · exact Tag.name_chars (.other t) c hc
    · split at hc
      · cases hc
      · rcases List.mem_cons.1 hc with rfl | hc
        · decide
        · exact t.attributes_chars c hc

private theorem Tag.startTag_enclosed (t : Tag) : Enclosed '<' '>' t.startTag :=
  enclosed_of_body t.startBody_chars

theorem Tag.endTag_enclosed (t : Tag) : Enclosed '<' '>' t.endTag := by
  refine enclosed_of_body fun c hc => ?_
  rcases List.mem_cons.1 hc with rfl | hc
  · decide
  · exact t.name_chars c hc

private theorem lt_notMem_escapeChar (c : Char) : '<' ∉ escapeChar c := by
  unfold escapeChar
  split
  all_goals first | decide | skip
  rename_i h _ _ _
  rw [List.mem_singleton]
  exact fun heq => h heq.symm

private theorem lt_notMem_escape (s : List Char) : '<' ∉ escape s := by
  intro h
  obtain ⟨c, -, hc⟩ := List.mem_flatMap.1 h
  exact lt_notMem_escapeChar c hc

private theorem TagOrPlain.substitute {pat out xs : List Char} (hout : '<' ∉ out) (h : TagOrPlain xs) :
    TagOrPlain (substitute pat out xs) := by
  unfold LeetBot.substitute
  split
  · exact .inr hout
  · exact h

private theorem TagOrPlain.rewritesTo_literal {pat out xs : List Char} (hpat : Enclosed '<' '>' pat)
    (h : TagOrPlain xs) : RewritesTo (literal pat out) xs (LeetBot.substitute pat out xs) := by
  rcases h with h | h
  · exact .literal_of_enclosed (by decide) out hpat h
  · obtain ⟨body, rfl, -⟩ := hpat.eq
    have hne : xs ≠ '<' :: body ++ ['>'] := by
      rintro rfl
      exact h (by simp)
    rw [LeetBot.substitute, if_neg hne]
    exact .copy_of_notMem (literal_startsWith _ _ _) h

private theorem TagOrPlain.rewritesTo_delimited {xs : List Char} (h : TagOrPlain xs) :
    RewritesTo (delimited '<' '>') xs (if '<' ∈ xs then [] else xs) := by
  rcases h with ⟨body, rfl, -, hb⟩ | h
  · rw [if_pos (by simp)]
    exact .delimited hb
  · rw [if_neg h]
    exact .copy_of_notMem (delimited_startsWith _ _) h

private theorem Tagged.rewritesTo_literal {pat out xs : List Char} (hpat : Enclosed '<' '>' pat) (hout : '<' ∉ out)
    (h : Tagged xs) : ∃ ys, RewritesTo (literal pat out) xs ys ∧ Tagged ys := by
  induction h with
  | nil => exact ⟨[], .nil, .nil⟩
  | cons hpiece _ ih =>
    obtain ⟨ys, hys, htagged⟩ := ih
    exact ⟨_, (hpiece.rewritesTo_literal hpat).append hys, .cons (hpiece.substitute hout) htagged⟩

private theorem Tagged.rewritesTo_delimited {xs : List Char} (h : Tagged xs) :
    ∃ ys, RewritesTo (delimited '<' '>') xs ys := by
  induction h with
  | nil => exact ⟨[], .nil⟩
  | cons hpiece _ ih =>
    obtain ⟨ys, hys⟩ := ih
    exact ⟨_, hpiece.rewritesTo_delimited.append hys⟩

/-- The patterns of the first four passes and what takes their place. -/
private def passes : List (List Char × List Char) :=
  [('<' :: codeName ++ ['>'], ['`']), ('<' :: ('/' :: codeName) ++ ['>'], ['`']),
    ('<' :: preName ++ ['>'], ['`', '`', '`']), ('<' :: ('/' :: preName) ++ ['>'], ['`', '`', '`'])]

/-- The first four passes on one piece. -/
private def substituteAll (ps : List (List Char × List Char)) (xs : List Char) : List Char :=
  ps.foldl (fun xs p => substitute p.1 p.2 xs) xs

private theorem TagOrPlain.substituteAll {ps : List (List Char × List Char)} (hps : ∀ p ∈ ps, '<' ∉ p.2)
    {xs : List Char} (h : TagOrPlain xs) : TagOrPlain (substituteAll ps xs) := by
  induction ps generalizing xs with
  | nil => exact h
  | cons p ps ih =>
    exact ih (fun q hq => hps q (List.mem_cons_of_mem _ hq)) (h.substitute (hps p List.mem_cons_self))

private theorem foldl_literal_append {ps : List (List Char × List Char)}
    (hpat : ∀ p ∈ ps, Enclosed '<' '>' p.1) (hout : ∀ p ∈ ps, '<' ∉ p.2) {xs : List Char} (hxs : Tagged xs)
    (ys : List Char) :
    ps.foldl (fun xs p => rewriteAll (literal p.1 p.2) xs) (xs ++ ys) =
        ps.foldl (fun xs p => rewriteAll (literal p.1 p.2) xs) xs ++
          ps.foldl (fun xs p => rewriteAll (literal p.1 p.2) xs) ys ∧
      Tagged (ps.foldl (fun xs p => rewriteAll (literal p.1 p.2) xs) xs) := by
  induction ps generalizing xs ys with
  | nil => exact ⟨rfl, hxs⟩
  | cons p ps ih =>
    obtain ⟨zs, hzs, htagged⟩ :=
      hxs.rewritesTo_literal (hpat p List.mem_cons_self) (hout p List.mem_cons_self)
    simp only [List.foldl_cons]
    rw [hzs.rewriteAll_append]
    rw [← hzs.rewriteAll_eq] at htagged
    exact ih (fun q hq => hpat q (List.mem_cons_of_mem _ hq)) (fun q hq => hout q (List.mem_cons_of_mem _ hq)) htagged
      _

private theorem foldl_literal_piece {ps : List (List Char × List Char)}
    (hpat : ∀ p ∈ ps, Enclosed '<' '>' p.1) (hout : ∀ p ∈ ps, '<' ∉ p.2) {xs : List Char} (h : TagOrPlain xs) :
    ps.foldl (fun xs p => rewriteAll (literal p.1 p.2) xs) xs = substituteAll ps xs := by
  induction ps generalizing xs with
  | nil => rfl
  | cons p ps ih =>
    rw [List.foldl_cons, (h.rewritesTo_literal (hpat p List.mem_cons_self)).rewriteAll_eq]
    exact ih (fun q hq => hpat q (List.mem_cons_of_mem _ hq)) (fun q hq => hout q (List.mem_cons_of_mem _ hq))
      (h.substitute (hout p List.mem_cons_self))

private theorem passes_enclosed : ∀ p ∈ passes, Enclosed '<' '>' p.1 := by
  intro p hp
  simp only [passes, List.mem_cons, List.not_mem_nil, or_false] at hp
  rcases hp with rfl | rfl | rfl | rfl <;> exact enclosed_of_body (by simp [codeName, preName])

private theorem passes_plain : ∀ p ∈ passes, '<' ∉ p.2 := by decide

/-- `htmlToMarkdown` on the characters of a text. -/
def markdownOf (xs : List Char) : List Char := (htmlToMarkdown (.ofList xs)).toList

private theorem markdownOf_eq_foldl (xs : List Char) :
    markdownOf xs =
      rewriteAll (delimited '<' '>') (passes.foldl (fun xs p => rewriteAll (literal p.1 p.2) xs) xs) := by
  simp only [markdownOf, htmlToMarkdown, regexReplace_toList, passes, List.foldl_cons, List.foldl_nil,
    String.toList_ofList]
  rfl

/-- The parts of a tagged text are rendered on their own. -/
theorem markdownOf_append {xs : List Char} (hxs : Tagged xs) (ys : List Char) :
    markdownOf (xs ++ ys) = markdownOf xs ++ markdownOf ys := by
  obtain ⟨hfold, htagged⟩ := foldl_literal_append passes_enclosed passes_plain hxs ys
  obtain ⟨zs, hzs⟩ := htagged.rewritesTo_delimited
  simp only [markdownOf_eq_foldl]
  rw [hfold, hzs.rewriteAll_append]

private theorem markdownOf_piece {xs : List Char} (h : TagOrPlain xs) :
    markdownOf xs = if '<' ∈ substituteAll passes xs then [] else substituteAll passes xs := by
  rw [markdownOf_eq_foldl, foldl_literal_piece passes_enclosed passes_plain h,
    (h.substituteAll passes_plain).rewritesTo_delimited.rewriteAll_eq]

private theorem substituteAll_of_ne {xs : List Char} (h1 : xs ≠ '<' :: codeName ++ ['>'])
    (h2 : xs ≠ '<' :: ('/' :: codeName) ++ ['>']) (h3 : xs ≠ '<' :: preName ++ ['>'])
    (h4 : xs ≠ '<' :: ('/' :: preName) ++ ['>']) : substituteAll passes xs = xs := by
  simp only [substituteAll, passes, List.foldl_cons, List.foldl_nil, substitute, if_neg h1, if_neg h2, if_neg h3,
    if_neg h4]

private theorem body_inj {xs ys : List Char} (h : '<' :: xs ++ ['>'] = '<' :: ys ++ ['>']) : xs = ys := by
  simpa using h

/-- A tag that is none of the four that have a delimiter is deleted. -/
theorem markdownOf_other {body : List Char} (hbody : ∀ c ∈ body, c ≠ '<' ∧ c ≠ '>') (h1 : body ≠ codeName)
    (h2 : body ≠ '/' :: codeName) (h3 : body ≠ preName) (h4 : body ≠ '/' :: preName) :
    markdownOf ('<' :: body ++ ['>']) = [] := by
  have hsame : substituteAll passes ('<' :: body ++ ['>']) = '<' :: body ++ ['>'] :=
    substituteAll_of_ne (fun h => h1 (body_inj h)) (fun h => h2 (body_inj h)) (fun h => h3 (body_inj h))
      fun h => h4 (body_inj h)
  rw [markdownOf_piece (.inl (enclosed_of_body hbody)), hsame, if_pos (by simp)]

private theorem markdownOf_plain {xs : List Char} (h : '<' ∉ xs) : markdownOf xs = xs := by
  have hne : ∀ body : List Char, xs ≠ '<' :: body ++ ['>'] := by
    rintro body rfl
    exact h (by simp)
  have hsame : substituteAll passes xs = xs := substituteAll_of_ne (hne _) (hne _) (hne _) (hne _)
  rw [markdownOf_piece (.inr h), hsame, if_neg h]

private theorem OtherTag.startBody_ne_slash (t : OtherTag) (xs : List Char) :
    (Tag.other t).startBody ≠ '/' :: xs := by
  obtain ⟨name, attributes, hne, -, -, hchars, -⟩ := t
  cases name with
  | nil => exact absurd rfl hne
  | cons c cs =>
    intro h
    simp only [Tag.startBody, List.cons_append, List.cons.injEq] at h
    exact (hchars c List.mem_cons_self).2.2.1 h.1

private theorem OtherTag.startBody_ne (t : OtherTag) {xs : List Char} (hxs : ' ' ∉ xs) (hne : t.name ≠ xs) :
    (Tag.other t).startBody ≠ xs := by
  simp only [Tag.startBody]
  split
  · simpa using hne
  · rintro rfl
    exact hxs (by simp)

theorem markdownOf_startTag (t : Tag) : markdownOf t.startTag = t.mark := by
  cases t with
  | code =>
    rw [markdownOf_piece (.inl Tag.code.startTag_enclosed)]
    decide
  | pre =>
    rw [markdownOf_piece (.inl Tag.pre.startTag_enclosed)]
    decide
  | other t =>
    exact markdownOf_other (Tag.other t).startBody_chars (t.startBody_ne (by decide) t.name_ne_code)
      (t.startBody_ne_slash codeName) (t.startBody_ne (by decide) t.name_ne_pre) (t.startBody_ne_slash preName)

theorem markdownOf_endTag (t : Tag) : markdownOf t.endTag = t.mark := by
  cases t with
  | code =>
    rw [markdownOf_piece (.inl Tag.code.endTag_enclosed)]
    decide
  | pre =>
    rw [markdownOf_piece (.inl Tag.pre.endTag_enclosed)]
    decide
  | other t =>
    have hchars : ∀ c ∈ '/' :: t.name, c ≠ '<' ∧ c ≠ '>' := by
      intro c hc
      rcases List.mem_cons.1 hc with rfl | hc
      · decide
      · exact (Tag.other t).name_chars c hc
    have hslash : ∀ {xs : List Char}, '/' ∉ xs → '/' :: t.name ≠ xs := by
      rintro xs hxs rfl
      exact hxs List.mem_cons_self
    exact markdownOf_other hchars (hslash (by decide)) (fun h => t.name_ne_code (List.cons.inj h).2)
      (hslash (by decide)) fun h => t.name_ne_pre (List.cons.inj h).2

private theorem tagged_print (d : Document) : Tagged (d.print Tag.startTag Tag.endTag escape) := by
  induction d with
  | nil => exact .nil
  | text s rest ih => exact .cons (.inr (lt_notMem_escape _)) ih
  | element t children rest ihc ihr =>
    exact .cons (.inl t.startTag_enclosed) (ihc.append (.cons (.inl t.endTag_enclosed) ihr))

private theorem htmlToMarkdown_serialize (d : Document) :
    (htmlToMarkdown d.serialize).toList = d.print Tag.mark Tag.mark escape := by
  show markdownOf (d.print Tag.startTag Tag.endTag escape) = _
  induction d with
  | nil => exact markdownOf_plain List.not_mem_nil
  | text s rest ih =>
    have htext : Tagged (escape s.toList) := TagOrPlain.tagged (.inr (lt_notMem_escape _))
    rw [Document.print, markdownOf_append htext, markdownOf_plain (lt_notMem_escape _), ih]
    rfl
  | element t children rest ihc ihr =>
    have hopen : Tagged t.startTag := TagOrPlain.tagged (.inl t.startTag_enclosed)
    have hclose : Tagged t.endTag := TagOrPlain.tagged (.inl t.endTag_enclosed)
    rw [Document.print, markdownOf_append hopen, markdownOf_append (tagged_print children),
      markdownOf_append hclose, markdownOf_startTag, markdownOf_endTag, ihc, ihr]
    rfl

/-! ### The scan of `htmlDecoder` -/

private theorem entityRule_startsWith : Rule.StartsWith entityRule '&' := by
  intro c cs hc
  unfold entityRule
  split
  · rename_i h
    exact absurd (List.cons.inj h).1 hc
  · rfl

private theorem rewritesTo_escapeChar (c : Char) : RewritesTo entityRule (escapeChar c) [c] := by
  unfold escapeChar
  split
  all_goals first | exact .of_match (by decide) fun ys => by simp [entityRule, entities, List.lookup_cons] | skip
  rename_i h _ _ _ _
  exact .copy_of_notMem entityRule_startsWith (by simpa using fun heq => h heq.symm)

private theorem rewritesTo_escape (s : List Char) : RewritesTo entityRule (escape s) s := by
  induction s with
  | nil => exact .nil
  | cons c s ih => exact (rewritesTo_escapeChar c).append ih

private theorem rewritesTo_mark (t : Tag) : RewritesTo entityRule t.mark t.mark := by
  refine .copy_of_notMem entityRule_startsWith ?_
  cases t with
  | code => decide
  | pre => decide
  | other t => exact List.not_mem_nil

/-- The description of a question shows the texts of its HTML source unchanged, code and preformatted elements
between marks, and nothing of the other tags. -/
theorem htmlDecoder_htmlToMarkdown_serialize (d : Document) :
    htmlDecoder (htmlToMarkdown d.serialize) = d.render := by
  have hscan := Document.rewritesTo_print rewritesTo_mark rewritesTo_mark rewritesTo_escape d
  rw [htmlDecoder, htmlToMarkdown_serialize, hscan.rewriteAll_eq]
  rfl

end LeetBot
