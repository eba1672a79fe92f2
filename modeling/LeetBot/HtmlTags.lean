import LeetBot.HtmlRendering

/-!
# What becomes of tags

The last pass of `htmlToMarkdown` leaves no tag behind, whatever it is given, and a second call has nothing to do.

Which delimiters take the place of the tags of an element is decided at each tag alone: a start tag of `code` or `pre`
has one only without attributes, an end tag always has one.
-/

namespace LeetBot

open Rewriting

/-! ### No tag is left -/

/-- No `<` has a `>` behind it, at any distance. -/
def NoTag (text : String) : Prop :=
  ∀ i j : Nat, i < j → text.toList[i]? = some '<' → text.toList[j]? ≠ some '>'

private theorem noTag_of_not_sublist {text : String} (h : ¬ ['<', '>'].Sublist text.toList) : NoTag text := by
  intro i j hij hi hj
  apply h
  rw [← List.take_append_drop j text.toList]
  have hlt : '<' ∈ text.toList.take j := List.mem_of_getElem? (by rw [List.getElem?_take_of_lt hij]; exact hi)
  have hgt : '>' ∈ text.toList.drop j := List.mem_of_getElem? (i := 0) (by rw [List.getElem?_drop]; exact hj)
  exact (List.singleton_sublist.2 hlt).append (List.singleton_sublist.2 hgt)

private theorem not_sublist_htmlToMarkdown (html : String) : ¬ ['<', '>'].Sublist (htmlToMarkdown html).toList := by
  rw [htmlToMarkdown, regexReplace_toList]
  exact not_sublist_rewriteAll_delimited _ _ _

private theorem htmlToMarkdown_of_not_sublist {html : String} (h : ¬ ['<', '>'].Sublist html.toList) :
    htmlToMarkdown html = html := by
  have hliteral : ∀ pat out : String, ['<', '>'].Sublist pat.toList →
      regexReplace (literal pat.toList out.toList) html = html := by
    intro pat out hpat
    rw [← String.toList_inj, regexReplace_toList]
    exact rewriteAll_of_misses (literal_misses fun hinside => h (hpat.trans hinside.sublist))
  have hdelimited : regexReplace (delimited '<' '>') html = html := by
    rw [← String.toList_inj, regexReplace_toList]
    exact rewriteAll_of_misses (delimited_misses h)
  rw [htmlToMarkdown, hliteral "<code>" "`" (by decide), hliteral "</code>" "`" (by decide),
    hliteral "<pre>" "```" (by decide), hliteral "</pre>" "```" (by decide), hdelimited]

/-- Whatever `htmlToMarkdown` is given, no tag is left, and rendering once more changes nothing. -/
theorem htmlToMarkdown_noTag (html : String) :
    NoTag (htmlToMarkdown html) ∧ htmlToMarkdown (htmlToMarkdown html) = htmlToMarkdown html :=
  ⟨noTag_of_not_sublist (not_sublist_htmlToMarkdown html),
    htmlToMarkdown_of_not_sublist (not_sublist_htmlToMarkdown html)⟩

/-! ### Elements with attributes -/

/-- Characters that can be taken neither for a part of a tag nor for a delimiter. -/
structure Source where
  chars : List Char
  plain : ∀ c ∈ chars, c ≠ '<' ∧ c ≠ '>' ∧ c ≠ '`'

/-- The name of an element and its attributes. -/
inductive MarkupTag where
  | code (attributes : Source)
  | pre (attributes : Source)
  | other (t : OtherTag)

/-- A sequence of nodes: texts, and elements with their children. -/
inductive Markup where
  | nil
  | text (s : Source) (rest : Markup)
  | element (t : MarkupTag) (children rest : Markup)

/-- Attributes behind the name of an element. -/
def Source.afterName (s : Source) : List Char := if s.chars = [] then [] else ' ' :: s.chars

namespace MarkupTag

def startBody : MarkupTag → List Char
  | code attributes => codeName ++ attributes.afterName
  | pre attributes => preName ++ attributes.afterName
  | other t => (Tag.other t).startBody

/-- The element without its attributes. -/
def tag : MarkupTag → Tag
  | code _ => .code
  | pre _ => .pre
  | other t => .other t

def startTag (t : MarkupTag) : List Char := '<' :: t.startBody ++ ['>']

def endTag (t : MarkupTag) : List Char := t.tag.endTag

/-- What delimits the contents of the element. -/
def delimiter (t : MarkupTag) : List Char := t.tag.mark

/-- The element does not have a delimiter, or it has no attributes. -/
def Bare : MarkupTag → Prop
  | code attributes => attributes.chars = []
  | pre attributes => attributes.chars = []
  | other _ => True

end MarkupTag

namespace Markup

def source : Markup → List Char
  | nil => []
  | text s rest => s.chars ++ rest.source
  | element t children rest => t.startTag ++ (children.source ++ (t.endTag ++ rest.source))

def tags : Markup → List MarkupTag
  | nil => []
  | text _ rest => rest.tags
  | element t children rest => t :: (children.tags ++ rest.tags)

/-- An element with its children, and what stands before and behind it in the source. -/
inductive HasElement : Markup → List Char → MarkupTag → Markup → List Char → Prop
  | here {t : MarkupTag} {children rest : Markup} : HasElement (element t children rest) [] t children rest.source
  | text {s : Source} {rest children : Markup} {before after : List Char} {t : MarkupTag}
      (h : HasElement rest before t children after) :
      HasElement (text s rest) (s.chars ++ before) t children after
  | inside {t₀ t : MarkupTag} {children₀ rest children : Markup} {before after : List Char}
      (h : HasElement children₀ before t children after) :
      HasElement (element t₀ children₀ rest) (t₀.startTag ++ before) t children
        (after ++ (t₀.endTag ++ rest.source))
  | behind {t₀ t : MarkupTag} {children₀ rest children : Markup} {before after : List Char}
      (h : HasElement rest before t children after) :
      HasElement (element t₀ children₀ rest) (t₀.startTag ++ (children₀.source ++ (t₀.endTag ++ before))) t children
        after

end Markup

/-- Between `before` and `after`, `htmlToMarkdown` puts `out` in the place of `xs`. -/
def Emits (before xs after out : List Char) : Prop :=
  markdownOf (before ++ (xs ++ after)) = markdownOf before ++ (out ++ markdownOf after)

/-- The delimiter of the element is emitted at both of its tags or at neither. -/
def MarkupTag.Paired (t : MarkupTag) (before children after : List Char) : Prop :=
  (Emits before t.startTag (children ++ (t.endTag ++ after)) t.delimiter ∧
      Emits (before ++ (t.startTag ++ children)) t.endTag after t.delimiter) ∨
    Emits before t.startTag (children ++ (t.endTag ++ after)) [] ∧
      Emits (before ++ (t.startTag ++ children)) t.endTag after []

section Elements

variable {t : MarkupTag} {d children : Markup} {before after xs out : List Char}

private theorem Markup.mem_tags_iff : t ∈ d.tags ↔ ∃ before children after, d.HasElement before t children after := by
  constructor
  · intro ht
    induction d with
    | nil => cases ht
    | text s rest ih =>
      obtain ⟨before, children, after, h⟩ := ih ht
      exact ⟨_, _, _, .text h⟩
    | element t₀ children₀ rest ihc ihr =>
      rcases List.mem_cons.1 ht with rfl | ht
      · exact ⟨_, _, _, .here⟩
      rcases List.mem_append.1 ht with ht | ht
      · obtain ⟨before, children, after, h⟩ := ihc ht
        exact ⟨_, _, _, .inside h⟩
      · obtain ⟨before, children, after, h⟩ := ihr ht
        exact ⟨_, _, _, .behind h⟩
  · rintro ⟨before, children, after, h⟩
    induction h with
    | here => exact List.mem_cons_self
    | text _ ih => exact ih
    | inside _ ih => exact List.mem_cons_of_mem _ (List.mem_append_left _ ih)
    | behind _ ih => exact List.mem_cons_of_mem _ (List.mem_append_right _ ih)

private theorem Source.lt_notMem (s : Source) : '<' ∉ s.chars := fun h => (s.plain _ h).1 rfl

private theorem MarkupTag.startBody_chars (t : MarkupTag) : ∀ c ∈ t.startBody, c ≠ '<' ∧ c ≠ '>' := by
  have hnamed : ∀ (name : List Char) (s : Source), (∀ c ∈ name, c ≠ '<' ∧ c ≠ '>') →
      ∀ c ∈ name ++ s.afterName, c ≠ '<' ∧ c ≠ '>' := by
    intro name s hname c hc
    rcases List.mem_append.1 hc with hc | hc
    · exact hname c hc
    · unfold Source.afterName at hc
      split at hc
      · cases hc
      · rcases List.mem_cons.1 hc with rfl | hc
        · decide
        · exact ⟨(s.plain c hc).1, (s.plain c hc).2.1⟩
  cases t with
  | code attributes => exact hnamed _ attributes (by simp [codeName])
  | pre attributes => exact hnamed _ attributes (by simp [preName])
  | other t => exact (Tag.other t).startBody_chars

private theorem MarkupTag.tagged_startTag (t : MarkupTag) : Tagged t.startTag :=
  TagOrPlain.tagged (.inl (enclosed_of_body t.startBody_chars))

private theorem MarkupTag.tagged_endTag (t : MarkupTag) :
    Tagged t.endTag := TagOrPlain.tagged (.inl t.tag.endTag_enclosed)

private theorem Source.tagged (s : Source) : Tagged s.chars := TagOrPlain.tagged (.inr s.lt_notMem)

private theorem Markup.tagged_source (d : Markup) : Tagged d.source := by
  induction d with
  | nil => exact .nil
  | text s rest ih => exact s.tagged.append ih
  | element t children rest ihc ihr =>
    exact t.tagged_startTag.append (ihc.append (t.tagged_endTag.append ihr))

private theorem Markup.HasElement.tagged_before (h : d.HasElement before t children after) : Tagged before := by
  induction h with
  | here => exact .nil
  | text _ ih => exact (Source.tagged _).append ih
  | inside _ ih => exact (MarkupTag.tagged_startTag _).append ih
  | behind _ ih =>
    exact (MarkupTag.tagged_startTag _).append ((Markup.tagged_source _).append
      ((MarkupTag.tagged_endTag _).append ih))

private theorem emits_iff (hbefore : Tagged before) (hxs : Tagged xs) :
    Emits before xs after out ↔ markdownOf xs = out := by
  rw [Emits, markdownOf_append hbefore, markdownOf_append hxs, List.append_cancel_left_eq,
    List.append_cancel_right_eq]

private theorem markdownOf_bare {name : List Char} {attributes : Source} {t : Tag} (hname : t.startBody = name)
    (h : attributes.chars = []) : markdownOf ('<' :: (name ++ attributes.afterName) ++ ['>']) = t.mark := by
  rw [Source.afterName, if_pos h, List.append_nil, ← hname]
  exact markdownOf_startTag t

private theorem markdownOf_attributes {t : MarkupTag} {name : List Char} {attributes : Source}
    (hbody : t.startBody = name ++ attributes.afterName) (h : attributes.chars ≠ []) :
    markdownOf t.startTag = [] := by
  have hspace : ' ' ∈ t.startBody := by
    rw [hbody, Source.afterName, if_neg h]
    exact List.mem_append_right _ List.mem_cons_self
  have hne : ∀ {xs : List Char}, ' ' ∉ xs → t.startBody ≠ xs := fun hxs heq => hxs (heq ▸ hspace)
  exact markdownOf_other t.startBody_chars (hne (by decide)) (hne (by decide)) (hne (by decide)) (hne (by decide))

private theorem MarkupTag.markdownOf_startTag_of_bare {t : MarkupTag} (h : t.Bare) :
    markdownOf t.startTag = t.delimiter := by
  cases t with
  | code attributes => exact markdownOf_bare (t := .code) rfl h
  | pre attributes => exact markdownOf_bare (t := .pre) rfl h
  | other t => exact markdownOf_startTag (.other t)

private theorem MarkupTag.markdownOf_startTag_of_not_bare {t : MarkupTag} (h : ¬ t.Bare) :
    markdownOf t.startTag = [] := by
  cases t with
  | code attributes => exact markdownOf_attributes rfl h
  | pre attributes => exact markdownOf_attributes rfl h
  | other t => exact absurd trivial h

private theorem MarkupTag.delimiter_ne_nil {t : MarkupTag} (h : ¬ t.Bare) : t.delimiter ≠ [] := by
  cases t with
  | code attributes => exact List.cons_ne_nil _ _
  | pre attributes => exact List.cons_ne_nil _ _
  | other t => exact absurd trivial h

private theorem Markup.HasElement.paired_iff (h : d.HasElement before t children after) :
    t.Paired before children.source after ↔ t.Bare := by
  have hopen : Tagged (before ++ (t.startTag ++ children.source)) :=
    h.tagged_before.append (t.tagged_startTag.append children.tagged_source)
  have hend : markdownOf t.endTag = t.delimiter := markdownOf_endTag t.tag
  rw [MarkupTag.Paired, emits_iff h.tagged_before t.tagged_startTag, emits_iff hopen t.tagged_endTag,
    emits_iff h.tagged_before t.tagged_startTag, emits_iff hopen t.tagged_endTag, hend]
  by_cases hbare : t.Bare
  · exact iff_of_true (.inl ⟨MarkupTag.markdownOf_startTag_of_bare hbare, rfl⟩) hbare
  · refine iff_of_false ?_ hbare
    rw [MarkupTag.markdownOf_startTag_of_not_bare hbare]
    rintro (⟨hnil, -⟩ | ⟨-, hnil⟩)
    · exact MarkupTag.delimiter_ne_nil hbare hnil.symm
    · exact MarkupTag.delimiter_ne_nil hbare hnil

end Elements

/-- In a document every element has both of its delimiters or neither exactly when no `code` and no `pre` element of
it has attributes. -/
theorem delimiters_paired_iff (d : Markup) :
    (∀ before t children after, d.HasElement before t children after → t.Paired before children.source after) ↔
      ∀ t ∈ d.tags, t.Bare := by
  constructor
  · intro hpaired t ht
    obtain ⟨before, children, after, h⟩ := Markup.mem_tags_iff.1 ht
    exact h.paired_iff.1 (hpaired before t children after h)
  · intro hbare before t children after h
    exact h.paired_iff.2 (hbare t (Markup.mem_tags_iff.2 ⟨before, children, after, h⟩))

/-- `class="x"` -/
def classAttribute : Source where
  chars := "class=\"x\"".toList
  plain := by simp

/-- `<pre class="x"></pre>` opens no code block and closes one. -/
theorem pre_class_not_paired :
    ¬ ∀ d : Markup, ∀ before t children after,
      d.HasElement before t children after → t.Paired before children.source after := by
  intro hpaired
  have h := hpaired (.element (.pre classAttribute) .nil .nil) _ _ _ _ .here
  revert h
  simp only [MarkupTag.Paired, Emits]
  decide +kernel

end LeetBot
