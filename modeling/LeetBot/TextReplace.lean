import LeetBot.Rewriting

/-!
# Text replacement

`htmlToMarkdown`, `removeNewLines` and `htmlDecoder`, each given by the rules of its passes over the text.
-/

namespace LeetBot

open Rewriting

/-- `std::regex_replace`, the regular expression and the format given as a rule. -/
def regexReplace (rule : Rule Char) (text : String) : String := .ofList (rewriteAll rule text.toList)

@[simp] theorem regexReplace_toList (rule : Rule Char) (text : String) :
    (regexReplace rule text).toList = rewriteAll rule text.toList := by
  simp [regexReplace]

def htmlToMarkdown (html : String) : String :=
  let out := regexReplace (literal "<code>".toList "`".toList) html
  let out := regexReplace (literal "</code>".toList "`".toList) out
  let out := regexReplace (literal "<pre>".toList "```".toList) out
  let out := regexReplace (literal "</pre>".toList "```".toList) out
  -- `<[^>]*>`
  regexReplace (delimited '<' '>') out

/-- `\w` -/
def isWordChar (c : Char) : Bool := c.isAlphanum || c == '_'

/-- The rule of "```(?!\w)", which puts the slug behind the fence. -/
def fenceRule (languageSlug : String) : Rule Char
  | '`' :: '`' :: '`' :: rest =>
      if rest.head?.any isWordChar then none else some (3, "```".toList ++ languageSlug.toList)
  | _ => none

def removeNewLines (text languageSlug : String) : String :=
  let out := regexReplace (literal "\\n".toList "\n".toList) text
  let out := regexReplace (literal "\\r".toList "\r".toList) out
  let out := regexReplace (literal "\\t".toList "\t".toList) out
  regexReplace (fenceRule languageSlug) out

/-- The codes that `htmlDecoder` compares with, in its order. -/
def entities : List (List Char × Char) :=
  [("&lt;".toList, '<'), ("&gt;".toList, '>'), ("&amp;".toList, '&'), ("&quot;".toList, '"'),
    ("&#39;".toList, '\''), ("&nbsp;".toList, ' ')]

/-- At `&`, the text up to the next `;`, if it is one of the codes. -/
def entityRule : Rule Char
  | '&' :: rest =>
      if ';' ∈ rest then
        let code := '&' :: rest.takeWhile (· ≠ ';') ++ [';']
        (entities.lookup code).map fun c => (code.length, [c])
      else none
  | _ => none

/-- The loop emits the character of a code and goes on behind its `;`, or emits one character and goes on behind
that. -/
def htmlDecoder (text : String) : String := .ofList (rewriteAll entityRule text.toList)

end LeetBot
