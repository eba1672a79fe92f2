import Mathlib.Data.List.Basic
import Mathlib.Data.List.Infix
import Mathlib.Tactic.Common

/-!
# Delimited words in a text

A text in which fillers and tokens alternate.  A token is a word between two delimiters, with a fixed text on either
side.  When the opening delimiter stands nowhere but in front of words, and no word has the closing one, the text
contains a token only where it was put: a match cannot begin in one token or filler and end in another
(`Frame.token_isInfix_iff`).
-/

namespace Delimited

variable {α : Type}

/-- What stands around the word of a token.  The opening delimiter occurs there once. -/
structure Frame (α : Type) where
  before : List α
  opening : α
  closing : α
  behind : List α
  opening_notMem_before : opening ∉ before
  opening_ne_closing : opening ≠ closing
  opening_notMem_behind : opening ∉ behind

/-- Two ways of splitting a list at an `a`, of which one is at the first. -/
theorem append_cons_eq_append_cons {a : α} {p xs ys zs : List α} (hp : a ∉ p) (h : xs ++ a :: ys = p ++ a :: zs) :
    (xs = p ∧ ys = zs) ∨ ∃ mid, xs = p ++ a :: mid ∧ zs = mid ++ a :: ys := by
  rcases List.append_eq_append_iff.1 h with ⟨mid, hsplit, htail⟩ | ⟨mid, hsplit, htail⟩
  · -- the list `xs` ends inside `p`, which has no `a`
    cases mid with
    | nil => exact .inl ⟨by simpa using hsplit.symm, (List.cons.inj htail).2⟩
    | cons b mid =>
      obtain ⟨rfl, -⟩ := List.cons.inj htail
      exact absurd (hsplit ▸ by simp) hp
  · cases mid with
    | nil => exact .inl ⟨by simpa using hsplit, (List.cons.inj htail).2.symm⟩
    | cons b mid =>
      obtain ⟨rfl, hzs⟩ := List.cons.inj htail
      exact .inr ⟨mid, hsplit, hzs⟩

namespace Frame

variable (f : Frame α)

def token (word : List α) : List α := f.before ++ f.opening :: (word ++ f.closing :: f.behind)

/-- A filler, and then tokens, given by their words, each with the filler behind it. -/
def text (filler : List α) : List (List α × List α) → List α
  | [] => filler
  | (word, filler') :: segments => filler ++ f.token word ++ text filler' segments

/-- The words and fillers of a text leave the delimiters to the tokens. -/
def Separates (segments : List (List α × List α)) : Prop :=
  ∀ x ∈ segments, f.opening ∉ x.1 ∧ f.closing ∉ x.1 ∧ f.opening ∉ x.2

variable {f} {word filler filler' : List α} {segments : List (List α × List α)}

private theorem text_append (filler filler' : List α) :
    f.text (filler ++ filler') segments = filler ++ f.text filler' segments := by
  cases segments with
  | nil => rfl
  | cons x segments => simp only [text, List.append_assoc]

private theorem text_cons (x : List α × List α) : f.text filler (x :: segments) =
    (filler ++ f.before) ++ f.opening :: (x.1 ++ f.closing :: f.text (f.behind ++ x.2) segments) := by
  rw [text_append]
  simp only [text, token, List.append_assoc, List.cons_append]

/-- A delimited word in the text is the word of one of its tokens. -/
private theorem mem_of_delimited_isInfix (hfiller : f.opening ∉ filler) (hsegments : f.Separates segments)
    (hword : f.closing ∉ word) (h : f.opening :: (word ++ [f.closing]) <:+: f.text filler segments) :
    word ∈ segments.map Prod.fst := by
  induction segments generalizing filler with
  | nil => exact absurd (h.subset List.mem_cons_self) hfiller
  | cons x segments ih =>
    obtain ⟨hx, hrest⟩ := List.forall_mem_cons.1 hsegments
    obtain ⟨hopening, hclosing, hx'⟩ := hx
    obtain ⟨xs, ys, hxs⟩ := h
    rw [text_cons, List.append_assoc, List.cons_append, List.append_assoc, List.singleton_append] at hxs
    have hfirst : f.opening ∉ filler ++ f.before := by simp [hfiller, f.opening_notMem_before]
    rcases append_cons_eq_append_cons hfirst hxs with ⟨-, hsame⟩ | ⟨mid, -, hmid⟩
    · -- the match begins at the first token, and both words end at the first closing delimiter
      rcases append_cons_eq_append_cons hclosing hsame with ⟨rfl, -⟩ | ⟨mid, rfl, -⟩
      · exact List.mem_cons_self
      · exact absurd (by simp) hword
    · -- the match begins behind the first opening delimiter, in a text with one token less
      have hnext : f.opening ∉ x.1 ++ [f.closing] ++ (f.behind ++ x.2) := by
        simp [hopening, f.opening_ne_closing, f.opening_notMem_behind, hx']
      refine List.mem_cons_of_mem _ (ih hnext hrest ⟨mid, ys, ?_⟩)
      calc mid ++ f.opening :: (word ++ [f.closing]) ++ ys = mid ++ f.opening :: (word ++ f.closing :: ys) := by simp
        _ = x.1 ++ f.closing :: f.text (f.behind ++ x.2) segments := hmid.symm
        _ = f.text (x.1 ++ [f.closing] ++ (f.behind ++ x.2)) segments := by
          rw [List.append_cons, text_append (x.1 ++ [f.closing])]

/-- The text contains a token exactly when one of its own has the word. -/
theorem token_isInfix_iff (hfiller : f.opening ∉ filler) (hsegments : f.Separates segments)
    (hword : f.closing ∉ word) : f.token word <:+: f.text filler segments ↔ word ∈ segments.map Prod.fst := by
  constructor
  · intro h
    refine mem_of_delimited_isInfix hfiller hsegments hword (List.IsInfix.trans ?_ h)
    exact ⟨f.before, f.behind, by simp [token]⟩
  · intro h
    clear hfiller hsegments
    induction segments generalizing filler with
    | nil => exact absurd h List.not_mem_nil
    | cons x segments ih =>
      rcases List.mem_cons.1 h with rfl | h
      · exact ⟨filler, f.text x.2 segments, rfl⟩
      · exact (@ih x.2 h).trans (List.suffix_append _ _).isInfix

end Frame

end Delimited
