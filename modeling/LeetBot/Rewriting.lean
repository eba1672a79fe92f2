import Mathlib.Data.List.Basic
import Mathlib.Data.List.TakeWhile
import Mathlib.Tactic.Common

/-!
# Leftmost, non-overlapping rewriting of lists

A rule says at which positions of a text a match starts: applied to the rest of the text it gives the length of the
match and its replacement.  `rewriteAll` replaces the leftmost match, goes on behind it, and copies what no match
covers.  It is how a regular expression is replaced everywhere in a string, and how a scanner decodes escapes.

A text is understood piece by piece: `RewritesTo rule xs out` says that the piece `xs` becomes `out` whatever follows
it.  A piece at none of whose positions a match starts stays as it is (`RewritesTo.copy`), a piece that is a match
is replaced (`RewritesTo.of_match`), and pieces are put together by `RewritesTo.append`.
-/

namespace Rewriting

variable {α : Type}

/-- The length of the match that starts here, and its replacement. -/
abbrev Rule (α : Type) := List α → Option (Nat × List α)

/-- Rewriting behind a match of which `skip` elements are still to be passed over. -/
def rewrite (rule : Rule α) : Nat → List α → List α
  | _, [] => []
  | skip + 1, _ :: xs => rewrite rule skip xs
  | 0, x :: xs =>
      match rule (x :: xs) with
      | some (n, out) => out ++ rewrite rule (n - 1) xs
      | none => x :: rewrite rule 0 xs

def rewriteAll (rule : Rule α) (xs : List α) : List α := rewrite rule 0 xs

/-- The rule fires only on texts that begin with `a`. -/
def Rule.StartsWith (rule : Rule α) (a : α) : Prop := ∀ x xs, x ≠ a → rule (x :: xs) = none

@[simp] theorem rewriteAll_nil (rule : Rule α) : rewriteAll rule [] = [] := rfl

private theorem rewrite_length_append (rule : Rule α) (xs ys : List α) :
    rewrite rule xs.length (xs ++ ys) = rewriteAll rule ys := by
  induction xs with
  | nil => rfl
  | cons x xs ih => exact ih

theorem rewriteAll_cons_of_none {rule : Rule α} {x : α} {xs : List α} (h : rule (x :: xs) = none) :
    rewriteAll rule (x :: xs) = x :: rewriteAll rule xs := by
  simp only [rewriteAll, rewrite, h]

private theorem rewrite_eq_rewriteAll_drop (rule : Rule α) (n : Nat) (xs : List α) :
    rewrite rule n xs = rewriteAll rule (xs.drop n) := by
  induction n generalizing xs with
  | zero => rfl
  | succ n ih =>
    cases xs with
    | nil => rfl
    | cons x xs => exact ih xs

theorem rewriteAll_cons_of_some {rule : Rule α} {x : α} {xs out : List α} {n : Nat}
    (h : rule (x :: xs) = some (n, out)) :
    rewriteAll rule (x :: xs) = out ++ rewriteAll rule (xs.drop (n - 1)) := by
  rw [← rewrite_eq_rewriteAll_drop]
  simp only [rewriteAll, rewrite, h]

/-- A text is rewritten by copying its first element or by replacing a match at its head. -/
theorem rewriteAll_induction {rule : Rule α} {motive : List α → List α → Prop} (nil : motive [] [])
    (copy : ∀ x xs, rule (x :: xs) = none → motive xs (rewriteAll rule xs) →
      motive (x :: xs) (x :: rewriteAll rule xs))
    (replace : ∀ x xs n out, rule (x :: xs) = some (n, out) →
      motive (xs.drop (n - 1)) (rewriteAll rule (xs.drop (n - 1))) →
      motive (x :: xs) (out ++ rewriteAll rule (xs.drop (n - 1)))) (xs : List α) :
    motive xs (rewriteAll rule xs) := by
  induction hlen : xs.length using Nat.strongRecOn generalizing xs with
  | _ len ih =>
    cases xs with
    | nil => exact nil
    | cons x xs =>
      rw [List.length_cons] at hlen
      cases hrule : rule (x :: xs) with
      | none =>
        rw [rewriteAll_cons_of_none hrule]
        exact copy x xs hrule (ih _ (by omega) xs rfl)
      | some m =>
        obtain ⟨n, out⟩ := m
        rw [rewriteAll_cons_of_some hrule]
        refine replace x xs n out hrule (ih _ ?_ _ rfl)
        rw [List.length_drop]
        omega

/-! ### Texts without a match -/

/-- No match starts anywhere in the text. -/
def Rule.Misses (rule : Rule α) (xs : List α) : Prop := ∀ x zs, x :: zs <:+ xs → rule (x :: zs) = none

theorem Rule.misses_cons {rule : Rule α} {x : α} {xs : List α} :
    rule.Misses (x :: xs) ↔ rule (x :: xs) = none ∧ rule.Misses xs := by
  constructor
  · exact fun h => ⟨h x xs (List.suffix_refl _), fun y zs hs => h y zs (hs.trans (List.suffix_cons _ _))⟩
  · rintro ⟨hhead, htail⟩ y zs hs
    rcases List.suffix_cons_iff.1 hs with heq | hs
    · rw [heq]
      exact hhead
    · exact htail y zs hs

/-- Such a text stays as it is. -/
theorem rewriteAll_of_misses {rule : Rule α} {xs : List α} (h : rule.Misses xs) : rewriteAll rule xs = xs := by
  induction xs with
  | nil => rfl
  | cons x xs ih =>
    obtain ⟨hhead, htail⟩ := Rule.misses_cons.1 h
    rw [rewriteAll_cons_of_none hhead, ih htail]

/-- No replacement contains `a`, and none begins with `b`. -/
def Rule.Avoids (rule : Rule α) (a b : α) : Prop :=
  ∀ xs n out, rule xs = some (n, out) → a ∉ out ∧ ∃ c cs, out = c :: cs ∧ c ≠ b

private theorem infix_of_infix_append {a b : α} {xs ys : List α} (ha : a ∉ xs) (h : [a, b] <:+: xs ++ ys) :
    [a, b] <:+: ys := by
  induction xs with
  | nil => exact h
  | cons x xs ih =>
    rcases List.infix_cons_iff.1 h with hpre | hinside
    · obtain ⟨rfl, -⟩ := List.cons_prefix_cons.1 hpre
      exact absurd List.mem_cons_self ha
    · exact ih (fun hmem => ha (List.mem_cons_of_mem _ hmem)) hinside

/-- Neighbours in the output that no replacement can have made are neighbours in the text, and no match starts at
them. -/
private theorem Rule.Avoids.neighbours {rule : Rule α} {a b : α} (hout : rule.Avoids a b) {xs : List α}
    (h : [a, b] <:+: rewriteAll rule xs) : ∃ zs, a :: b :: zs <:+ xs ∧ rule (a :: b :: zs) = none := by
  have hboth : ((rewriteAll rule xs).head? = some b → xs.head? = some b) ∧
      ([a, b] <:+: rewriteAll rule xs → ∃ zs, a :: b :: zs <:+ xs ∧ rule (a :: b :: zs) = none) := by
    refine rewriteAll_induction (motive := fun xs out => (out.head? = some b → xs.head? = some b) ∧
      ([a, b] <:+: out → ∃ zs, a :: b :: zs <:+ xs ∧ rule (a :: b :: zs) = none)) ?_ ?_ ?_ xs
    · exact ⟨id, by simp⟩
    · rintro x xs hrule ⟨ihhead, ihpair⟩
      refine ⟨id, fun hinside => ?_⟩
      rcases List.infix_cons_iff.1 hinside with hpre | hinside
      · -- the first of the two is the copied element
        obtain ⟨rfl, zs, hz⟩ := List.cons_prefix_cons.1 hpre
        obtain ⟨ys, rfl⟩ := List.head?_eq_some_iff.1 (ihhead (by rw [← hz]; rfl))
        exact ⟨ys, List.suffix_refl _, hrule⟩
      · obtain ⟨zs, hs, hnone⟩ := ihpair hinside
        exact ⟨zs, hs.trans (List.suffix_cons _ _), hnone⟩
    · rintro x xs n out hrule ⟨-, ihpair⟩
      obtain ⟨hmem, c, cs, rfl, hc⟩ := hout _ _ _ hrule
      refine ⟨fun hhead => absurd (Option.some.inj hhead) hc, fun hinside => ?_⟩
      obtain ⟨zs, hs, hnone⟩ := ihpair (infix_of_infix_append hmem hinside)
      exact ⟨zs, (hs.trans (List.drop_suffix _ _)).trans (List.suffix_cons _ _), hnone⟩
  exact hboth.2 h

/-- So such neighbours are not made by rewriting. -/
theorem Rule.Avoids.not_neighbours {rule : Rule α} {a b : α} (hout : rule.Avoids a b) {xs : List α}
    (h : ¬ [a, b] <:+: xs) : ¬ [a, b] <:+: rewriteAll rule xs := by
  intro hinside
  obtain ⟨zs, hs, -⟩ := hout.neighbours hinside
  exact h ((List.prefix_append [a, b] zs).isInfix.trans hs.isInfix)

/-! ### Pieces -/

/-- The piece `xs` becomes `out`, and rewriting goes on behind it. -/
def RewritesTo (rule : Rule α) (xs out : List α) : Prop :=
  ∀ ys, rewriteAll rule (xs ++ ys) = out ++ rewriteAll rule ys

namespace RewritesTo

variable {rule : Rule α} {xs xs' out out' : List α}

theorem rewriteAll_eq (h : RewritesTo rule xs out) : rewriteAll rule xs = out := by
  simpa using h []

/-- So a text behind the piece is rewritten on its own. -/
theorem rewriteAll_append (h : RewritesTo rule xs out) (ys : List α) :
    rewriteAll rule (xs ++ ys) = rewriteAll rule xs ++ rewriteAll rule ys := by
  rw [h, h.rewriteAll_eq]

theorem nil : RewritesTo rule [] [] := fun _ => rfl

theorem append (h : RewritesTo rule xs out) (h' : RewritesTo rule xs' out') :
    RewritesTo rule (xs ++ xs') (out ++ out') := by
  intro ys
  rw [List.append_assoc, h, h', List.append_assoc]

theorem of_match (hne : xs ≠ []) (h : ∀ ys, rule (xs ++ ys) = some (xs.length, out)) : RewritesTo rule xs out := by
  intro ys
  cases xs with
  | nil => exact absurd rfl hne
  | cons x xs =>
    have h := h ys
    rw [List.cons_append] at h ⊢
    simp only [rewriteAll, rewrite, h, List.length_cons, Nat.add_sub_cancel]
    rw [rewrite_length_append]
    rfl

private theorem copy (h : ∀ x zs, x :: zs <:+ xs → ∀ ys, rule (x :: (zs ++ ys)) = none) : RewritesTo rule xs xs := by
  intro ys
  induction xs with
  | nil => rfl
  | cons x xs ih =>
    rw [List.cons_append, rewriteAll_cons_of_none (h x xs (List.suffix_refl _) ys),
      ih fun y zs hs => h y zs (hs.trans (List.suffix_cons _ _))]
    rfl

theorem copy_of_notMem {a : α} (hr : rule.StartsWith a) (h : a ∉ xs) : RewritesTo rule xs xs := by
  apply copy
  intro x zs hs ys
  apply hr
  rintro rfl
  exact h (hs.subset List.mem_cons_self)

private theorem copy_of_head {a : α} (hr : rule.StartsWith a) (h : a ∉ xs)
    (hnone : ∀ ys, rule (a :: (xs ++ ys)) = none) :
    RewritesTo rule (a :: xs) (a :: xs) := by
  intro ys
  rw [List.cons_append, rewriteAll_cons_of_none (hnone ys), copy_of_notMem hr h]
  rfl

end RewritesTo

/-! ### Two kinds of rules -/

variable [DecidableEq α]

/-- A literal pattern. -/
def literal (pat out : List α) : Rule α := fun xs =>
  if pat.isPrefixOf xs then some (pat.length, out) else none

/-- What stands between `a` and the next `b` after it, with both ends, is deleted. -/
def delimited (a b : α) : Rule α
  | [] => none
  | x :: xs => if x = a ∧ b ∈ xs then some ((xs.takeWhile (· ≠ b)).length + 2, []) else none

theorem literal_startsWith (a : α) (pat out : List α) : (literal (a :: pat) out).StartsWith a := by
  intro x xs hx
  simp [literal, List.isPrefixOf, Ne.symm hx]

private theorem literal_append (pat out ys : List α) : literal pat out (pat ++ ys) = some (pat.length, out) := by
  simp [literal]

theorem delimited_startsWith (a b : α) : (delimited a b).StartsWith a := by
  intro x xs hx
  simp [delimited, hx]

private theorem RewritesTo.literal {pat : List α} (out : List α) (hne : pat ≠ []) :
    RewritesTo (literal pat out) pat out :=
  .of_match hne (literal_append pat out)

private theorem literal_cons_eq_none {pat out : List α} {x : α} {xs : List α} :
    literal pat out (x :: xs) = none ↔ ¬ pat <+: x :: xs := by
  simp [literal]

/-- A literal pattern misses a text in which it does not occur. -/
theorem literal_misses {pat out xs : List α} (h : ¬ pat <:+: xs) : (literal pat out).Misses xs := by
  intro x zs hs
  rw [literal_cons_eq_none]
  exact fun hpre => h (hpre.isInfix.trans hs.isInfix)

private theorem delimited_cons_eq_none {a b x : α} {xs : List α} :
    delimited a b (x :: xs) = none ↔ ¬ (x = a ∧ b ∈ xs) := by
  simp [delimited]

/-- The deletion of delimited pieces misses a text in which no `b` comes after an `a`. -/
theorem delimited_misses {a b : α} {xs : List α} (h : ¬ [a, b].Sublist xs) : (delimited a b).Misses xs := by
  intro x zs hs
  rw [delimited_cons_eq_none]
  rintro ⟨rfl, hb⟩
  exact h (((List.singleton_sublist.2 hb).cons_cons x).trans hs.sublist)

theorem takeWhile_ne_append {b : α} {xs : List α} (ys : List α) (h : b ∉ xs) :
    (xs ++ b :: ys).takeWhile (· ≠ b) = xs := by
  rw [List.takeWhile_append_of_pos]
  · simp
  · intro x hx
    simp only [ne_eq, decide_not, Bool.not_eq_eq_eq_not, Bool.not_true, decide_eq_false_iff_not]
    rintro rfl
    exact h hx

theorem RewritesTo.delimited {a b : α} {xs : List α} (h : b ∉ xs) :
    RewritesTo (delimited a b) (a :: xs ++ [b]) [] := by
  refine .of_match (by simp) fun ys => ?_
  simp only [Rewriting.delimited, List.cons_append, List.append_assoc, List.nil_append]
  rw [takeWhile_ne_append ys h]
  simp

/-! ### Delimited pieces and literal patterns -/

/-- A piece that begins with `a`, ends with `b` and has neither in between. -/
structure Enclosed (a b : α) (xs : List α) : Prop where
  eq : ∃ body, xs = a :: body ++ [b] ∧ a ∉ body ∧ b ∉ body

/-- The position of the first `b`. -/
theorem idxOf?_append_cons {b : α} {xs ys : List α} (h : b ∉ xs) : (xs ++ b :: ys).idxOf? b = some xs.length := by
  rw [List.idxOf?_eq_some_iff]
  refine ⟨by simp, by simp, fun j hj => ?_⟩
  rw [List.getElem_append_left hj]
  rintro rfl
  exact h (List.getElem_mem hj)

/-- The first `b` cuts a text in one way only. -/
theorem append_cons_inj {b : α} {xs ys zs us : List α} (hx : b ∉ xs) (hy : b ∉ ys)
    (h : xs ++ b :: zs = ys ++ b :: us) : xs = ys := by
  have h1 := takeWhile_ne_append zs hx
  rw [h, takeWhile_ne_append us hy] at h1
  exact h1.symm

/-- An enclosed piece is an enclosed pattern, or the pattern does not match it. -/
theorem RewritesTo.literal_of_enclosed {a b : α} (hab : a ≠ b) {pat xs : List α} (out : List α)
    (hpat : Enclosed a b pat) (hxs : Enclosed a b xs) :
    RewritesTo (Rewriting.literal pat out) xs (if xs = pat then out else xs) := by
  obtain ⟨body, rfl, ha, hb⟩ := hxs.eq
  split
  · rename_i heq
    rw [heq]
    obtain ⟨p, rfl, -⟩ := hpat.eq
    exact .literal out (by simp)
  · rename_i hne
    obtain ⟨p, rfl, -, hp⟩ := hpat.eq
    refine .copy_of_head (literal_startsWith a _ out) (by simp [ha, hab]) fun ys => ?_
    rw [Rewriting.literal, if_neg]
    intro hpre
    rw [List.isPrefixOf_iff_prefix] at hpre
    obtain ⟨zs, hz⟩ := hpre
    apply hne
    simp only [List.append_eq, List.cons_append, List.append_assoc, List.nil_append, List.cons.injEq,
      true_and] at hz
    rw [append_cons_inj hp hb hz]

/-! ### What a pass leaves behind -/

private theorem rewriteAll_delimited_sublist (a b : α) (xs : List α) :
    (rewriteAll (delimited a b) xs).Sublist xs := by
  refine rewriteAll_induction (motive := fun xs out => out.Sublist xs) (List.Sublist.refl _) ?_ ?_ xs
  · intro x xs _ ih
    exact ih.cons_cons x
  · intro x xs n out hrule ih
    simp only [delimited] at hrule
    split at hrule
    · cases hrule
      exact (ih.trans (List.drop_sublist _ _)).cons x
    · cases hrule

/-- When delimited pieces have been deleted, no `b` comes after an `a`: the deletion does not make new pieces of what
stood around the old ones. -/
theorem not_sublist_rewriteAll_delimited (a b : α) (xs : List α) :
    ¬ [a, b].Sublist (rewriteAll (delimited a b) xs) := by
  refine rewriteAll_induction (motive := fun _ out => ¬ [a, b].Sublist out) (by simp) ?_ ?_ xs
  · intro x xs hrule ih hsub
    rcases List.sublist_cons_iff.1 hsub with hsub | ⟨r, hr, hsub⟩
    · exact ih hsub
    · -- the copied element is an `a` behind which there is no `b`
      obtain ⟨rfl, rfl⟩ := List.cons.inj hr
      have hb : b ∈ rewriteAll (delimited a b) xs := List.singleton_sublist.1 hsub
      exact delimited_cons_eq_none.1 hrule ⟨rfl, (rewriteAll_delimited_sublist a b xs).subset hb⟩
  · intro x xs n out hrule ih hsub
    simp only [delimited] at hrule
    split at hrule
    · cases hrule
      exact ih hsub
    · cases hrule

theorem literal_avoids {pat out : List α} {a b c : α} {cs : List α} (hout : out = c :: cs) (ha : a ∉ out)
    (hc : c ≠ b) : (literal pat out).Avoids a b := by
  intro xs n out' h
  unfold literal at h
  split at h
  · cases h
    exact ⟨ha, c, cs, hout, hc⟩
  · cases h

/-- The replacement of two neighbours leaves none behind, unless it makes new ones. -/
theorem not_neighbours_rewriteAll_literal {a b : α} {out xs : List α} (hout : (literal [a, b] out).Avoids a b) :
    ¬ [a, b] <:+: rewriteAll (literal [a, b] out) xs := by
  intro hinside
  obtain ⟨zs, -, hnone⟩ := hout.neighbours hinside
  exact literal_cons_eq_none.1 hnone (List.prefix_append [a, b] zs)

end Rewriting
