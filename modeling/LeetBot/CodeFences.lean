import LeetBot.Handlers
import LeetBot.TextReplace

/-!
# Newlines and code fences

`removeNewLines` on the posts of the solutions.  Nothing is left for a second call: no escape that one of its passes
replaces, and no fence without a language.

A fence is given the slug of the language whether it opens a block of code or closes one, so of the texts made of
prose and blocks of code only those without blocks come out as they should.
-/

namespace LeetBot

open Rewriting

/-- The language slugs that `handleSolutionDropdown` stores. -/
def offeredSlugs : List String := dropdownMap.map Prod.snd

private theorem offeredSlugs_word : ∀ slug ∈ offeredSlugs, slug.toList ≠ [] ∧ ∀ c ∈ slug.toList, isWordChar c := by
  have hall : offeredSlugs.all fun slug => !slug.toList.isEmpty && slug.toList.all isWordChar := by decide
  simpa using hall

/-! ### The fence rule -/

section Fences

variable {languageSlug : String} {rest xs out : List Char} {n : Nat}

private theorem fenceRule_startsWith (languageSlug : String) : (fenceRule languageSlug).StartsWith '`' := by
  intro x xs hx
  unfold fenceRule
  split
  · rename_i h
    exact absurd (List.cons.inj h).1 hx
  · rfl

private theorem fenceRule_fence (languageSlug : String) (rest : List Char) :
    fenceRule languageSlug ('`' :: '`' :: '`' :: rest) =
      if rest.head?.any isWordChar then none else some (3, '`' :: '`' :: '`' :: languageSlug.toList) := rfl

private theorem fenceRule_eq_none_iff :
    fenceRule languageSlug xs = none ↔ ∀ rest, xs = '`' :: '`' :: '`' :: rest → rest.head?.any isWordChar := by
  unfold fenceRule
  split
  · rename_i rest
    simp
  · rename_i hne
    exact iff_of_true rfl fun rest hxs => absurd hxs (hne rest)

private theorem eq_of_fenceRule (h : fenceRule languageSlug xs = some (n, out)) :
    (∃ rest, xs = '`' :: '`' :: '`' :: rest) ∧ out = '`' :: '`' :: '`' :: languageSlug.toList := by
  unfold fenceRule at h
  split at h
  · rename_i rest
    split at h
    · cases h
    · cases h
      exact ⟨⟨rest, rfl⟩, rfl⟩
  · cases h

private theorem head?_rewriteAll_fenceRule (languageSlug : String) (xs : List Char) :
    (rewriteAll (fenceRule languageSlug) xs).head? = xs.head? := by
  cases xs with
  | nil => rfl
  | cons x xs =>
    cases hrule : fenceRule languageSlug (x :: xs) with
    | none => rw [rewriteAll_cons_of_none hrule]; rfl
    | some m =>
      obtain ⟨n, out⟩ := m
      obtain ⟨⟨rest, hxs⟩, rfl⟩ := eq_of_fenceRule hrule
      rw [rewriteAll_cons_of_some hrule, (List.cons.inj hxs).1]
      rfl

private theorem exists_of_rewriteAll_fenceRule {c : Char} {zs : List Char}
    (h : rewriteAll (fenceRule languageSlug) xs = c :: zs) : ∃ ys, xs = c :: ys := by
  rw [← List.head?_eq_some_iff, ← head?_rewriteAll_fenceRule languageSlug xs, h]
  rfl

private theorem ne_backtick_of_isWordChar {c : Char} (h : isWordChar c) : c ≠ '`' := by
  rintro rfl
  exact absurd h (by decide)

private theorem fenceRule_eq_none_of_cons (h : fenceRule languageSlug ('`' :: xs) = none) :
    fenceRule languageSlug xs = none := by
  rw [fenceRule_eq_none_iff] at h ⊢
  rintro rest rfl
  have hword : isWordChar '`' := h ('`' :: rest) rfl
  exact absurd hword (by decide)

private theorem misses_word_append {word : List Char} (hword : ∀ c ∈ word, isWordChar c)
    (h : (fenceRule languageSlug).Misses xs) : (fenceRule languageSlug).Misses (word ++ xs) := by
  induction word with
  | nil => exact h
  | cons c word ih =>
    have hc : c ≠ '`' := ne_backtick_of_isWordChar (hword c List.mem_cons_self)
    exact Rule.misses_cons.2
      ⟨fenceRule_startsWith _ c _ hc, ih fun d hd => hword d (List.mem_cons_of_mem _ hd)⟩

private theorem misses_fence_append {word : List Char} (hne : word ≠ []) (hword : ∀ c ∈ word, isWordChar c)
    (h : (fenceRule languageSlug).Misses xs) :
    (fenceRule languageSlug).Misses ('`' :: '`' :: '`' :: (word ++ xs)) := by
  have htail := misses_word_append hword h
  cases word with
  | nil => exact absurd rfl hne
  | cons c word =>
    have hc := hword c List.mem_cons_self
    have hfirst : fenceRule languageSlug ('`' :: '`' :: '`' :: (c :: word ++ xs)) = none := by
      rw [List.cons_append, fenceRule_fence, List.head?_cons, Option.any_some, if_pos hc]
    have hsecond := fenceRule_eq_none_of_cons hfirst
    have hthird := fenceRule_eq_none_of_cons hsecond
    exact Rule.misses_cons.2 ⟨hfirst, Rule.misses_cons.2 ⟨hsecond, Rule.misses_cons.2 ⟨hthird, htail⟩⟩⟩

/-- The fence pass leaves no fence without a word behind it. -/
private theorem misses_rewriteAll_fenceRule (hne : languageSlug.toList ≠ [])
    (hword : ∀ c ∈ languageSlug.toList, isWordChar c)
    (xs : List Char) : (fenceRule languageSlug).Misses (rewriteAll (fenceRule languageSlug) xs) := by
  refine rewriteAll_induction (motive := fun _ out => (fenceRule languageSlug).Misses out) ?_ ?_ ?_ xs
  · intro x zs hs
    exact absurd (List.suffix_nil.1 hs) (List.cons_ne_nil _ _)
  · intro x xs hrule ih
    refine Rule.misses_cons.2 ⟨fenceRule_eq_none_iff.2 fun rest hout => ?_, ih⟩
    obtain ⟨rfl, hfirst⟩ := List.cons.inj hout
    -- the two backticks behind the copied one are copied as well, and then comes what stood behind them
    obtain ⟨ys, rfl⟩ := exists_of_rewriteAll_fenceRule hfirst
    have hrule' := fenceRule_eq_none_of_cons hrule
    rw [rewriteAll_cons_of_none hrule'] at hfirst
    have hsecond := (List.cons.inj hfirst).2
    obtain ⟨zs, rfl⟩ := exists_of_rewriteAll_fenceRule hsecond
    rw [rewriteAll_cons_of_none (fenceRule_eq_none_of_cons hrule')] at hsecond
    rw [← (List.cons.inj hsecond).2, head?_rewriteAll_fenceRule]
    exact fenceRule_eq_none_iff.1 hrule zs rfl
  · rintro x xs n out hrule ih
    obtain ⟨-, rfl⟩ := eq_of_fenceRule hrule
    exact misses_fence_append hne hword ih

end Fences

/-! ### A second call -/

section Stable

variable {languageSlug : String}

private theorem escape_avoids {pat : List Char} {out c : Char} (hout : out ≠ '\\') (hc : out ≠ c) :
    (literal pat [out]).Avoids '\\' c :=
  literal_avoids rfl (by simpa using hout.symm) hc

private theorem fenceRule_avoids (hword : ∀ c ∈ languageSlug.toList, isWordChar c) {c : Char} (hc : c ≠ '`') :
    (fenceRule languageSlug).Avoids '\\' c := by
  intro xs n out h
  obtain ⟨-, rfl⟩ := eq_of_fenceRule h
  refine ⟨?_, '`', _, rfl, hc.symm⟩
  simp only [List.mem_cons, Char.reduceEq, false_or]
  intro hmem
  exact absurd (hword _ hmem) (by decide)

private theorem removeNewLines_toList (text languageSlug : String) :
    (removeNewLines text languageSlug).toList =
      rewriteAll (fenceRule languageSlug) (rewriteAll (literal ['\\', 't'] ['\t'])
        (rewriteAll (literal ['\\', 'r'] ['\r']) (rewriteAll (literal ['\\', 'n'] ['\n']) text.toList))) := by
  simp only [removeNewLines, regexReplace_toList]
  rfl

private theorem not_infix_removeNewLines (hword : ∀ c ∈ languageSlug.toList, isWordChar c) (text : String) :
    ∀ c ∈ ['n', 'r', 't'], ¬ ['\\', c] <:+: (removeNewLines text languageSlug).toList := by
  rw [removeNewLines_toList]
  simp only [List.forall_mem_cons, List.not_mem_nil, false_implies, implies_true, and_true]
  refine ⟨?_, ?_, ?_⟩
  · apply (fenceRule_avoids hword (by decide)).not_neighbours
    apply (escape_avoids (by decide) (by decide)).not_neighbours
    apply (escape_avoids (by decide) (by decide)).not_neighbours
    exact not_neighbours_rewriteAll_literal (escape_avoids (by decide) (by decide))
  · apply (fenceRule_avoids hword (by decide)).not_neighbours
    apply (escape_avoids (by decide) (by decide)).not_neighbours
    exact not_neighbours_rewriteAll_literal (escape_avoids (by decide) (by decide))
  · apply (fenceRule_avoids hword (by decide)).not_neighbours
    exact not_neighbours_rewriteAll_literal (escape_avoids (by decide) (by decide))

private theorem removeNewLines_of_misses {text : String}
    (hescape : ∀ c ∈ ['n', 'r', 't'], ¬ ['\\', c] <:+: text.toList)
    (hfence : (fenceRule languageSlug).Misses text.toList) : removeNewLines text languageSlug = text := by
  simp only [List.forall_mem_cons, List.not_mem_nil, false_implies, implies_true, and_true] at hescape
  obtain ⟨hn, hr, ht⟩ := hescape
  rw [← String.toList_inj, removeNewLines_toList, rewriteAll_of_misses (literal_misses hn),
    rewriteAll_of_misses (literal_misses hr), rewriteAll_of_misses (literal_misses ht), rewriteAll_of_misses hfence]

/-- `removeNewLines` with an offered slug leaves no backslash before an `n`, an `r` or a `t` and no fence that has not
a word character behind it, and calling it once more changes nothing. -/
theorem removeNewLines_stable (text : String) {languageSlug : String} (h : languageSlug ∈ offeredSlugs) :
    (∀ c ∈ ['n', 'r', 't'], ¬ ['\\', c] <:+: (removeNewLines text languageSlug).toList) ∧
      (∀ rest, '`' :: '`' :: '`' :: rest <:+ (removeNewLines text languageSlug).toList →
        ∃ c, rest.head? = some c ∧ isWordChar c) ∧
      removeNewLines (removeNewLines text languageSlug) languageSlug = removeNewLines text languageSlug := by
  obtain ⟨hne, hword⟩ := offeredSlugs_word languageSlug h
  have hescape := not_infix_removeNewLines hword text
  have hfence : (fenceRule languageSlug).Misses (removeNewLines text languageSlug).toList := by
    rw [removeNewLines_toList]
    exact misses_rewriteAll_fenceRule hne hword _
  refine ⟨hescape, fun rest hs => ?_, removeNewLines_of_misses hescape hfence⟩
  have hrest := fenceRule_eq_none_iff.1 (hfence _ _ hs) rest rfl
  rwa [Option.any_eq_true] at hrest

/-- Two backslashes before an `n`, and four backticks. -/
theorem removeNewLines_stable_cpp :
    "cpp" ∈ offeredSlugs ∧
      (∀ c ∈ ['n', 'r', 't'], ¬ ['\\', c] <:+: (removeNewLines "\\\\n````" "cpp").toList) ∧
      (∀ rest, '`' :: '`' :: '`' :: rest <:+ (removeNewLines "\\\\n````" "cpp").toList →
        ∃ c, rest.head? = some c ∧ isWordChar c) ∧
      removeNewLines (removeNewLines "\\\\n````" "cpp") "cpp" = removeNewLines "\\\\n````" "cpp" :=
  ⟨by decide, removeNewLines_stable "\\\\n````" (by decide)⟩

end Stable

/-! ### Blocks of code -/

/-- A piece of prose and the block of code behind it. -/
structure CodeBlock where
  prose : List Char
  code : List Char
  plain : ∀ c ∈ prose ++ code, c ≠ '`' ∧ c ≠ '\\'

/-- The block with the given texts behind its opening and its closing fence. -/
def CodeBlock.print (opening closing : List Char) (b : CodeBlock) : List Char :=
  b.prose ++ ("```".toList ++ opening ++ ['\n'] ++ (b.code ++ ('\n' :: "```".toList ++ closing ++ ['\n'])))

/-- Blocks of code that name their language. -/
def printBlocks (languageSlug : String) (blocks : List CodeBlock) : String :=
  .ofList (blocks.flatMap (CodeBlock.print languageSlug.toList []))

section Blocks

variable {languageSlug : String}

private theorem CodeBlock.backtick_notMem_prose (b : CodeBlock) : '`' ∉ b.prose :=
  fun h => (b.plain _ (List.mem_append_left _ h)).1 rfl

private theorem CodeBlock.backtick_notMem_code (b : CodeBlock) : '`' ∉ b.code :=
  fun h => (b.plain _ (List.mem_append_right _ h)).1 rfl

private theorem rewritesTo_fence (languageSlug : String) :
    RewritesTo (fenceRule languageSlug) "```\n".toList ("```".toList ++ languageSlug.toList ++ ['\n']) := by
  intro ys
  have hmatch : fenceRule languageSlug ('`' :: '`' :: '`' :: '\n' :: ys) =
      some (3, '`' :: '`' :: '`' :: languageSlug.toList) := rfl
  have hnewline : fenceRule languageSlug ('\n' :: ys) = none := fenceRule_startsWith _ _ _ (by decide)
  show rewriteAll _ ('`' :: '`' :: '`' :: '\n' :: ys) = _
  rw [rewriteAll_cons_of_some hmatch]
  show _ ++ rewriteAll _ ('\n' :: ys) = _
  rw [rewriteAll_cons_of_none hnewline]
  simp

private theorem CodeBlock.rewritesTo_print (languageSlug : String) (b : CodeBlock) :
    RewritesTo (fenceRule languageSlug) (b.print [] []) (b.print languageSlug.toList languageSlug.toList) := by
  have hr := fenceRule_startsWith languageSlug
  have hprose := RewritesTo.copy_of_notMem hr b.backtick_notMem_prose
  have hcode := RewritesTo.copy_of_notMem hr b.backtick_notMem_code
  have hnewline : RewritesTo (fenceRule languageSlug) ['\n'] ['\n'] := .copy_of_notMem hr (by decide)
  have hfence := rewritesTo_fence languageSlug
  exact hprose.append (hfence.append (hcode.append (hnewline.append hfence)))

private theorem removeNewLines_printBlocks (languageSlug : String) (blocks : List CodeBlock) :
    (removeNewLines (printBlocks "" blocks) languageSlug).toList =
      blocks.flatMap (CodeBlock.print languageSlug.toList languageSlug.toList) := by
  have hbackslash : '\\' ∉ blocks.flatMap (CodeBlock.print [] []) := by
    intro hmem
    obtain ⟨b, -, hb⟩ := List.mem_flatMap.1 hmem
    have hprose : '\\' ∉ b.prose := fun h => (b.plain _ (List.mem_append_left _ h)).2 rfl
    have hcode : '\\' ∉ b.code := fun h => (b.plain _ (List.mem_append_right _ h)).2 rfl
    simp [CodeBlock.print, hprose, hcode] at hb
  have hmisses : ∀ c out, (literal ['\\', c] out).Misses (blocks.flatMap (CodeBlock.print [] [])) :=
    fun c out => literal_misses fun hinside => hbackslash (hinside.subset List.mem_cons_self)
  have htext : (printBlocks "" blocks).toList = blocks.flatMap (CodeBlock.print [] []) := String.toList_ofList
  rw [removeNewLines_toList, htext, rewriteAll_of_misses (hmisses _ _), rewriteAll_of_misses (hmisses _ _),
    rewriteAll_of_misses (hmisses _ _)]
  apply RewritesTo.rewriteAll_eq
  clear hbackslash hmisses htext
  induction blocks with
  | nil => exact .nil
  | cons b blocks ih => exact (b.rewritesTo_print languageSlug).append ih

private theorem length_flatMap_print (slug : List Char) (blocks : List CodeBlock) :
    (blocks.flatMap (CodeBlock.print slug slug)).length =
      (blocks.flatMap (CodeBlock.print slug [])).length + blocks.length * slug.length := by
  induction blocks with
  | nil => simp
  | cons b blocks ih =>
    have hb : (b.print slug slug).length = (b.print slug []).length + slug.length := by
      simp [CodeBlock.print]
      omega
    rw [List.flatMap_cons, List.flatMap_cons, List.length_append, List.length_append, List.length_cons, ih, hb,
      Nat.succ_mul]
    omega

/-- Only a text without blocks of code comes out with the slug behind the opening fences and nowhere else. -/
theorem removeNewLines_printBlocks_iff {languageSlug : String} (h : languageSlug ∈ offeredSlugs)
    (blocks : List CodeBlock) :
    removeNewLines (printBlocks "" blocks) languageSlug = printBlocks languageSlug blocks ↔ blocks = [] := by
  rw [← String.toList_inj, removeNewLines_printBlocks, printBlocks, String.toList_ofList]
  constructor
  · intro heq
    have hlen := congrArg List.length heq
    rw [length_flatMap_print] at hlen
    have hslug : languageSlug.toList.length ≠ 0 := by
      rw [ne_eq, List.length_eq_zero_iff]
      exact (offeredSlugs_word languageSlug h).1
    have hmul : blocks.length * languageSlug.toList.length = 0 := by omega
    exact List.length_eq_zero_iff.1 ((Nat.mul_eq_zero.1 hmul).resolve_right hslug)
  · rintro rfl
    rfl

/-- The block of the code `x`, without prose. -/
def blockX : CodeBlock := ⟨[], ['x'], by simp⟩

theorem removeNewLines_printBlocks_cpp :
    "cpp" ∈ offeredSlugs ∧
      (removeNewLines (printBlocks "" [blockX]) "cpp" = printBlocks "cpp" [blockX] ↔ [blockX] = []) :=
  ⟨by decide, removeNewLines_printBlocks_iff (by decide) [blockX]⟩

/-- Its closing fence is given the slug. -/
theorem removeNewLines_blockX :
    ¬ ∀ languageSlug ∈ offeredSlugs, ∀ blocks : List CodeBlock,
      removeNewLines (printBlocks "" blocks) languageSlug = printBlocks languageSlug blocks := by
  intro hall
  have h := hall "cpp" (by decide) [blockX]
  revert h
  decide +kernel

end Blocks

end LeetBot
