import LeetBot.Delimited
import LeetBot.Paging
import LeetBot.SolutionsFetch
import LeetBot.TypedMembers

/-!
# The texts of the pages

What reaches a user as a page of solutions is the text of a page, cut to the length of an embed description.  It is
the page of one solution exactly when there is a solution to show and the text is not cut.
-/

namespace LeetBot

open EventMachine Loops

/-! ### Pages that are sent -/

/-- The message in an answer. -/
def Answer.message : Answer → Option Message
  | .reply m | .updateMessage m | .editOriginal m => some m
  | .thinking | .requested _ => none

/-- The descriptions of the pages of solutions in a message. -/
def Message.solutionsPages (m : Message) : List String :=
  (m.embeds.filter fun e => e.title = "Solutions").map Embed.description

/-- The pages of solutions in a list of answers. -/
def pagesIn (answers : List Answer) : List String :=
  answers.flatMap fun x => x.message.toList.flatMap Message.solutionsPages

/-- The pages of solutions that are sent, each with its user. -/
def pagesSent (out : List (Snowflake × Answer)) : List (Snowflake × String) :=
  out.flatMap fun x => (pagesIn [x.2]).map fun d => (x.1, d)

/-- The text `d` is the entry of the solution with the number `p`, and says that it is page `p` of all. -/
structure IsPage (solutions : List Solution) (p : Nat) (d : String) : Prop where
  first : 1 ≤ p
  last : p ≤ solutions.length
  text : ∃ solution, solutions[p - 1]? = some solution ∧
    d = solutionText (p - 1) solution ++ "\nPage " ++ toString p ++ " / " ++ toString solutions.length

/-- Every page that an event sends is one of the pages of the solutions that are then stored for its user. -/
def SendsPages (parse : String → Except String Json) (s : Interactive) (e : UserEvent) : Prop :=
  ∀ x ∈ pagesSent (interactStep parse s e).2,
    ∃ p, IsPage (((interactStep parse s e).1.pages.userSolutionPages x.1).getD []) p x.2

/-! ### Pages that fit -/

/-- The number of characters on the page with the number `p` of `n`. -/
def pageSize (p n : Nat) (s : Solution) : Nat :=
  75 + 2 * (toString p).length + s.title.length + (toString s.id).length + s.status.length +
    (toString s.creationDate).length + (toString s.voteCount).length + s.content.length + (toString n).length

/-- There is a solution with the index `i`, and its page is not longer than a description. -/
def Fits (solutions : List Solution) (i : Int) : Prop :=
  ∃ s, solutionAt solutions i = some s ∧ pageSize (i.toNat + 1) solutions.length s ≤ 4096

section Text

variable {solutions : List Solution} {solution : Solution} {p : Nat} {d : String}

/-- The whole text of the page with the index `p`. -/
def wholePage (solutions : List Solution) (p : Nat) (solution : Solution) : String :=
  solutionEntry p solution ++ pageFooter p solutions.length

private theorem length_wholePage :
    (wholePage solutions p solution).length = pageSize (p + 1) solutions.length solution := by
  have htexts : ". Title: ".length + ", id: ".length + ", status: ".length + ", created at: ".length +
      ", vote count: ".length + ", solution: ".length + "\n".length + "\nPage ".length + " / ".length = 75 := rfl
  have hsize : (solutions.length + 1 - 1) / 1 = solutions.length := by omega
  simp only [wholePage, solutionEntry, pageFooter, toString_natCast_succ, pageSize, String.length_append, hsize]
  omega

private theorem isPage_iff : IsPage solutions p d ↔
    ∃ i solution, p = i + 1 ∧ solutions[i]? = some solution ∧ d = wholePage solutions i solution := by
  have htext : ∀ (i : Nat) (solution : Solution), solutionText (i + 1 - 1) solution ++ "\nPage " ++
      toString (i + 1) ++ " / " ++ toString solutions.length = wholePage solutions i solution := by
    intro i solution
    rw [wholePage, solutionEntry_eq_solutionText, pageFooter_natCast, Nat.add_sub_cancel]
    simp only [String.append_assoc]
  constructor
  · rintro ⟨hfirst, hlast, solution, hsolution, rfl⟩
    obtain ⟨i, rfl⟩ : ∃ i, p = i + 1 := ⟨p - 1, by omega⟩
    exact ⟨i, solution, rfl, hsolution, htext i solution⟩
  · rintro ⟨i, solution, rfl, hsolution, rfl⟩
    have hlt : i < solutions.length := (List.getElem?_eq_some_iff.1 hsolution).1
    exact ⟨by omega, by omega, solution, hsolution, (htext i solution).symm⟩

private theorem toList_wholePage (solutions : List Solution) (p : Nat) (solution : Solution) :
    ∃ rest, (wholePage solutions p solution).toList = Nat.toDigits 10 (p + 1) ++ '.' :: rest := by
  have hnumber : (toString ((p : Int) + 1)).toList = Nat.toDigits 10 (p + 1) := Nat.toList_repr
  simp only [wholePage, solutionEntry, String.toList_append, hnumber, List.append_assoc]
  exact ⟨_, rfl⟩

theorem point_notMem_toDigits (n : Nat) : '.' ∉ Nat.toDigits 10 n := by
  intro h
  exact absurd (Nat.isDigit_of_mem_toDigits (by decide) (by decide) h) (by decide)

private theorem index_of_cut {solutions' : List Solution} {i : Nat} {solution' : Solution} {n : Nat}
    (h : utf8substr n (wholePage solutions p solution) = wholePage solutions' i solution') : p = i := by
  obtain ⟨rest, hrest⟩ := toList_wholePage solutions p solution
  obtain ⟨rest', hrest'⟩ := toList_wholePage solutions' i solution'
  have hcut : (Nat.toDigits 10 (p + 1) ++ '.' :: rest).take n = Nat.toDigits 10 (i + 1) ++ '.' :: rest' := by
    rw [← hrest, ← hrest', ← h, toList_utf8substr]
  obtain ⟨tail, htail⟩ : Nat.toDigits 10 (i + 1) ++ '.' :: rest' <+: Nat.toDigits 10 (p + 1) ++ '.' :: rest :=
    hcut ▸ List.take_prefix _ _
  rw [List.append_assoc, List.cons_append] at htail
  -- both numbers end at the first point
  have hdigits : Nat.toDigits 10 (i + 1) = Nat.toDigits 10 (p + 1) := by
    rcases Delimited.append_cons_eq_append_cons (point_notMem_toDigits _) htail with ⟨hdigits, -⟩ | ⟨mid, hmid, -⟩
    · exact hdigits
    · exact absurd (hmid ▸ by simp) (point_notMem_toDigits (i + 1))
  have hnumber := congrArg (fun cs => Nat.ofDigitChars 10 cs 0) hdigits
  simp only [Nat.ofDigitChars_ten_toDigits] at hnumber
  omega

/-- The text of a page as it is sent is that of a page exactly when there is a solution and its page fits. -/
private theorem exists_isPage_iff {c : Cursor Solution} :
    (∃ p, IsPage c.entries p (utf8substr 4096 (pageText c))) ↔ Fits c.entries c.position := by
  simp only [isPage_iff, Fits, solutionAt, Int.natCast_nonneg, if_true, Int.toNat_natCast]
  constructor
  · rintro ⟨p, i, solution', -, hsolution', htext⟩
    have hlt : i < c.entries.length := (List.getElem?_eq_some_iff.1 hsolution').1
    have hposition : c.position < c.entries.length := by
      have := c.inside
      omega
    have hsolution := List.getElem?_eq_getElem hposition
    have hpage : pageText c = wholePage c.entries c.position c.entries[c.position] := by
      rw [pageText, hsolution, wholePage]
    rw [hpage] at htext
    obtain rfl := index_of_cut htext
    cases hsolution.symm.trans hsolution'
    refine ⟨_, hsolution, ?_⟩
    rw [← length_wholePage, ← htext]
    exact length_utf8substr_le
  · rintro ⟨solution, hsolution, hsize⟩
    have hpage : pageText c = wholePage c.entries c.position solution := by
      rw [pageText, hsolution, wholePage]
    refine ⟨_, c.position, solution, rfl, hsolution, ?_⟩
    rw [hpage, utf8substr_of_le]
    rw [length_wholePage]
    exact hsize

end Text

/-! ### What an event sends -/

section Sent

variable {parse : String → Except String Json} {s : Interactive} {u : Snowflake} {k : Option (Cursor Solution)}
  {e : UserEvent} {m : Message} {languageSlug body text : String}

@[simp] theorem pagesIn_append (xs ys : List Answer) : pagesIn (xs ++ ys) = pagesIn xs ++ pagesIn ys :=
  List.flatMap_append

private theorem pagesIn_cons (x : Answer) (xs : List Answer) : pagesIn (x :: xs) = pagesIn [x] ++ pagesIn xs :=
  pagesIn_append [x] xs

private theorem pagesSent_map (u : Snowflake) (answers : List Answer) :
    pagesSent (answers.map fun x => (u, x)) = (pagesIn answers).map fun d => (u, d) := by
  induction answers with
  | nil => rfl
  | cons x xs ih =>
    rw [List.map_cons, pagesIn_cons, List.map_append, ← ih]
    rfl

private theorem solutionsPages_of_embeds (h : m.embeds = []) : m.solutionsPages = [] := by
  simp [Message.solutionsPages, h]

private theorem pagesIn_of_plain {answers : List Answer} (h : ∀ x ∈ answers, x.Plain) : pagesIn answers = [] := by
  rw [pagesIn, List.flatMap_eq_nil_iff]
  intro x hx
  have hplain := h x hx
  cases x with
  | reply m => simpa [Answer.message] using solutionsPages_of_embeds hplain
  | thinking => rfl
  | requested r => rfl
  | updateMessage m => exact hplain.elim
  | editOriginal m => exact hplain.elim

private theorem pagesIn_handleSolutionsPageButton_own {pages : PerUserPage} (h : Represents pages u k) {id : String}
    {d : Direction} (hd : pageDirection id = some d) (howner : pageOwner id = some u) :
    pagesIn (handleSolutionsPageButton pages u id).2 = [utf8substr 4096 (pageText (d.move (accessed k)))] := by
  rw [(handleSolutionsPageButton_own h hd howner).2]
  rfl

/-- What is shown of a question has another title. -/
private theorem solutionsPages_of_readQuestionDescription (h : readQuestionDescription parse body = .ok m) :
    m.solutionsPages = [] := by
  unfold readQuestionDescription at h
  simp only [bind_eq_ok_iff] at h
  obtain ⟨response, -, data, -, h⟩ := h
  split at h
  · cases h
    rfl
  simp only [bind_eq_ok_iff] at h
  obtain ⟨problem, -, h⟩ := h
  split at h
  · cases h
    rfl
  simp only [bind_eq_ok_iff] at h
  obtain ⟨content, -, schemas, -, h⟩ := h
  split at h
  · cases h
    rfl
  · simp only [bind_eq_ok_iff, pure_eq_ok_iff] at h
    obtain ⟨embed, hloop, rfl⟩ := h
    have htitle : embed.title = "Problem Description" := by
      refine foldlM_invariant (I := fun e : Embed => e.title = "Problem Description") ?_ hloop rfl
      intro e schema e' hstep he
      obtain ⟨name, -, hname⟩ := bind_eq_ok_iff.1 hstep
      rw [← pure_eq_ok_iff.1 hname]
      exact he
    simp [Message.solutionsPages, Message.addEmbed, htitle]

private theorem pagesIn_onCompletion_description (parse : String → Except String Json) (s : Interactive)
    (u : Snowflake) (titleSlug : String) (n : Nat) (cc : HttpCompletion) :
    pagesIn (onCompletion parse s u (.description titleSlug n) cc).2 = [] := by
  simp only [onCompletion, fetchLeetCodeDailyQuestionDescription]
  by_cases hok : cc.status = 200
  · simp only [hok, beq_self_eq_true, if_true]
    cases hread : readQuestionDescription parse cc.body with
    | error what => rfl
    | ok m => simp [pagesIn, Answer.message, solutionsPages_of_readQuestionDescription hread]
  · simp only [hok, beq_iff_eq, if_false]
    by_cases hlim : rateLimited cc && n < 3
    · simp only [hlim, if_true]
      rfl
    · simp only [hlim, Bool.false_eq_true, if_false]
      rfl

private theorem pagesIn_completion {i : Nat} {cc : HttpCompletion}
    (h : storedBy parse u s (u, .completion i cc) = none) :
    pagesIn (interact parse s u (.completion i cc)).2 = [] := by
  simp only [interact]
  cases hk : (s.inflight u)[i]? with
  | none => rfl
  | some r =>
    cases r with
    | description titleSlug n => exact pagesIn_onCompletion_description _ _ _ _ _ _
    | solution titleSlug languageSlug n =>
      dsimp only
      rcases onCompletion_solution_cases parse u titleSlug languageSlug n cc with
        ⟨-, hstep⟩ | ⟨-, m, hm, hstep⟩ | ⟨solutions, hok, hread, -⟩
      · rw [hstep]
        rfl
      · rw [hstep]
        simp [pagesIn, Answer.message, solutionsPages_of_embeds hm]
      · rw [(storedBy_completion hk).2 ⟨hok, hread⟩] at h
        cases h

/-- The pages that an event sends: the first of the solutions that it stores, or the one that it turns to. -/
theorem pagesSent_interactStep (h : Represents s.pages e.1 k) :
    pagesSent (interactStep parse s e).2 =
      (((pageEvent parse e.1 s e).map fun x => (e.1, utf8substr 4096 (pageText (x.apply k)))).toList) := by
  obtain ⟨u, i⟩ := e
  cases hstored : storedBy parse u s (u, i) with
  | some solutions =>
    rw [answers_of_stored hstored]
    simp only [pageEvent, hstored, Option.elim_some]
    rfl
  | none =>
    rw [interactStep, pagesSent_map]
    simp only [pageEvent, hstored, Option.elim_none, Option.map_map]
    cases i with
    | selectLanguage selected =>
      rw [interact, pagesIn_of_plain (handleSolutionDropdown_pages s u selected).2]
      rfl
    | completion i cc =>
      rw [pagesIn_completion hstored]
      rfl
    | clickButton id =>
      obtain ⟨hpages, hplain⟩ := handleSolutionButtonClick_pages s u id
      simp only [interact, onButtonClick, pagesIn_append, pagesIn_of_plain hplain, List.nil_append, hpages]
      by_cases hturn : pageOwner id = some u
      · cases hd : pageDirection id with
        | none =>
          rw [pagesIn_of_plain (handleSolutionsPageButton_other (u := u) s.pages fun _ => hd).2]
          simp [ownTurn, hd]
        | some d =>
          rw [pagesIn_handleSolutionsPageButton_own h hd hturn]
          simp [ownTurn, hd, hturn, PageEvent.apply]
      · rw [pagesIn_of_plain (handleSolutionsPageButton_other s.pages fun h => absurd h hturn).2]
        simp [ownTurn, hturn]

end Sent

/-! ### When the pages fit -/

/-- An element of `solutions` at which the loop does not throw. -/
def Json.readableSolution (sol : Json) : Bool :=
  sol.required "title" isTextOrNull && sol.required "post" fun post => post.isNull ||
    (post.required "id" isInt && post.required "status" isTextOrNull && post.required "creationDate" isInt &&
      post.required "voteCount" isInt && post.required "content" isTextOrNull)

/-- The event completes a request for solutions with a response that has a list of them which is not empty and in
which everything that is read has its type; `solutions` are those with a post. -/
def Fetched (parse : String → Except String Json) (s : Interactive) (e : UserEvent) (solutions : List Solution) :
    Prop :=
  ∃ i cc titleSlug languageSlug n response v, e.2 = .completion i cc ∧
    (s.inflight e.1)[i]? = some (.solution titleSlug languageSlug n) ∧ cc.status = 200 ∧
    parse cc.body = .ok response ∧ response.path solutionsPath = some v ∧ v.empty = false ∧
    v.elements.all Json.readableSolution ∧ solutions = v.elements.filterMap (Json.solution languageSlug)

/-- When the event fetches solutions, there is a first one and its page fits; when it turns a page of the solutions
that are stored, there is one at the page a clamped step away, and its page fits. -/
structure ShowsFitting (parse : String → Except String Json) (s : Interactive) (e : UserEvent) : Prop where
  fetched : ∀ solutions, Fetched parse s e solutions → Fits solutions 0
  turned : ∀ d, ownTurn e.1 e = some d → Fits ((s.pages.userSolutionPages e.1).getD [])
    (clampedStep ((s.pages.userSolutionPages e.1).getD []).length ((s.pages.solutionCurrentPage e.1).getD 0) d)

section Fitting

variable {parse : String → Except String Json} {s : Interactive} {k : Option (Cursor Solution)} {e : UserEvent}
  {solutions : List Solution} {languageSlug : String} {sol : Json}

private theorem readableSolution_iff : sol.ReadableSolution languageSlug ↔ sol.readableSolution := by
  unfold Json.ReadableSolution readSolution Json.readableSolution
  simp only [bind_eq_ok_iff, Json.constIndex_eq_ok_iff, Json.required, Bool.and_eq_true, Option.any_eq_true,
    Bool.or_eq_true, ← Json.exists_getOr_iff, ← Json.exists_getInt_iff]
  constructor
  · rintro ⟨r, t, ht, title, htitle, post, hpost, h⟩
    refine ⟨⟨t, ht, title, htitle⟩, post, hpost, ?_⟩
    by_cases hnull : post.isNull
    · exact .inl hnull
    · simp only [hnull, Bool.false_eq_true, if_false, bind_eq_ok_iff, Json.constIndex_eq_ok_iff] at h
      obtain ⟨i, hi, id, hid, st, hst, status, hstatus, c, hc, creationDate, hdate, vc, hvc, voteCount, hvote,
        ct, hct, content, hcontent, -⟩ := h
      exact .inr ⟨⟨⟨⟨⟨i, hi, id, hid⟩, st, hst, status, hstatus⟩, c, hc, creationDate, hdate⟩, vc, hvc, voteCount,
        hvote⟩, ct, hct, content, hcontent⟩
  · rintro ⟨⟨t, ht, title, htitle⟩, post, hpost, h⟩
    by_cases hnull : post.isNull
    · exact ⟨none, t, ht, title, htitle, post, hpost, by simp [hnull, pure_eq_ok_iff]⟩
    · obtain ⟨⟨⟨⟨⟨i, hi, id, hid⟩, st, hst, status, hstatus⟩, c, hc, creationDate, hdate⟩, vc, hvc, voteCount, hvote⟩,
        ct, hct, content, hcontent⟩ := h.resolve_left hnull
      refine ⟨some ⟨title, removeNewLines content languageSlug, status, voteCount, id, creationDate⟩,
        t, ht, title, htitle, post, hpost, ?_⟩
      simp only [hnull, Bool.false_eq_true, if_false, bind_eq_ok_iff, Json.constIndex_eq_ok_iff]
      exact ⟨i, hi, id, hid, st, hst, status, hstatus, c, hc, creationDate, hdate, vc, hvc, voteCount, hvote, ct, hct,
        content, hcontent, rfl⟩

private theorem storedBy_eq_some_iff : storedBy parse e.1 s e = some solutions ↔ Fetched parse s e solutions := by
  have hread : ∀ slug body, readSolutions parse slug body = .ok (.inr solutions) ↔ ∃ response v,
      parse body = .ok response ∧ response.path solutionsPath = some v ∧ v.empty = false ∧
        v.elements.all Json.readableSolution ∧ solutions = v.elements.filterMap (Json.solution slug) := by
    intro slug body
    simp only [readSolutions_eq_ok_iff, readableSolution_iff, List.all_eq_true]
  constructor
  · intro h
    obtain ⟨i, cc, titleSlug, slug, n, he, hi⟩ := completion_of_stored h
    rw [he] at h
    obtain ⟨hok, hfound⟩ := (storedBy_completion hi).1 h
    obtain ⟨response, v, hrest⟩ := (hread slug cc.body).1 hfound
    exact ⟨i, cc, titleSlug, slug, n, response, v, congrArg Prod.snd he, hi, hok, hrest⟩
  · rintro ⟨i, cc, titleSlug, slug, n, response, v, he, hi, hok, hrest⟩
    have hcompletion : e = (e.1, .completion i cc) := Prod.ext rfl he
    rw [hcompletion]
    exact (storedBy_completion hi).2 ⟨hok, (hread slug cc.body).2 ⟨response, v, hrest⟩⟩

private theorem storedBy_eq_none_of_ownTurn {u : Snowflake} {d : Direction} (h : ownTurn u e = some d) :
    storedBy parse u s e = none := by
  obtain ⟨v, i⟩ := e
  cases i with
  | clickButton id => rfl
  | _ => cases h

/-- An event sends real pages exactly when the page that it shows fits. -/
private theorem sendsPages_iff (h : Represents s.pages e.1 k) : SendsPages parse s e ↔ ShowsFitting parse s e := by
  have hafter := (represents_step parse h e).1
  have hsends : SendsPages parse s e ↔
      ∀ x, pageEvent parse e.1 s e = some x → Fits (x.apply k).entries (x.apply k).position := by
    unfold SendsPages
    rw [pagesSent_interactStep h]
    cases hx : pageEvent parse e.1 s e with
    | none => simp
    | some x =>
      rw [hx] at hafter
      have hstored : ((interactStep parse s e).1.pages.userSolutionPages e.1).getD [] = (x.apply k).entries :=
        hafter.getD_solutions
      simp only [Option.map_some, Option.toList_some, List.mem_singleton, forall_eq, hstored, exists_isPage_iff,
        Option.some.injEq, forall_eq']
  -- the cursor after a turn, in terms of the maps
  have hturn : ∀ d : Direction, Fits (d.move (accessed k)).entries (d.move (accessed k)).position ↔
      Fits ((s.pages.userSolutionPages e.1).getD [])
        (clampedStep ((s.pages.userSolutionPages e.1).getD []).length
          ((s.pages.solutionCurrentPage e.1).getD 0) d) := by
    intro d
    rw [h.getD_solutions, h.getD_page, ← Direction.move_position, Direction.move_entries]
  rw [hsends]
  constructor
  · intro hfits
    refine ⟨fun solutions hfetched => ?_, fun d hd => (hturn d).1 ?_⟩
    · exact hfits (.stored solutions) (by simp [pageEvent, storedBy_eq_some_iff.2 hfetched])
    · exact hfits (.turned d) (by simp [pageEvent, storedBy_eq_none_of_ownTurn hd, hd])
  · rintro ⟨hfetched, hturned⟩ x hx
    cases hstored : storedBy parse e.1 s e with
    | some solutions =>
      simp only [pageEvent, hstored, Option.elim_some, Option.some.injEq] at hx
      subst hx
      exact hfetched solutions (storedBy_eq_some_iff.1 hstored)
    | none =>
      simp only [pageEvent, hstored, Option.elim_none, Option.map_eq_some_iff] at hx
      obtain ⟨d, hd, rfl⟩ := hx
      exact (hturn d).2 (hturned d hd)

/-- All pages that a run sends are real pages exactly when all pages that it shows fit. -/
theorem pages_sent_iff (parse : String → Except String Json) (es : List UserEvent) :
    EachStep (interactStep parse) (SendsPages parse) .initial es ↔
      EachStep (interactStep parse) (ShowsFitting parse) .initial es := by
  refine eachStep_congr (I := fun s => ∀ u, ∃ k, Represents s.pages u k) (fun s e h u => ?_) (fun s e h => ?_)
    (fun u => ⟨none, rfl, rfl⟩) es
  · obtain ⟨k, hk⟩ := h u
    exact ⟨_, (represents_step parse hk e).1⟩
  · obtain ⟨k, hk⟩ := h e.1
    exact sendsPages_iff hk

end Fitting

/-- A click on a button from before a restart shows the page 1 of 0. -/
theorem page_one_of_zero :
    ¬ EachStep (interactStep solutionsParse) (SendsPages solutionsParse) .initial
      [(1, .clickButton "solution_next_page:1")] := by
  rintro ⟨h, -⟩
  obtain ⟨p, hpage⟩ := h (1, "\nPage 1 / 0") (by decide +kernel)
  have hnone : ((interactStep solutionsParse .initial
      (1, .clickButton "solution_next_page:1")).1.pages.userSolutionPages 1).getD [] = [] := by decide +kernel
  have hlast := hpage.last
  rw [hnone] at hlast
  exact absurd (Nat.le_trans hpage.first hlast) (by decide)

end LeetBot
