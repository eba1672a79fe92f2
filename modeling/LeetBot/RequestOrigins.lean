import LeetBot.ClickAnswers
import LeetBot.CodeFences
import LeetBot.Paging

/-!
# Where requests for solutions come from

The language of a user is the last entry of the menu that the user has chosen, and every entry that the menu offers is
one that the bot knows.  A request that is in flight for a user was issued for a click of this user, with the slug of
the button and with the language that was chosen at the time of the click, however often it has been repeated and
whatever has been chosen since.
-/

namespace LeetBot

open EventMachine

/-- The language that the user sets with an event. -/
def selectionOf (u : Snowflake) (e : UserEvent) : Option String :=
  match e.2 with
  | .selectLanguage selected => if e.1 = u then dropdownMap.lookup selected else none
  | _ => none

/-- The language that the user has set last. -/
def chosenLanguage (u : Snowflake) (es : List UserEvent) : Option String := (es.filterMap (selectionOf u)).getLast?

/-- The request that a click on a button of the daily question issues, by the language chosen before. -/
def clickRequest (language : Option String) (customId : String) : Option ButtonRequest :=
  if startsWith customId "solution_id:" then
    language.map fun languageSlug => .solution (slugOf customId "solution_id:") languageSlug 0
  else if startsWith customId "description_id:" then some (.description (slugOf customId "description_id:") 0)
  else none

/-- The request was issued for a click among the events. -/
def IssuedBy (u : Snowflake) (es : List UserEvent) (r : ButtonRequest) : Prop :=
  ∃ past customId future, es = past ++ (u, .clickButton customId) :: future ∧
    clickRequest (chosenLanguage u past) customId = some r

section Events

variable {u v : Snowflake} {es : List UserEvent} {e : UserEvent} {r : ButtonRequest} {i : Interaction}

private theorem chosenLanguage_concat :
    chosenLanguage u (es ++ [e]) = (selectionOf u e).or (chosenLanguage u es) := by
  unfold chosenLanguage
  rw [List.filterMap_append, List.getLast?_append]
  congr 1
  cases h : selectionOf u e <;> simp [h]

private theorem selectionOf_of_ne (h : v ≠ u) : selectionOf u (v, i) = none := by
  unfold selectionOf
  cases i <;> simp [h]

private theorem IssuedBy.concat (h : IssuedBy u es r) : IssuedBy u (es ++ [e]) r := by
  obtain ⟨past, customId, future, rfl, hr⟩ := h
  exact ⟨past, customId, future ++ [e], by simp, hr⟩

/-- The slugs of the menu. -/
private theorem mem_offeredSlugs_of_selectionOf {slug : String} (h : selectionOf u e = some slug) :
    slug ∈ offeredSlugs := by
  have hlookup : ∀ (m : List (String × String)) (selected : String), m.lookup selected = some slug →
      slug ∈ m.map Prod.snd := by
    intro m selected
    induction m with
    | nil => intro hm; cases hm
    | cons entry m ih =>
      obtain ⟨name, slug'⟩ := entry
      intro hm
      rw [List.lookup_cons] at hm
      split at hm
      · cases hm
        exact List.mem_cons_self
      · exact List.mem_cons_of_mem _ (ih hm)
  unfold selectionOf at h
  split at h
  · split at h
    · exact hlookup _ _ h
    · cases h
  · cases h

private theorem mem_offeredSlugs_of_chosen {slug : String} (h : chosenLanguage u es = some slug) :
    slug ∈ offeredSlugs := by
  have hmem := List.mem_of_getLast? h
  obtain ⟨e, -, he⟩ := List.mem_filterMap.1 hmem
  exact mem_offeredSlugs_of_selectionOf he

end Events

/-! ### One event -/

section Step

variable {parse : String → Except String Json} {s : Interactive} {u v : Snowflake} {es : List UserEvent}

private theorem handleSolutionButtonClick_request (s : Interactive) (u : Snowflake) (customId : String) :
    (∃ r, clickRequest (s.userLanguageMap u) customId = some r ∧
        handleSolutionButtonClick s u customId = (s.issue u r, [.thinking, .requested r])) ∨
      (handleSolutionButtonClick s u customId).1 = s := by
  unfold handleSolutionButtonClick clickRequest
  split
  · split
    · exact .inr rfl
    · rename_i languageSlug h
      exact .inl ⟨_, by rw [h]; rfl, rfl⟩
  · split
    · exact .inl ⟨_, rfl, rfl⟩
    · exact .inr rfl

/-- The language of a user changes with the own selections only. -/
private theorem interact_language (parse : String → Except String Json) (s : Interactive) (u : Snowflake)
    (i : Interaction) :
    (interact parse s u i).1.userLanguageMap u = (selectionOf u (u, i)).or (s.userLanguageMap u) := by
  cases i with
  | selectLanguage selected =>
    simp only [interact, handleSolutionDropdown, selectionOf, if_true]
    cases dropdownMap.lookup selected with
    | none => rfl
    | some slug => simp
  | clickButton customId =>
    simp only [interact, onButtonClick, selectionOf, Option.none_or]
    rcases handleSolutionButtonClick_request s u customId with ⟨r, -, h⟩ | h
    · rw [h]
      rfl
    · rw [h]
  | completion k cc =>
    simp only [interact, selectionOf, Option.none_or]
    cases (s.inflight u)[k]? with
    | none => rfl
    | some r =>
      rcases onCompletion_cases parse u r cc with hstep | hstep
      · simp only [hstep, Interactive.issue]
      · obtain ⟨pages, m, hstep⟩ := hstep { s with
          inflight := Function.update s.inflight u ((s.inflight u).eraseIdx k) }
        simp only [hstep]

/-- A request that is in flight after an event was in flight before, or it has been issued for this click. -/
private theorem mem_inflight_interact {r : ButtonRequest} {i : Interaction}
    (h : r ∈ (interact parse s u i).1.inflight u) :
    r ∈ s.inflight u ∨ ∃ customId, i = .clickButton customId ∧
      clickRequest (s.userLanguageMap u) customId = some r := by
  cases i with
  | selectLanguage selected =>
    simp only [interact, handleSolutionDropdown] at h
    split at h <;> exact .inl h
  | clickButton customId =>
    simp only [interact, onButtonClick] at h
    rcases handleSolutionButtonClick_request s u customId with ⟨r', hr', hstep⟩ | hstep
    · rw [hstep] at h
      simp only [Interactive.issue, Function.update_self, List.mem_append, List.mem_singleton] at h
      rcases h with h | rfl
      · exact .inl h
      · exact .inr ⟨customId, rfl, hr'⟩
    · rw [hstep] at h
      exact .inl h
  | completion k cc =>
    simp only [interact] at h
    cases hr : (s.inflight u)[k]? with
    | none =>
      rw [hr] at h
      exact .inl h
    | some r' =>
      rw [hr] at h
      rcases onCompletion_cases parse u r' cc with hstep | hstep
      · simp only [hstep, Interactive.issue, Function.update_self, List.mem_append, List.mem_singleton] at h
        rcases h with h | rfl
        · exact .inl (List.mem_of_mem_eraseIdx h)
        · exact .inl (List.mem_of_getElem? hr)
      · obtain ⟨pages, m, hstep⟩ := hstep { s with
          inflight := Function.update s.inflight u ((s.inflight u).eraseIdx k) }
        simp only [hstep, Function.update_self] at h
        exact .inl (List.mem_of_mem_eraseIdx h)

end Step

/-! ### Runs -/

/-- The languages and the requests of all users are what their events say. -/
structure Accounted (es : List UserEvent) (s : Interactive) : Prop where
  language : ∀ u, s.userLanguageMap u = chosenLanguage u es
  issued : ∀ u, ∀ r ∈ s.inflight u, IssuedBy u es r

private theorem accounted_step {parse : String → Except String Json} {es : List UserEvent} {s : Interactive}
    (h : Accounted es s) (e : UserEvent) : Accounted (es ++ [e]) (interactStep parse s e).1 := by
  obtain ⟨v, i⟩ := e
  constructor
  · intro u
    rw [chosenLanguage_concat, ← h.language u]
    by_cases hv : v = u
    · subst hv
      exact interact_language parse s v i
    · rw [selectionOf_of_ne hv, Option.none_or]
      exact congrArg UserView.language (viewOf_interact (s := s) hv parse i)
  · intro u r hr
    by_cases hv : v = u
    · subst hv
      rcases mem_inflight_interact hr with hold | ⟨customId, rfl, hclick⟩
      · exact (h.issued v r hold).concat
      · refine ⟨es, customId, [], rfl, ?_⟩
        rw [← h.language v]
        exact hclick
    · have hview : (interactStep parse s (v, i)).1.inflight u = s.inflight u :=
        congrArg UserView.inflight (viewOf_interact (s := s) hv parse i)
      rw [hview] at hr
      exact (h.issued u r hr).concat

theorem accounted_run (parse : String → Except String Json) (es : List UserEvent) :
    Accounted es (run (interactStep parse) .initial es).1 := by
  have hinitial : Accounted [] .initial := by
    constructor
    · intro u
      rfl
    · intro u r hr
      cases hr
  apply run_induction (interactStep parse) hinitial
  intro past e hpast
  exact accounted_step hpast e

/-- In every run, the language of a user is the last one that the user has chosen from the menu, and a request in
flight was issued for a click of the user, with the language chosen before that click. -/
theorem requests_issued (parse : String → Except String Json) (es : List UserEvent) (u : Snowflake) :
    (run (interactStep parse) .initial es).1.userLanguageMap u = chosenLanguage u es ∧
      (∀ r ∈ (run (interactStep parse) .initial es).1.inflight u, IssuedBy u es r) ∧
      ∀ titleSlug languageSlug n,
        .solution titleSlug languageSlug n ∈ (run (interactStep parse) .initial es).1.inflight u →
          languageSlug ∈ offeredSlugs := by
  have hrun := accounted_run parse es
  refine ⟨hrun.language u, hrun.issued u, ?_⟩
  intro titleSlug languageSlug n hmem
  obtain ⟨past, customId, future, -, hr⟩ := hrun.issued u _ hmem
  unfold clickRequest at hr
  split at hr
  · obtain ⟨slug, hslug, heq⟩ := Option.map_eq_some_iff.1 hr
    cases heq
    exact mem_offeredSlugs_of_chosen hslug
  · split at hr
    · cases hr
    · cases hr

/-! ### A choice and a click -/

private theorem languages_eq : languages = dropdownMap.map Prod.fst := rfl

private theorem chosenLanguage_append {u : Snowflake} {es es' : List UserEvent}
    (h : ∀ e ∈ es', selectionOf u e = none) :
    chosenLanguage u (es ++ es') = chosenLanguage u es := by
  unfold chosenLanguage
  rw [List.filterMap_append, List.filterMap_eq_nil_iff.2 h, List.append_nil]

/-- A user who chooses any entry of the menu and later, without having chosen another one, clicks a button for
solutions, has the solutions requested in that language, whatever has happened before and in between. -/
theorem click_after_choice (parse : String → Except String Json) (es es' : List UserEvent) (u : Snowflake)
    {selected customId : String} (hmenu : selected ∈ languages) (hsame : ∀ e ∈ es', selectionOf u e = none)
    (hid : startsWith customId "solution_id:" = true) :
    ∃ languageSlug, dropdownMap.lookup selected = some languageSlug ∧
      (interactStep parse (run (interactStep parse) .initial (es ++ (u, .selectLanguage selected) :: es')).1
          (u, .clickButton customId)).2 =
        [(u, .thinking), (u, .requested (.solution (slugOf customId "solution_id:") languageSlug 0))] := by
  obtain ⟨languageSlug, hslug⟩ : ∃ languageSlug, dropdownMap.lookup selected = some languageSlug := by
    rw [languages_eq] at hmenu
    cases h : dropdownMap.lookup selected with
    | some slug => exact ⟨slug, rfl⟩
    | none =>
      obtain ⟨entry, hentry, rfl⟩ := List.mem_map.1 hmenu
      have hne := List.lookup_eq_none_iff.1 h entry hentry
      simp at hne
  refine ⟨languageSlug, hslug, ?_⟩
  have hchosen : chosenLanguage u (es ++ (u, .selectLanguage selected) :: es') = some languageSlug := by
    rw [List.append_cons, chosenLanguage_append hsame, chosenLanguage_concat]
    simp [selectionOf, hslug]
  generalize es ++ (u, .selectLanguage selected) :: es' = all at hchosen
  have hlanguage := (accounted_run parse all).language u
  rw [hchosen] at hlanguage
  generalize (run (interactStep parse) .initial all).1 = s at hlanguage
  have hclick : handleSolutionButtonClick s u customId =
      (s.issue u (.solution (slugOf customId "solution_id:") languageSlug 0),
        [.thinking, .requested (.solution (slugOf customId "solution_id:") languageSlug 0)]) := by
    simp only [handleSolutionButtonClick, hid, if_true, hlanguage]
  have hpage : pageDirection customId = none := by
    cases hd : pageDirection customId with
    | none => rfl
    | some d =>
      rw [handleSolutionButtonClick_of_pageDirection hd] at hclick
      cases congrArg Prod.snd hclick
  simp [interactStep, interact, onButtonClick, hclick, handleSolutionsPageButton, hpage]

/-- A user chooses C++, another user chooses Rust, and the first one asks for the solutions of a question. -/
theorem click_after_choice_cpp :
    ∃ languageSlug, dropdownMap.lookup "C++" = some languageSlug ∧
      (interactStep solutionsParse
          (run (interactStep solutionsParse) .initial ([] ++ (1, .selectLanguage "C++") ::
            [(2, .selectLanguage "Rust")])).1
          (1, .clickButton "solution_id:two-sum")).2 =
        [(1, .thinking),
          (1, .requested (.solution (slugOf "solution_id:two-sum" "solution_id:") languageSlug 0))] := by
  have hsame : ∀ e ∈ [((2 : Snowflake), Interaction.selectLanguage "Rust")], selectionOf 1 e = none := by
    intro e he
    rw [List.mem_singleton.1 he]
    rfl
  exact click_after_choice solutionsParse [] _ 1 List.mem_cons_self hsame (by decide)

end LeetBot
