import LeetBot.EventMachine
import LeetBot.Handlers

/-!
# Users do not interfere

The language map, the two page maps and the requests in flight are shared by all users, and any user may click a
button that carries the id of another.  Yet every handler writes only the entries of the user who caused the event,
reads only these, and answers only that user, so each user is separated from the others.
-/

namespace LeetBot

open EventMachine

/-- What belongs to one user. -/
@[ext] structure UserView where
  language : Option String
  solutions : Option (List Solution)
  currentPage : Option Int
  inflight : List ButtonRequest

def Interactive.viewOf (a : Snowflake) (s : Interactive) : UserView where
  language := s.userLanguageMap a
  solutions := s.pages.userSolutionPages a
  currentPage := s.pages.solutionCurrentPage a
  inflight := s.inflight a

/-- An event of the whole bot: who causes it, and what it is. -/
abbrev UserEvent := Snowflake × Interaction

/-- An event, with every answer addressed to the user who caused it. -/
def interactStep (parse : String → Except String Json) (s : Interactive) (e : UserEvent) :
    Interactive × List (Snowflake × Answer) :=
  ((interact parse s e.1 e.2).1, (interact parse s e.1 e.2).2.map fun x => (e.1, x))

section Frame

variable {s : Interactive} {a u : Snowflake} (h : u ≠ a)

include h

private theorem viewOf_issue (r : ButtonRequest) : (s.issue u r).viewOf a = s.viewOf a := by
  simp [Interactive.viewOf, Interactive.issue, Function.update_of_ne (Ne.symm h)]

private theorem viewOf_store (sols : List Solution) :
    ({ s with pages := s.pages.store u sols } : Interactive).viewOf a = s.viewOf a := by
  simp [Interactive.viewOf, PerUserPage.store, Function.update_of_ne (Ne.symm h)]

private theorem viewOf_handleSolutionButtonClick (customId : String) :
    (handleSolutionButtonClick s u customId).1.viewOf a = s.viewOf a := by
  unfold handleSolutionButtonClick
  split
  · split
    · rfl
    · exact viewOf_issue h _
  · split
    · exact viewOf_issue h _
    · rfl

private theorem viewOf_handleSolutionsPageButton (id : String) :
    ({ s with pages := (handleSolutionsPageButton s.pages u id).1 } : Interactive).viewOf a = s.viewOf a := by
  unfold handleSolutionsPageButton
  split
  · rfl
  · split
    · rfl
    · split
      · rfl
      · rename_i userId _ hown
        obtain rfl : u = userId := not_not.1 hown
        simp only
        split <;> simp [Interactive.viewOf, Function.update_of_ne (Ne.symm h)]

private theorem viewOf_onCompletion (parse : String → Except String Json) (r : ButtonRequest) (cc : HttpCompletion) :
    (onCompletion parse s u r cc).1.viewOf a = s.viewOf a := by
  cases r with
  | solution titleSlug languageSlug retryCount =>
    rcases onCompletion_solution_cases parse u titleSlug languageSlug retryCount cc with
      ⟨-, hstep⟩ | ⟨-, m, -, hstep⟩ | ⟨solutions, -, -, hstep⟩
    · rw [hstep]
      exact viewOf_issue h _
    · rw [hstep]
    · rw [hstep]
      exact viewOf_store h _
  | description titleSlug retryCount =>
    simp only [onCompletion]
    split
    · exact viewOf_issue h _
    · rfl

theorem viewOf_interact (parse : String → Except String Json) (i : Interaction) :
    (interact parse s u i).1.viewOf a = s.viewOf a := by
  cases i with
  | selectLanguage selected =>
    simp only [interact, handleSolutionDropdown]
    split
    · simp [Interactive.viewOf, Function.update_of_ne (Ne.symm h)]
    · rfl
  | clickButton customId =>
    simp only [interact, onButtonClick]
    rw [viewOf_handleSolutionsPageButton h, viewOf_handleSolutionButtonClick h]
  | completion k cc =>
    simp only [interact]
    split
    · rfl
    · rw [viewOf_onCompletion h]
      simp [Interactive.viewOf, Function.update_of_ne (Ne.symm h)]

end Frame

section Own

variable {s t : Interactive} {u : Snowflake}

/-- The two outcomes show user `u` the same. -/
private def SameFor (u : Snowflake) (x y : Interactive × List Answer) : Prop :=
  x.1.viewOf u = y.1.viewOf u ∧ x.2 = y.2

private theorem viewOf_eq_iff : s.viewOf u = t.viewOf u ↔
    s.userLanguageMap u = t.userLanguageMap u ∧ s.pages.userSolutionPages u = t.pages.userSolutionPages u ∧
      s.pages.solutionCurrentPage u = t.pages.solutionCurrentPage u ∧ s.inflight u = t.inflight u := by
  simp [Interactive.viewOf, UserView.ext_iff]

private theorem SameFor.issue (h : s.viewOf u = t.viewOf u) (r : ButtonRequest) (as : List Answer) :
    SameFor u (s.issue u r, as) (t.issue u r, as) := by
  obtain ⟨h1, h2, h3, h4⟩ := viewOf_eq_iff.1 h
  refine ⟨?_, rfl⟩
  simp [Interactive.viewOf, Interactive.issue, h1, h2, h3, h4]

private theorem sameFor_handleSolutionButtonClick (h : s.viewOf u = t.viewOf u) (customId : String) :
    SameFor u (handleSolutionButtonClick s u customId) (handleSolutionButtonClick t u customId) := by
  have hlang : s.userLanguageMap u = t.userLanguageMap u := (viewOf_eq_iff.1 h).1
  unfold handleSolutionButtonClick
  rw [hlang]
  split
  · split
    · exact ⟨h, rfl⟩
    · exact .issue h _ _
  · split
    · exact .issue h _ _
    · exact ⟨h, rfl⟩

private theorem sameFor_handleSolutionsPageButton (h : s.viewOf u = t.viewOf u) (id : String) :
    SameFor u ({ s with pages := (handleSolutionsPageButton s.pages u id).1 },
        (handleSolutionsPageButton s.pages u id).2)
      ({ t with pages := (handleSolutionsPageButton t.pages u id).1 },
        (handleSolutionsPageButton t.pages u id).2) := by
  obtain ⟨h1, h2, h3, h4⟩ := viewOf_eq_iff.1 h
  unfold handleSolutionsPageButton
  split
  · exact ⟨h, rfl⟩
  · split
    · exact ⟨h, rfl⟩
    · split
      · exact ⟨h, rfl⟩
      · rename_i userId _ hown
        obtain rfl : u = userId := not_not.1 hown
        simp only [h2, h3]
        split <;> refine ⟨?_, rfl⟩ <;> simp [Interactive.viewOf, h1, h4]

private theorem sameFor_onCompletion (parse : String → Except String Json) (h : s.viewOf u = t.viewOf u)
    (r : ButtonRequest) (cc : HttpCompletion) :
    SameFor u (onCompletion parse s u r cc) (onCompletion parse t u r cc) := by
  obtain ⟨h1, h2, h3, h4⟩ := viewOf_eq_iff.1 h
  cases r with
  | solution titleSlug languageSlug retryCount =>
    rcases onCompletion_solution_cases parse u titleSlug languageSlug retryCount cc with
      ⟨-, hstep⟩ | ⟨-, m, -, hstep⟩ | ⟨solutions, -, -, hstep⟩
    · rw [hstep, hstep]
      exact .issue h _ _
    · rw [hstep, hstep]
      exact ⟨h, rfl⟩
    · rw [hstep, hstep]
      refine ⟨?_, rfl⟩
      simp [Interactive.viewOf, PerUserPage.store, h1, h4]
  | description titleSlug retryCount =>
    simp only [onCompletion]
    split
    · exact .issue h _ _
    · exact ⟨h, rfl⟩

/-- The effect of an event on its user depends only on what belongs to that user. -/
private theorem sameFor_interact (parse : String → Except String Json) (h : s.viewOf u = t.viewOf u)
    (i : Interaction) : SameFor u (interact parse s u i) (interact parse t u i) := by
  obtain ⟨h1, h2, h3, h4⟩ := viewOf_eq_iff.1 h
  cases i with
  | selectLanguage selected =>
    simp only [interact, handleSolutionDropdown]
    split
    · refine ⟨?_, rfl⟩
      simp [Interactive.viewOf, h2, h3, h4]
    · exact ⟨h, rfl⟩
  | clickButton customId =>
    simp only [interact, onButtonClick]
    obtain ⟨hv, ha⟩ := sameFor_handleSolutionButtonClick h customId
    obtain ⟨hv', ha'⟩ := sameFor_handleSolutionsPageButton hv customId
    exact ⟨hv', congrArg₂ _ ha ha'⟩
  | completion k cc =>
    simp only [interact, h4]
    split
    · exact ⟨h, rfl⟩
    · refine sameFor_onCompletion parse ?_ _ cc
      simp [Interactive.viewOf, h1, h2, h3]

end Own

private theorem separated_interactStep (parse : String → Except String Json) (a : Snowflake) :
    Separated (interactStep parse) Prod.fst Prod.fst (Interactive.viewOf a) a where
  others s e he := by
    refine ⟨viewOf_interact he parse e.2, ?_⟩
    intro o ho
    obtain ⟨x, -, rfl⟩ := List.mem_map.1 ho
    exact he
  own s t e he h := by
    subst he
    obtain ⟨hv, ha⟩ := sameFor_interact parse h e.2
    exact ⟨hv, congrArg (List.map _) ha⟩

/-- Deleting from a run the events of the others changes neither a user's language, stored solutions, current page
and requests in flight, nor any reply the user receives or request made for the user. -/
theorem run_filter_own_events (parse : String → Except String Json) (a : Snowflake) (s : Interactive)
    (es : List UserEvent) :
    (run (interactStep parse) s es).1.viewOf a =
        (run (interactStep parse) s (es.filter fun e => e.1 = a)).1.viewOf a ∧
      (run (interactStep parse) s es).2.filter (fun o => o.1 = a) =
        (run (interactStep parse) s (es.filter fun e => e.1 = a)).2.filter fun o => o.1 = a :=
  (separated_interactStep parse a).run_filter rfl es

end LeetBot
