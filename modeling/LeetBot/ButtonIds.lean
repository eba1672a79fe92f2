import LeetBot.SolutionMessages

/-!
# What a button carries

A button is created with an id that names an operation and its argument, the library keeps the first 100 code points
of the id, and a click hands them to `onButtonClick`, which reads the operation and its argument back.

The id of a page button is short enough for every user.  The id of a button of the daily question is cut when the
slug is too long, and a click then asks for the beginning of the slug.
-/

namespace LeetBot

/-- A slug that does not begin with a space. -/
structure TitleSlug where
  text : String
  head_ne : text.toList.head? ≠ some ' '

/-- What a button is for. -/
inductive ButtonTarget where
  | solution (titleSlug : TitleSlug)
  | description (titleSlug : TitleSlug)
  | page (owner : Snowflake) (d : Direction)

/-- The id that the library keeps for a button. -/
def ButtonTarget.customId : ButtonTarget → String
  | solution titleSlug => utf8substr 100 ("solution_id:" ++ titleSlug.text)
  | description titleSlug => utf8substr 100 ("description_id:" ++ titleSlug.text)
  | page owner d => pageButtonId owner d

/-- What a click starts. -/
inductive ButtonOperation where
  | solutionRequest (titleSlug : String)
  | descriptionRequest (titleSlug : String)
  | pageTurn (owner : Snowflake) (d : Direction)
deriving DecidableEq

/-- The operation that a button is meant to start. -/
def ButtonTarget.operation : ButtonTarget → ButtonOperation
  | solution titleSlug => .solutionRequest titleSlug.text
  | description titleSlug => .descriptionRequest titleSlug.text
  | page owner d => .pageTurn owner d

/-- What `handleSolutionButtonClick` reads off an id. -/
def requestsOf (customId : String) : List ButtonOperation :=
  if startsWith customId "solution_id:" then [.solutionRequest (slugOf customId "solution_id:")]
  else if startsWith customId "description_id:" then [.descriptionRequest (slugOf customId "description_id:")]
  else []

/-- What `handleSolutionsPageButton` reads off an id; `none` when `std::stoull` throws. -/
def pageTurnsOf (customId : String) : Option (List ButtonOperation) :=
  match pageDirection customId with
  | none => some []
  | some d => (pageOwner customId).map fun owner => [.pageTurn owner d]

/-- The operations that a click on a button with the given id starts, in their order. -/
def operationsOf (customId : String) : Option (List ButtonOperation) :=
  (pageTurnsOf customId).map (requestsOf customId ++ ·)

/-- An operation for a click of a user. -/
def ButtonOperation.perform (s : Interactive) (userId : Snowflake) : ButtonOperation → Interactive × List Answer
  | solutionRequest titleSlug =>
    match s.userLanguageMap userId with
    | none => (s, [.reply (Message.text
        "Please choose a programming language from the language selection menu.").setEphemeral])
    | some languageSlug =>
        let r := .solution titleSlug languageSlug 0
        (s.issue userId r, [.thinking, .requested r])
  | descriptionRequest titleSlug =>
    let r := .description titleSlug 0
    (s.issue userId r, [.thinking, .requested r])
  | pageTurn owner d =>
    if userId ≠ owner then
      (s, [.reply (Message.text "These buttons are not for you.").setEphemeral])
    else
      let solutions := (s.pages.userSolutionPages owner).getD []
      let currentPage := turnPage solutions.length ((s.pages.solutionCurrentPage owner).getD 0) d
      let pages : PerUserPage := {
        userSolutionPages := Function.update s.pages.userSolutionPages owner (some solutions)
        solutionCurrentPage := Function.update s.pages.solutionCurrentPage owner (some currentPage) }
      ({ s with pages },
        ((buildSolutionsPage solutions currentPage).map fun newContent =>
          .updateMessage (pageMessage .brightGold owner newContent)).toList)

/-- Operations one after the other. -/
def performAll (userId : Snowflake) : List ButtonOperation → Interactive → Interactive × List Answer
  | [], s => (s, [])
  | op :: ops, s =>
    let (s, answers) := op.perform s userId
    let (s, answers') := performAll userId ops s
    (s, answers ++ answers')

/-! ### Clicks -/

section Clicks

variable {u : Snowflake} {customId : String} {ops : List ButtonOperation}

@[simp] theorem performAll_singleton (op : ButtonOperation) (s : Interactive) :
    performAll u [op] s = op.perform s u := by
  simp [performAll]

private theorem performAll_append (ops ops' : List ButtonOperation) (s : Interactive) :
    performAll u (ops ++ ops') s =
      ((performAll u ops' (performAll u ops s).1).1,
        (performAll u ops s).2 ++ (performAll u ops' (performAll u ops s).1).2) := by
  induction ops generalizing s with
  | nil => rfl
  | cons op ops ih => simp only [List.cons_append, performAll, ih, List.append_assoc]

private theorem handleSolutionButtonClick_eq (s : Interactive) (u : Snowflake) (customId : String) :
    handleSolutionButtonClick s u customId = performAll u (requestsOf customId) s := by
  unfold handleSolutionButtonClick requestsOf
  split
  · rw [performAll_singleton]
    unfold ButtonOperation.perform
    cases s.userLanguageMap u <;> rfl
  split
  · rw [performAll_singleton, ButtonOperation.perform]
  · rfl

private theorem handleSolutionsPageButton_eq (h : pageTurnsOf customId = some ops) (s : Interactive) :
    ({ s with pages := (handleSolutionsPageButton s.pages u customId).1 },
      (handleSolutionsPageButton s.pages u customId).2) = performAll u ops s := by
  unfold pageTurnsOf at h
  unfold handleSolutionsPageButton
  cases hdirection : pageDirection customId with
  | none =>
    rw [hdirection] at h
    cases h
    rfl
  | some d =>
    rw [hdirection] at h
    obtain ⟨owner, howner, rfl⟩ := Option.map_eq_some_iff.1 h
    simp only [howner, performAll_singleton, ButtonOperation.perform]
    by_cases hu : u ≠ owner
    · rw [if_pos hu, if_pos hu]
    · rw [if_neg hu, if_neg hu]
      cases buildSolutionsPage ((s.pages.userSolutionPages owner).getD [])
        (turnPage ((s.pages.userSolutionPages owner).getD []).length ((s.pages.solutionCurrentPage owner).getD 0) d)
        <;> rfl

/-- A click starts the operations that are read off the id, whatever the state is. -/
theorem onButtonClick_of_operationsOf (h : operationsOf customId = some ops) (s : Interactive) :
    onButtonClick s u customId = performAll u ops s := by
  obtain ⟨turns, hturns, rfl⟩ := Option.map_eq_some_iff.1 h
  rw [performAll_append, ← handleSolutionsPageButton_eq hturns, ← handleSolutionButtonClick_eq]
  unfold onButtonClick
  generalize handleSolutionButtonClick s u customId = first
  obtain ⟨s, answers⟩ := first
  with_reducible rfl

end Clicks

/-! ### Ids -/

/-- What is left of the operation in the id of the button. -/
def ButtonTarget.kept : ButtonTarget → ButtonOperation
  | solution titleSlug => .solutionRequest (utf8substr 88 titleSlug.text)
  | description titleSlug => .descriptionRequest (utf8substr 85 titleSlug.text)
  | page owner d => .pageTurn owner d

/-- The id of the button is short enough to be kept. -/
def ButtonTarget.Fits : ButtonTarget → Prop
  | solution titleSlug => titleSlug.text.length ≤ 88
  | description titleSlug => titleSlug.text.length ≤ 85
  | page _ _ => True

/-- A click on the button, by any user and in any state, starts the operation that the button is meant for, nothing
else, and does not throw. -/
def ButtonTarget.Carried (t : ButtonTarget) : Prop :=
  operationsOf t.customId = some [t.operation] ∧
    ∀ s u, onButtonClick s u t.customId = t.operation.perform s u

section Ids

variable {text pre : String} {n : Nat}

theorem utf8substr_append (h : pre.toList.length ≤ n) :
    utf8substr n (pre ++ text) = pre ++ utf8substr (n - pre.toList.length) text := by
  rw [← String.toList_inj, toList_utf8substr, String.toList_append, String.toList_append, toList_utf8substr,
    List.take_append, List.take_of_length_le h]

private theorem utf8substr_eq_self_iff : utf8substr n text = text ↔ text.length ≤ n := by
  refine ⟨fun h => ?_, utf8substr_of_le⟩
  rw [← h]
  exact length_utf8substr_le

theorem startsWith_append (pre text : String) : startsWith (pre ++ text) pre := by
  simp [startsWith]

private theorem slugOf_append (h : text.toList.head? ≠ some ' ') : slugOf (pre ++ text) pre = text := by
  have hdrop : (pre ++ text).toList.drop pre.length = text.toList := by
    rw [String.toList_append, ← String.length_toList, List.drop_left]
  have hspaces : text.toList.dropWhile (· == ' ') = text.toList := by
    cases hlist : text.toList with
    | nil => rfl
    | cons c cs =>
      rw [hlist] at h
      exact List.dropWhile_cons_of_neg (by simpa using h)
  rw [slugOf, hdrop, hspaces, String.ofList_toList]

private theorem TitleSlug.head?_utf8substr_ne (titleSlug : TitleSlug) (n : Nat) :
    (utf8substr n titleSlug.text).toList.head? ≠ some ' ' := by
  rw [toList_utf8substr, List.head?_take]
  split
  · exact nofun
  · exact titleSlug.head_ne

/-- A click starts one operation, that of the button with what is left of its argument. -/
theorem operationsOf_customId (t : ButtonTarget) : operationsOf t.customId = some [t.kept] := by
  cases t with
  | solution titleSlug =>
    have hid : (ButtonTarget.solution titleSlug).customId = "solution_id:" ++ utf8substr 88 titleSlug.text :=
      utf8substr_append (by decide)
    have hdirection : pageDirection ("solution_id:" ++ utf8substr 88 titleSlug.text) = none := by
      simp [pageDirection, startsWith]
    rw [hid, operationsOf, pageTurnsOf, hdirection, requestsOf, if_pos (startsWith_append _ _),
      slugOf_append (titleSlug.head?_utf8substr_ne 88)]
    rfl
  | description titleSlug =>
    have hid : (ButtonTarget.description titleSlug).customId =
        "description_id:" ++ utf8substr 85 titleSlug.text := utf8substr_append (by decide)
    have hdirection : pageDirection ("description_id:" ++ utf8substr 85 titleSlug.text) = none := by
      simp [pageDirection, startsWith]
    have hsolution : ¬ startsWith ("description_id:" ++ utf8substr 85 titleSlug.text) "solution_id:" := by
      simp [startsWith]
    rw [hid, operationsOf, pageTurnsOf, hdirection, requestsOf, if_neg hsolution, if_pos (startsWith_append _ _),
      slugOf_append (titleSlug.head?_utf8substr_ne 85)]
    rfl
  | page owner d =>
    obtain ⟨howner, hdirection⟩ := read_pageButtonId owner d
    have hrequests : requestsOf (pageButtonId owner d) = [] := by
      cases d <;> simp [requestsOf, pageButtonId, startsWith, toList_utf8substr]
    rw [ButtonTarget.customId, operationsOf, pageTurnsOf, hdirection, hrequests, howner]
    rfl

private theorem kept_eq_operation_iff (t : ButtonTarget) : t.kept = t.operation ↔ t.Fits := by
  cases t with
  | solution titleSlug => exact (ButtonOperation.solutionRequest.injEq _ _).to_iff.trans utf8substr_eq_self_iff
  | description titleSlug => exact (ButtonOperation.descriptionRequest.injEq _ _).to_iff.trans utf8substr_eq_self_iff
  | page owner d => exact iff_of_true rfl trivial

end Ids

/-- A button carries its target exactly when the id is short enough to be kept. -/
theorem carried_iff_fits (t : ButtonTarget) : t.Carried ↔ t.Fits := by
  rw [← kept_eq_operation_iff, ButtonTarget.Carried, operationsOf_customId]
  constructor
  · rintro ⟨hops, -⟩
    simpa using hops
  · intro hkept
    refine ⟨by rw [hkept], fun s u => ?_⟩
    rw [onButtonClick_of_operationsOf (operationsOf_customId t), performAll_singleton, hkept]

/-- A slug of `n` characters. -/
def slugOfLength (n : Nat) : TitleSlug where
  text := .ofList (List.replicate n 'a')
  head_ne := by
    rw [String.toList_ofList, List.head?_replicate]
    split <;> simp

private theorem length_slugOfLength (n : Nat) : (slugOfLength n).text.length = n := by
  simp [slugOfLength]

/-- A click on the Solution button of a slug of 89 characters requests the problem of the first 88 of them. -/
theorem longSlug_not_carried : ¬ ∀ t : ButtonTarget, t.Carried := by
  intro hall
  have hops := (hall (.solution (slugOfLength 89))).1
  rw [operationsOf_customId, Option.some.injEq, List.cons.injEq, kept_eq_operation_iff] at hops
  have hfits : (slugOfLength 89).text.length ≤ 88 := hops.1
  rw [length_slugOfLength] at hfits
  omega

end LeetBot
