import LeetBot.Loops
import LeetBot.QuestionAPI

/-!
# The message components

The handlers of the language menu, of the buttons of the daily question and of the page buttons, and the state they
share: the chosen languages, the pages and the requests in flight.  A user does one of three things: choose an
entry of the menu, click a button, or receive the completion of a request issued for an own click.
-/

namespace LeetBot

/-- A request issued for a click, with what its completion lambda captures. -/
inductive ButtonRequest where
  | solution (titleSlug languageSlug : String) (retryCount : Nat)
  | description (titleSlug : String) (retryCount : Nat)
deriving DecidableEq

/-- `userLanguageMap`, the pages, and for each user the requests in flight, in the order of their issue. -/
structure Interactive where
  userLanguageMap : Snowflake → Option String
  pages : PerUserPage
  inflight : Snowflake → List ButtonRequest

def Interactive.initial : Interactive := ⟨fun _ => none, .empty, fun _ => []⟩

/-- What a user causes. -/
inductive Interaction where
  | selectLanguage (selected : String)
  | clickButton (customId : String)
  | completion (k : Nat) (cc : HttpCompletion)

/-- What the bot does in answer: a reply to the interaction, an edit of the original response, or a request. -/
inductive Answer where
  | reply (m : Message)
  | thinking
  | updateMessage (m : Message)
  | editOriginal (m : Message)
  | requested (r : ButtonRequest)
deriving DecidableEq

/-! ### Button ids -/

/-- `s.starts_with(pre)` -/
def startsWith (s pre : String) : Bool := pre.toList.isPrefixOf s.toList

/-- `s.substr(n)` -/
def substr (s : String) (n : Nat) : String := .ofList (s.toList.drop n)

def isSpace (c : Char) : Bool := c == ' ' || (9 ≤ c.toNat && c.toNat ≤ 13)

/-- The value of a list of decimal digits. -/
def digitsValue (digits : List Char) : Nat := digits.foldl (fun n c => 10 * n + (c.toNat - '0'.toNat)) 0

/-- `std::stoull`; `none` when it throws. -/
def stoull (text : String) : Option Snowflake :=
  let (negative, cs) :=
    match text.toList.dropWhile isSpace with
    | '-' :: cs => (true, cs)
    | '+' :: cs => (false, cs)
    | cs => (false, cs)
  let digits := cs.takeWhile Char.isDigit
  if digits.isEmpty || 2 ^ 64 ≤ digitsValue digits then
    none
  else
    let n := UInt64.ofNat (digitsValue digits)
    some (if negative then -n else n)

/-- The slug behind a prefix, without its leading spaces. -/
def slugOf (customId pre : String) : String :=
  .ofList ((customId.toList.drop pre.length).dropWhile (· == ' '))

/-! ### Handlers -/

def Interactive.issue (s : Interactive) (userId : Snowflake) (r : ButtonRequest) : Interactive :=
  { s with inflight := Function.update s.inflight userId (s.inflight userId ++ [r]) }

def handleSolutionButtonClick (s : Interactive) (userId : Snowflake) (customId : String) :
    Interactive × List Answer :=
  if startsWith customId "solution_id:" then
    match s.userLanguageMap userId with
    | none => (s, [.reply (Message.text
        "Please choose a programming language from the language selection menu.").setEphemeral])
    | some languageSlug =>
        let r := .solution (slugOf customId "solution_id:") languageSlug 0
        (s.issue userId r, [.thinking, .requested r])
  else if startsWith customId "description_id:" then
    let r := .description (slugOf customId "description_id:") 0
    (s.issue userId r, [.thinking, .requested r])
  else
    (s, [])

def dropdownMap : List (String × String) :=
  [("C++", "cpp"), ("Java", "java"), ("Python", "python"), ("Python3", "python3"), ("C", "c"), ("C#", "csharp"),
    ("JavaScript", "javascript"), ("TypeScript", "typescript"), ("PHP", "php"), ("Swift", "swift"),
    ("Kotlin", "kotlin"), ("Dart", "dart"), ("Go", "golang"), ("Ruby", "ruby"), ("Scala", "scala"),
    ("Rust", "rust"), ("Racket", "racket"), ("Erlang", "erlang"), ("Elixir", "elixir")]

def handleSolutionDropdown (s : Interactive) (userId : Snowflake) (selected : String) :
    Interactive × List Answer :=
  match dropdownMap.lookup selected with
  | some slug => ({ s with userLanguageMap := Function.update s.userLanguageMap userId (some slug) },
      [.reply (Message.text ("Language set to: " ++ selected)).setEphemeral])
  | none => (s, [.reply (Message.text "Invalid language selection.").setEphemeral])

/-- An `int` converted to `size_t`. -/
def toSizeT (i : Int) : Nat := if 0 ≤ i then i.toNat else (2 ^ 64 + i).toNat

/-- The two directions of the page buttons. -/
inductive Direction where
  | prev
  | next
deriving DecidableEq

/-- The page after a click, for `size` stored solutions. -/
def turnPage (size : Nat) (currentPage : Int) : Direction → Int
  | .prev => if 0 < currentPage then currentPage - 1 else currentPage
  | .next => if toSizeT ((currentPage + 1) * 1) < size then currentPage + 1 else currentPage

/-- The direction of a page button. -/
def pageDirection (id : String) : Option Direction :=
  if startsWith id "solution_prev_page:" then some .prev
  else if startsWith id "solution_next_page:" then some .next
  else none

/-- `id.substr(id.find(':') + 1)` as a user id. -/
def pageOwner (id : String) : Option Snowflake :=
  stoull (substr id (id.toList.idxOf ':' + 1))

/-- The first access of a user inserts an empty vector and the page 0. -/
def handleSolutionsPageButton (pages : PerUserPage) (clicker : Snowflake) (id : String) :
    PerUserPage × List Answer :=
  match pageDirection id with
  | none => (pages, [])
  | some direction =>
    match pageOwner id with
    | none => (pages, [])
    | some userId =>
      if clicker ≠ userId then
        (pages, [.reply (Message.text "These buttons are not for you.").setEphemeral])
      else
        let solutions := (pages.userSolutionPages userId).getD []
        let currentPage := turnPage solutions.length ((pages.solutionCurrentPage userId).getD 0) direction
        let pages : PerUserPage := {
          userSolutionPages := Function.update pages.userSolutionPages userId (some solutions)
          solutionCurrentPage := Function.update pages.solutionCurrentPage userId (some currentPage) }
        match buildSolutionsPage solutions currentPage with
        | none => (pages, [])
        | some newContent => (pages, [.updateMessage (pageMessage .brightGold userId newContent)])

/-- The handler that `main` registers for button clicks. -/
def onButtonClick (s : Interactive) (userId : Snowflake) (customId : String) : Interactive × List Answer :=
  let (s, answers) := handleSolutionButtonClick s userId customId
  let (pages, answers') := handleSolutionsPageButton s.pages userId customId
  ({ s with pages }, answers ++ answers')

variable (parse : String → Except String Json)

/-- The completion of a request issued for a click of the user. -/
def onCompletion (s : Interactive) (userId : Snowflake) (r : ButtonRequest) (cc : HttpCompletion) :
    Interactive × List Answer :=
  match r with
  | .solution titleSlug languageSlug retryCount =>
    match fetchLeetCodeDailyQuestionSolution parse userId languageSlug retryCount cc with
    | .retry n =>
        let r := .solution titleSlug languageSlug n
        (s.issue userId r, [.requested r])
    | .handled action =>
        let (pages, m) := action s.pages
        ({ s with pages }, m.toList.map .editOriginal)
  | .description titleSlug retryCount =>
    match fetchLeetCodeDailyQuestionDescription parse retryCount cc with
    | .retry n => (s.issue userId (.description titleSlug n), [.requested (.description titleSlug n)])
    | .handled m => (s, [.editOriginal m])

/-- One interaction of a user, with the answers to that user. -/
def interact (s : Interactive) (userId : Snowflake) : Interaction → Interactive × List Answer
  | .selectLanguage selected => handleSolutionDropdown s userId selected
  | .clickButton customId => onButtonClick s userId customId
  | .completion k cc =>
    match (s.inflight userId)[k]? with
    | none => (s, [])
    | some r =>
        onCompletion parse { s with inflight := Function.update s.inflight userId ((s.inflight userId).eraseIdx k) }
          userId r cc

/-! ### What a completion does -/

section Completions

open Loops

variable {parse} {languageSlug body : String} {m : Message}

private theorem embeds_of_readSolutions (h : readSolutions parse languageSlug body = .ok (.inl m)) :
    m.embeds = [] := by
  unfold readSolutions at h
  simp only [bind_eq_ok_iff] at h
  obtain ⟨response, -, data, -, h⟩ := h
  split at h
  · cases h
    rfl
  simp only [bind_eq_ok_iff] at h
  obtain ⟨questionSolutions, -, solutions, -, h⟩ := h
  split at h
  · cases h
    rfl
  split at h
  · cases h
    rfl
  · simp only [bind_eq_ok_iff, pure_eq_ok_iff, reduceCtorEq, and_false, exists_false] at h

/-- A completed request for solutions is issued again, or it shows a text, or it stores what it has read. -/
theorem onCompletion_solution_cases (parse : String → Except String Json) (userId : Snowflake)
    (titleSlug languageSlug : String) (n : Nat) (cc : HttpCompletion) :
    (cc.status ≠ 200 ∧ ∀ s, onCompletion parse s userId (.solution titleSlug languageSlug n) cc =
        (s.issue userId (.solution titleSlug languageSlug n), [.requested (.solution titleSlug languageSlug n)])) ∨
      ((cc.status = 200 → ∀ solutions, readSolutions parse languageSlug cc.body ≠ .ok (.inr solutions)) ∧
        ∃ m, m.embeds = [] ∧
          ∀ s, onCompletion parse s userId (.solution titleSlug languageSlug n) cc = (s, [.editOriginal m])) ∨
      ∃ solutions, cc.status = 200 ∧ readSolutions parse languageSlug cc.body = .ok (.inr solutions) ∧
        ∀ s, onCompletion parse s userId (.solution titleSlug languageSlug n) cc =
          ({ s with pages := s.pages.store userId solutions },
            ((buildSolutionsPage solutions 0).map (pageMessage .yellowOrange userId)).toList.map .editOriginal) := by
  simp only [onCompletion, fetchLeetCodeDailyQuestionSolution]
  by_cases hok : cc.status = 200
  · simp only [hok, beq_self_eq_true, if_true]
    rcases hread : readSolutions parse languageSlug cc.body with what | m | solutions
    · exact .inr (.inl ⟨fun _ _ h => (nomatch h), _, rfl, fun _ => rfl⟩)
    · exact .inr (.inl ⟨fun _ _ h => (nomatch h), m, embeds_of_readSolutions hread, fun _ => rfl⟩)
    · exact .inr (.inr ⟨solutions, trivial, rfl, fun _ => rfl⟩)
  · simp only [hok, beq_iff_eq, if_false]
    by_cases hlim : rateLimited cc && n < 3
    · simp only [hlim, if_true]
      exact .inl ⟨hok, fun _ => trivial⟩
    · simp only [hlim, Bool.false_eq_true, if_false]
      exact .inr (.inl ⟨fun h => h.elim, _, rfl, fun _ => rfl⟩)

end Completions

end LeetBot
