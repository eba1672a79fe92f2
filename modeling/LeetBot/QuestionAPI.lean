import LeetBot.LeetCodeAPI

/-!
# The requests about the daily question

The completion lambdas of `fetchLeetCodeDailyQuestion`, `fetchLeetCodeActivity`,
`fetchLeetCodeDailyQuestionSolution` and `fetchLeetCodeDailyQuestionDescription`.
-/

namespace LeetBot

/-! ### Daily question -/

/-- `std::to_string` of a `double`: six decimals, rounded half to even. -/
def toStringDouble (q : Rat) : String :=
  let n := q.num.natAbs * 10 ^ 6
  let up := q.den < 2 * (n % q.den) || (2 * (n % q.den) == q.den && n / q.den % 2 == 1)
  let micros := n / q.den + if up then 1 else 0
  let decimals := toString (micros % 10 ^ 6)
  (if q.num < 0 then "-" else "") ++ toString (micros / 10 ^ 6) ++ "." ++
    .ofList (List.replicate (6 - decimals.length) '0') ++ decimals

def crossMark : String := "❌"

def whiteCheckMark : String := "✅"

/-- The languages of the dropdown. -/
def languages : List String :=
  ["C++", "Java", "Python", "Python3", "C", "C#", "JavaScript", "TypeScript", "PHP", "Swift", "Kotlin", "Dart",
    "Go", "Ruby", "Scala", "Rust", "Racket", "Erlang", "Elixir"]

/-- The names and the slugs of the topic tags, each joined. -/
def topicStep (acc : String × String) (tag : Json) : Except String (String × String) := do
  let topicTags := (if acc.1.isEmpty then acc.1 else acc.1 ++ ", ") ++ (← (← tag.constIndex "name").getString)
  let topicSlugTags := (if acc.2.isEmpty then acc.2 else acc.2 ++ "|") ++ (← (← tag.constIndex "slug").getString)
  return (topicTags, topicSlugTags)

/-- One round of the loop over the recent submissions. -/
def recentStep (title : String) (completedDaily : String) (item : Json) : Except String String := do
  if (← item.constIndex "id").isNull then return completedDaily
  else if (← item.constIndex "title").isNull then return completedDaily
  else if (← item.constIndex "timestamp").isNull then return completedDaily
  else
    let qTitle ← (← item.constIndex "title").getString
    return if qTitle == title then "Completed " ++ whiteCheckMark else completedDaily

/-- Whether the daily question is missing in `data`. -/
def lacksQuestion (data : Json) : Except String Bool := do
  if ← data.lacks "daily" then
    return true
  else
    (← data.index "daily").lacks "question"

/-- The `try` block of `fetchLeetCodeDailyQuestion`. -/
def readDailyQuestion (parse : String → Except String Json) (body : String) : Except String Message := do
  let response ← parse body
  let data ← response.index "data"
  if ← lacksQuestion data then
    return .text "Daily question data missing in response"
  let recent ← data.index "recent"
  if recent.isNull || recent.empty then
    return .text "Could not get user's recent submissions."
  let daily ← data.index "daily"
  let date ← (← daily.index "date").getString
  let link ← (← daily.index "link").getString
  let question ← daily.index "question"
  let acRate ← question.memberOr "acRate" 0 Json.getDouble
  let difficulty ← question.memberOr "difficulty" "Unknown" Json.getString
  let frontendQuestionId ← question.memberOr "questionFrontendId" "Unknown" Json.getString
  let title ← question.memberOr "title" "Unknown" Json.getString
  let titleSlug ← question.memberOr "titleSlug" "Unknown" Json.getString
  let paidOnly ← (← question.index "isPaidOnly").getBool
  let topics ← question.index "topicTags"
  let (topicTags, _) ←
    if topics.isNull || topics.empty then pure ("None", "None") else topics.elements.foldlM topicStep ("", "")
  let completedDaily ← recent.elements.foldlM (recentStep title) ("Not recently completed " ++ crossMark)
  let embed := ({} : Embed)
    |>.setTitle ("Daily Question | id -> " ++ frontendQuestionId ++ ": " ++ title)
    |>.setColor .mangoOrange
    |>.setDescription topicTags
    |>.addField "Date" date
    |>.addField "Difficulty" difficulty
    |>.addField "Acceptance Rate" (toStringDouble acRate ++ "%")
    |>.addField "Paid only?" (if paidOnly then "Paid only" else "Not paid only")
    |>.setThumbnail "https://upload.wikimedia.org/wikipedia/commons/1/19/LeetCode_logo_black.png"
    |>.addField "Progress" completedDaily
    |>.addField "URL" ("leetcode.com" ++ link)
  return ({} : Message)
    |>.addEmbed embed
    |>.addComponent [.mkButton "Solution" ("solution_id:" ++ titleSlug),
      .mkButton "Description" ("description_id:" ++ titleSlug)]
    |>.addComponent [.selectmenu "Select solution language" "solution_language_dropdown" languages]

def fetchLeetCodeDailyQuestion (parse : String → Except String Json) (retryCount : Nat) (cc : HttpCompletion) :
    Reaction (Program Unit) :=
  if cc.status == 200 then
    .handled <|
      match readDailyQuestion parse cc.body with
      | .error what => edit (.text ("Error parsing LeetCode response: " ++ what))
      | .ok m => edit m
  else if rateLimited cc && retryCount < 3 then
    .retry (retryCount + 1)
  else
    .handled (edit (.text
      ("Failed to fetch LeetCode daily question (HTTP " ++ toString cc.status ++ ": " ++ cc.body)))

/-! ### Activity -/

/-- The `try` block of `fetchLeetCodeActivity`. -/
def readActivity (parse : String → Except String Json) (username body : String) : Except String Message := do
  let response ← parse body
  let data ← response.index "data"
  if ← data.lacks "matchedUser" then
    return .text "Failed to get user activity."
  let matchedUser ← data.index "matchedUser"
  let activity ← matchedUser.index "activity"
  if activity.isNull then
    return .text "Could not retrieve user activity"
  let streak ← (← activity.index "streak").getInt
  let totalActiveDays ← (← activity.index "totalActiveDays").getInt
  let profile ← matchedUser.index "profileInfo"
  if profile.isNull then
    return .text "Could not retrieve user profile."
  let avatarUrl ← profile.memberOr "userAvatar" "Unknown" Json.getString
  let embed := ({} : Embed)
    |>.setTitle (username ++ "'s activity")
    |>.addField "Daily active streak" (toString streak)
    |>.addField "Total active days" (toString totalActiveDays)
    |>.setThumbnail avatarUrl
    |>.setColor .orangeSalmon
  return .ofEmbed embed

/-- The retry passes `retry_count` on as it is. -/
def fetchLeetCodeActivity (parse : String → Except String Json) (username : String) (retryCount : Nat)
    (cc : HttpCompletion) : Reaction (Program Unit) :=
  if cc.status == 200 then
    .handled <|
      match readActivity parse username cc.body with
      | .error what => edit (.text ("failed fetching user activity: " ++ what))
      | .ok m => edit m
  else if rateLimited cc && retryCount < 3 then
    .retry retryCount
  else
    .handled (edit (.text ("Failed to fetch LeetCode activity (HTTP " ++ toString cc.status ++ ": " ++ cc.body)))

/-! ### Solutions of a question -/

/-- One element of `solutions`; `none` when it has no post. -/
def readSolution (languageSlug : String) (sol : Json) : Except String (Option Solution) := do
  let title ← (← sol.constIndex "title").getOr "" Json.getString
  let post ← sol.constIndex "post"
  if post.isNull then
    return none
  let id ← (← post.constIndex "id").getInt
  let status ← (← post.constIndex "status").getOr "" Json.getString
  let creationDate ← (← post.constIndex "creationDate").getInt
  let voteCount ← (← post.constIndex "voteCount").getInt
  let content ← (← post.constIndex "content").getOr "" Json.getString
  return some { title, content := removeNewLines content languageSlug, status, voteCount, id, creationDate }

/-- One round of the loop over `solutions`. -/
def solutionStep (languageSlug : String) (solutionVector : List Solution) (sol : Json) :
    Except String (List Solution) := do
  match ← readSolution languageSlug sol with
  | none => return solutionVector
  | some solution => return solutionVector ++ [solution]

/-- The part of `fetchLeetCodeDailyQuestionSolution` that reads the response: a message to show instead of the
solutions, or the solutions. -/
def readSolutions (parse : String → Except String Json) (languageSlug body : String) :
    Except String (Message ⊕ List Solution) := do
  let response ← parse body
  let data ← response.index "data"
  if data.isNull then
    return .inl (.text "Failed to get request.")
  let solutions ← (← data.index "questionSolutions").index "solutions"
  if solutions.isNull then
    return .inl (.text "Failed to get solutions.")
  if solutions.empty then
    return .inl (.text "This problem has no solutions for the selected language.")
  return .inr (← solutions.elements.foldlM (solutionStep languageSlug) [])

def arrowLeft : String := "⬅️"

def arrowRight : String := "➡️"

/-- The row with the two page buttons of a user. -/
def pageButtons (userId : Snowflake) : List Component :=
  [.mkButton arrowLeft ("solution_prev_page:" ++ toString userId),
    .mkButton arrowRight ("solution_next_page:" ++ toString userId)]

/-- The message that shows a page of solutions. -/
def pageMessage (color : Color) (userId : Snowflake) (pageContent : String) : Message :=
  let embed := ({} : Embed)
    |>.setTitle "Solutions"
    |>.setColor color
    |>.setDescription pageContent
  ({} : Message)
    |>.addEmbed embed
    |>.addComponent (pageButtons userId)

/-- What a completion does to the pages, and the message shown for it; `none` when the page cannot be built. -/
abbrev PageAction := PerUserPage → PerUserPage × Option Message

/-- The pages with the solutions of a user replaced and the first page selected. -/
def PerUserPage.store (pages : PerUserPage) (userId : Snowflake) (solutions : List Solution) : PerUserPage where
  userSolutionPages := Function.update pages.userSolutionPages userId (some solutions)
  solutionCurrentPage := Function.update pages.solutionCurrentPage userId (some 0)

/-- The retry passes `retry_count` on as it is. -/
def fetchLeetCodeDailyQuestionSolution (parse : String → Except String Json) (userId : Snowflake)
    (languageSlug : String) (retryCount : Nat) (cc : HttpCompletion) : Reaction PageAction :=
  if cc.status == 200 then
    .handled fun pages =>
      match readSolutions parse languageSlug cc.body with
      | .error what => (pages, some (.text ("Error parsing response: " ++ what)))
      | .ok (.inl m) => (pages, some m)
      | .ok (.inr solutions) =>
          (pages.store userId solutions, (buildSolutionsPage solutions 0).map (pageMessage .yellowOrange userId))
  else if rateLimited cc && retryCount < 3 then
    .retry retryCount
  else
    .handled fun pages => (pages, some (.text
      ("Failed to fetch LeetCode daily question solutions (HTTP " ++ toString cc.status ++ ": " ++ cc.body)))

/-! ### Description of a question -/

/-- The `try` block of `fetchLeetCodeDailyQuestionDescription`. -/
def readQuestionDescription (parse : String → Except String Json) (body : String) : Except String Message := do
  let response ← parse body
  let data ← response.index "data"
  if data.isNull then
    return .text "Error parsing response."
  let problem ← data.index "problem"
  if problem.isNull then
    return .text "Could not get LeetCode problem."
  let content ← problem.memberOr "content" "No content available." Json.getString
  let schemas ← problem.index "mysqlSchemas"
  let embed := ({} : Embed)
    |>.setTitle "Problem Description"
    |>.setDescription (htmlDecoder (htmlToMarkdown content))
    |>.setColor .brightOrange
  if schemas.empty then
    return ({} : Message).addEmbed embed
  let embed ← schemas.elements.foldlM (fun (e : Embed) schema => return e.addField (← schema.getString) "")
    (embed.addField "mysql Schemas" "")
  return ({} : Message).addEmbed embed

/-- The retry passes `retry_count` on as it is. -/
def fetchLeetCodeDailyQuestionDescription (parse : String → Except String Json) (retryCount : Nat)
    (cc : HttpCompletion) : Reaction Message :=
  if cc.status == 200 then
    .handled <|
      match readQuestionDescription parse cc.body with
      | .error _ => .text "Error parsing LeetCode response"
      | .ok m => m
  else if rateLimited cc && retryCount < 3 then
    .retry retryCount
  else
    .handled (.text ("Failed to fetch LeetCode daily question (HTTP " ++ toString cc.status ++ ": " ++ cc.body))

end LeetBot
