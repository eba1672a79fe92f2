import LeetBot.LeetCodePageLogic
import LeetBot.LeetoDB
import LeetBot.TextReplace

/-!
# The requests to LeetCode

For each `fetch…` function its completion lambda: what it does with a completion, given what it captures and the
`retry_count` its own issuing call received.  Reading a response is separated from acting on it: a `read…` function
is the part of a `try` block that only looks at the response, with `.error what` for an exception that leaves it.
-/

namespace LeetBot

/-- `j.is_null() || j[key].is_null()` -/
def Json.lacks (j : Json) (key : String) : Except String Bool := do
  if j.isNull then
    return true
  else
    return (← j.index key).isNull

/-- `j[key].is_null() ? otherwise : j[key].get<T>()` -/
def Json.memberOr {α : Type} (j : Json) (key : String) (otherwise : α) (get : Json → Except String α) :
    Except String α := do
  (← j.index key).getOr otherwise get

/-- The status of a completion that the fetchers ask for again, if they have not done so too often. -/
def rateLimited (cc : HttpCompletion) : Bool := cc.status == 429 || cc.status == 499

/-! ### Profile description -/

/-- The `try` block of `fetchLeetCodeDescription`.  After a missing user it goes on. -/
def describeUser (parse : String → Except String Json) (username : String)
    (callback : Option String → Throwing Unit) (body : String) : Throwing Unit := do
  if !accept parse body then
    callback none
  else
    let response ← parse body
    let data ← response.index "data"
    -- check if the user exists
    if ← data.lacks "matchedUser" then
      edit (.text ("User `" ++ username ++ "` not found on LeetCode."))
      callback none
    let matchedUser ← data.index "matchedUser"
    let _leetcodeUsername ← matchedUser.memberOr "username" "Unknown" Json.getString
    -- check if profile and about me exist
    let profile ← matchedUser.index "profile"
    if ← profile.lacks "aboutMe" then
      callback none
    else
      let userDescription ← (← profile.index "aboutMe").getString
      callback (some userDescription)

def fetchLeetCodeDescription (parse : String → Except String Json) (username : String)
    (callback : Option String → Throwing Unit) (retryCount : Nat) (cc : HttpCompletion) :
    Reaction (Throwing Unit) :=
  if maxResponseBytes < cc.bodySize then
    .handled (callback none)
  else if cc.status == 200 then
    .handled (tryCatch (describeUser parse username callback cc.body) fun _ => callback none)
  else if rateLimited cc && retryCount < 3 then
    .retry (retryCount + 1)
  else
    .handled (callback none)

/-! ### Profile -/

/-- `toupper` of the first character and `tolower` of the others. -/
def capitalize (s : String) : String :=
  match s.toList with
  | [] => ""
  | c :: cs => .ofList (c.toUpper :: cs.map Char.toLower)

/-- The strings of a list, with a separator. -/
def joinStrings (separator : String) (js : List Json) : Except String String :=
  js.foldlM (fun acc j => return (if acc.isEmpty then acc else acc ++ separator) ++ (← j.getString)) ""

/-- The variables that the loop over `acSubmissionNum` changes. -/
structure SubmissionLoop where
  totalSubmissions : Int
  profile : UserProfile
  embed : Embed

/-- One round of the loop over `acSubmissionNum`. -/
def submissionStep (l : SubmissionLoop) (stat : Json) : Except String SubmissionLoop := do
  if (← stat.index "difficulty").isNull || (← stat.index "count").isNull || (← stat.index "submissions").isNull then
    return l
  else
    let difficulty ← (← stat.index "difficulty").getString
    let count ← (← stat.index "count").getInt
    let totalSubmissions ←
      if difficulty == "All" then (← stat.index "submissions").getInt else pure l.totalSubmissions
    let profile :=
      if difficulty == "Easy" then { l.profile with easySolved := count }
      else if difficulty == "Medium" then { l.profile with mediumSolved := count }
      else if difficulty == "Hard" then { l.profile with hardSolved := count }
      else l.profile
    return {
      totalSubmissions, profile
      embed := l.embed.addField (capitalize difficulty) (toString count ++ " solved") true }

/-- What the lambda of `fetchLeetCodeProfile` has read when it turns to the table. -/
structure FetchedStats where
  totalSubmissions : Int
  ranking : Int
  userAvatar : String
  realName : String
  countryName : String
  skillStats : String
  /-- `profile`, of which the loop has set the solved counts. -/
  profile : UserProfile
  embed : Embed

/-- The part of `fetchLeetCodeProfile` that reads the response: a message to show instead of the statistics, or the
statistics. -/
def readProfile (parse : String → Except String Json) (username body : String) :
    Except String (Message ⊕ FetchedStats) := do
  let response ← parse body
  let data ← response.index "data"
  -- check if the user exists
  if ← data.lacks "matchedUser" then
    return .inl (.text ("User `" ++ username ++ "` not found on LeetCode."))
  let matchedUser ← data.index "matchedUser"
  let leetcodeUsername ← matchedUser.memberOr "username" "Unknown" Json.getString
  -- check if stats exist
  let submitStats ← matchedUser.index "submitStats"
  if ← submitStats.lacks "acSubmissionNum" then
    return .inl (.text ("No submission stats available for " ++ username))
  let profileInfo ← matchedUser.index "profileInfo"
  if profileInfo.isNull then
    return .inl (.text ("No profile info available for " ++ username))
  let ranking ← profileInfo.memberOr "ranking" (-1) Json.getInt
  let userAvatar ← profileInfo.memberOr "userAvatar" "Unknown" Json.getString
  let realName ← profileInfo.memberOr "realName" "Unknown" Json.getString
  let countryName ← profileInfo.memberOr "countryName" "Unknown" Json.getString
  let skillTags ← profileInfo.index "skillTags"
  let skillStats ← if skillTags.empty then pure "None" else joinStrings ", " skillTags.elements
  let embed := ({} : Embed)
    |>.setTitle (leetcodeUsername ++ "'s LeetCode Stats")
    |>.setColor .orangeRed
  let stats ← (← submitStats.index "acSubmissionNum").elements.foldlM submissionStep ⟨0, {}, embed⟩
  let embed := stats.embed
    |>.addField "Ranking" (toString ranking)
    |>.addField "Name" realName
    |>.addField "Country" countryName
    |>.addField "Skills" skillStats
    |>.addField "Total accepted submissions" (toString stats.totalSubmissions)
    |>.setThumbnail userAvatar
  return .inr {
    totalSubmissions := stats.totalSubmissions, ranking, userAvatar, realName, countryName, skillStats
    profile := stats.profile, embed }

/-- `profile` with everything the lambda sets in it. -/
def FetchedStats.userProfile (s : FetchedStats) : UserProfile :=
  { s.profile with
    ranking := s.ranking
    submissions := s.totalSubmissions
    realName := s.realName
    countryName := s.countryName
    skillTags := s.skillStats
    avatarUrl := s.userAvatar
    totalSolved := toInt32 (s.profile.easySolved + s.profile.mediumSolved + s.profile.hardSolved) }

/-- The call of `updateProfile` in `fetchLeetCodeProfile`. -/
def storeProfile (db : LeetoDB) (username discordUsername discordId : String) (s : FetchedStats) : Program Bool :=
  let profile := s.userProfile
  db.updateProfile discordId discordUsername profile.easySolved profile.mediumSolved profile.hardSolved
    s.totalSubmissions username profile.totalSolved s.ranking s.realName s.countryName s.skillStats s.userAvatar

/-- What `storeProfile` binds to the placeholders of the update. -/
def FetchedStats.params (s : FetchedStats) (username discordUsername discordId : String) : List Param :=
  [.str discordUsername, .int s.userProfile.easySolved, .int s.userProfile.mediumSolved,
    .int s.userProfile.hardSolved, .str username, .int s.userProfile.totalSolved, .int s.ranking, .str s.realName,
    .str s.countryName, .str s.skillStats, .str s.userAvatar, .int s.totalSubmissions, .str discordId]

/-- A row after the update of `storeProfile`. -/
def FetchedStats.storedRow (s : FetchedStats) (username discordUsername discordId : String) (r : Row) : Row :=
  r.assign LeetoDB.updateColumns (s.params username discordUsername discordId)

namespace FetchedStats

variable (s : FetchedStats) (username discordUsername discordId : String) (r : Row)

@[simp] theorem storedRow_discordId :
    (s.storedRow username discordUsername discordId r).str .discordId = r.str .discordId := rfl

@[simp] theorem storedRow_discordUsername :
    (s.storedRow username discordUsername discordId r).str .discordUsername = some discordUsername := rfl

@[simp] theorem storedRow_leetcodeUsername :
    (s.storedRow username discordUsername discordId r).str .leetcodeUsername = some username := rfl

end FetchedStats

def fetchLeetCodeProfile (parse : String → Except String Json) (db : LeetoDB)
    (username discordUsername discordId : String) (retryCount : Nat) (cc : HttpCompletion) :
    Reaction (Program Unit) :=
  if cc.status == 200 then
    .handled <|
      match readProfile parse username cc.body with
      | .error what => edit (.text ("Error parsing LeetCode response: " ++ what))
      | .ok (.inl m) => edit m
      | .ok (.inr s) => do
        let updated ← storeProfile db username discordUsername discordId s
        if !updated then
          edit (.text "Update failure.")
        edit (.ofEmbed s.embed)
  else if cc.status == 429 && retryCount < 3 then
    .retry (retryCount + 1)
  else
    .handled (edit (.text ("Failed to fetch LeetCode profile (HTTP " ++ toString cc.status ++ ")")))

end LeetBot
