import LeetBot.AskedNames
import LeetBot.JsonPaths
import LeetBot.JsonRoundTrip
import LeetBot.RequestOrigins

/-!
# The bodies of the requests

What the six `fetch…` functions post to LeetCode: a GraphQL query that is fixed, and its variables, which the user has
typed or which were read from a row or a button.  The text of the body is JSON whatever these are, its query is the
query of the function, and no two different requests have the same text.
-/

namespace LeetBot

open SortedMembers Interleave

/-! ### Queries -/

/-- The query of `fetchLeetCodeDescription`. -/
def descriptionQuery : String := "
            query getUserProfile($username: String!) \x7b
                matchedUser(username: $username) \x7b
                    profile \x7b
                        aboutMe
                    \x7d
                \x7d
            \x7d
        "

/-- The query of `fetchLeetCodeProfile`. -/
def profileQuery : String := "
        query getUserProfile($username: String!) \x7b
            matchedUser(username: $username) \x7b
                username
                submitStats: submitStatsGlobal \x7b
                    acSubmissionNum \x7b
                        difficulty
                        count
                        submissions
                    \x7d
                \x7d
                profileInfo: profile \x7b
                    ranking
                    userAvatar
                    realName
                    countryName
                    skillTags
                \x7d
            \x7d
        \x7d
    "

/-- The query of `fetchLeetCodeDailyQuestion`. -/
def dailyQuestionQuery : String := "
        query getCombined($username: String!, $limit: Int!) \x7b
            daily: activeDailyCodingChallengeQuestion \x7b
                date
                link
                question \x7b
                    acRate
                    difficulty
                    questionFrontendId
                    isPaidOnly
                    title
                    titleSlug
                    topicTags \x7b
                        name
                        slug
                    \x7d
                \x7d
            \x7d
            recent: recentAcSubmissionList(username: $username, limit: $limit) \x7b
                id
                title
                timestamp
            \x7d
        \x7d
    "

/-- The query of `fetchLeetCodeActivity`. -/
def activityQuery : String := "
        query getUserProfile($username: String!) \x7b
            matchedUser(username: $username) \x7b
                activity : userCalendar \x7b
                    streak
                    totalActiveDays
                \x7d
                profileInfo: profile \x7b
                    userAvatar
                \x7d
            \x7d
        \x7d
    "

/-- The query of `fetchLeetCodeDailyQuestionSolution`. -/
def solutionQuery : String := "
        query getSolutionPosts($titleSlug: String!, $skip: Int!, $languageTags: [String!]) \x7b
            questionSolutions(
                filters: \x7b
                    questionSlug: $titleSlug,
                    languageTags: $languageTags,
                    first: 5,
                    skip: $skip
                \x7d
            ) \x7b
                solutions \x7b
                    title
                    post \x7b 
                        id
                        status
                        creationDate
                        voteCount
                        content
                    \x7d
                \x7d
            \x7d
        \x7d
    "

/-- The query of `fetchLeetCodeDailyQuestionDescription`. -/
def questionDescriptionQuery : String := "
        query questionContent($titleSlug: String!) \x7b
            problem : question(titleSlug: $titleSlug) \x7b
                content
                mysqlSchemas
            \x7d
        \x7d
    "

/-! ### Bodies -/

/-- What LeetCode is asked. -/
inductive Fetch where
  | description (username : String)
  | profile (username : String)
  | dailyQuestion (username : String)
  | activity (username : String)
  | solution (titleSlug languageSlug : String)
  | questionDescription (titleSlug : String)
deriving DecidableEq

def Request.fetch : Request → Fetch
  | .description username _ _ => .description username
  | .profile username _ _ _ => .profile username
  | .dailyQuestion username _ => .dailyQuestion username
  | .activity username _ => .activity username

def ButtonRequest.fetch : ButtonRequest → Fetch
  | .solution titleSlug languageSlug _ => .solution titleSlug languageSlug
  | .description titleSlug _ => .questionDescription titleSlug

namespace Fetch

def query : Fetch → String
  | description _ => descriptionQuery
  | profile _ => profileQuery
  | dailyQuestion _ => dailyQuestionQuery
  | activity _ => activityQuery
  | solution _ _ => solutionQuery
  | questionDescription _ => questionDescriptionQuery

/-- The variables, in the order of the source. -/
def bodyVariables : Fetch → List (String × Json)
  | description username => [("username", .string username)]
  | profile username => [("username", .string username)]
  | dailyQuestion username => [("username", .string username), ("limit", .number 50)]
  | activity username => [("username", .string username)]
  | solution titleSlug languageSlug =>
      [("titleSlug", .string titleSlug), ("languageTags", .string languageSlug), ("skip", .number 1)]
  | questionDescription titleSlug => [("titleSlug", .string titleSlug)]

/-- `{key, value}` in an initializer list. -/
def pair (key : String) (value : Json) : Json := .ofInitializerList [.string key, value]

/-- `nlohmann::json body` -/
def body (f : Fetch) : Json :=
  .ofInitializerList [pair "query" (.string f.query),
    pair "variables" (.ofInitializerList (f.bodyVariables.map fun x => pair x.1 x.2))]

/-- `body.dump()` -/
def posted (dumpFloat : Rat → List Char) (f : Fetch) : String := .ofList (f.body.dump dumpFloat)

private theorem ofInitializerList_pairs (l : List (String × Json)) :
    Json.ofInitializerList (l.map fun x => pair x.1 x.2) = .object (ofPairs l) := by
  have hall : (l.map fun x => pair x.1 x.2).all (fun element => element.asMember.isSome) = true := by
    rw [List.all_map, List.all_eq_true]
    intro x _
    rfl
  have hmembers : (l.map fun x => pair x.1 x.2).filterMap Json.asMember = l := by
    rw [List.filterMap_map]
    exact List.filterMap_some
  unfold Json.ofInitializerList
  rw [if_pos hall, hmembers]

private theorem body_eq (f : Fetch) :
    f.body = .object (ofPairs [("query", .string f.query), ("variables", .object (ofPairs f.bodyVariables))]) := by
  rw [← ofInitializerList_pairs, ← ofInitializerList_pairs]
  rfl

private theorem wellFormed_ofPairs {float : Rat → Prop} {l : List (String × Json)}
    (h : ∀ x ∈ l, x.2.WellFormed float) :
    (Json.object (ofPairs l)).WellFormed float :=
  .object (keysSorted_ofPairs l) fun x hx => h x (mem_of_mem_ofPairs hx)

private theorem wellFormed_body (float : Rat → Prop) (f : Fetch) : f.body.WellFormed float := by
  have hnumber : ∀ i : Int, 0 ≤ i → i ≤ 50 → (Json.number i).WellFormed float := by
    intro i hlow hhigh
    exact .number (by omega) (by omega)
  have hvariables : ∀ x ∈ f.bodyVariables, x.2.WellFormed float := by
    cases f <;> simp [bodyVariables, Json.WellFormed.string, hnumber]
  rw [body_eq]
  apply wellFormed_ofPairs
  intro x hx
  rcases List.mem_cons.1 hx with rfl | hx
  · exact .string _
  · rw [List.mem_singleton.1 hx]
    exact wellFormed_ofPairs hvariables

private theorem path_query (f : Fetch) : f.body.path ["query"] = some (.string f.query) := by
  rw [body_eq, Json.path_cons, Json.member, lookup_ofPairs]
  rfl

private theorem path_variables (f : Fetch) (key : String) :
    f.body.path ["variables", key] = f.bodyVariables.lookup key := by
  have hvariables : (Json.object (ofPairs [("query", .string f.query),
      ("variables", .object (ofPairs f.bodyVariables))])).member "variables" =
        some (.object (ofPairs f.bodyVariables)) := by
    rw [Json.member, lookup_ofPairs]
    rfl
  rw [body_eq, Json.path_cons, hvariables, Option.bind_some, Json.path_cons, Json.member, lookup_ofPairs]
  cases f.bodyVariables.lookup key <;> rfl

/-- What LeetCode gets as the variables, by name. -/
def variablesByName : Fetch → List (String × Json)
  | description username => [("username", .string username)]
  | profile username => [("username", .string username)]
  | dailyQuestion username => [("limit", .number 50), ("username", .string username)]
  | activity username => [("username", .string username)]
  | solution titleSlug languageSlug =>
      [("languageTags", .string languageSlug), ("skip", .number 1), ("titleSlug", .string titleSlug)]
  | questionDescription titleSlug => [("titleSlug", .string titleSlug)]

private theorem ofPairs_bodyVariables (f : Fetch) : ofPairs f.bodyVariables = f.variablesByName := by
  cases f with
  | dailyQuestion username =>
    have hkeys : "limit" < "username" := by decide
    simp [bodyVariables, variablesByName, ofPairs, emplaceKey, insertKey, hkeys]
  | solution titleSlug languageSlug =>
    have hkeys : "languageTags" < "titleSlug" ∧ ¬ "skip" < "languageTags" ∧ "skip" < "titleSlug" := by
      decide
    simp [bodyVariables, variablesByName, ofPairs, emplaceKey, insertKey, hkeys]
  | _ => rfl

private theorem path_variablesByName (f : Fetch) : f.body.path ["variables"] = some (.object f.variablesByName) := by
  rw [body_eq, Json.path_cons, Json.member, lookup_ofPairs, ofPairs_bodyVariables]
  rfl

private theorem ofList_ne_ofList {l l' : List Char} (n : Nat) (h : l.take n ≠ l'.take n) :
    String.ofList l ≠ String.ofList l' := by
  intro heq
  rw [String.ofList_injective heq] at h
  exact h rfl

set_option maxRecDepth 8000 in
private theorem queries_ne : descriptionQuery ≠ profileQuery ∧ descriptionQuery ≠ activityQuery ∧
    profileQuery ≠ activityQuery := by
  unfold descriptionQuery profileQuery activityQuery
  exact ⟨ofList_ne_ofList 200 (by decide +kernel), ofList_ne_ofList 200 (by decide +kernel),
    ofList_ne_ofList 200 (by decide +kernel)⟩

private theorem body_injective {f f' : Fetch} (h : f'.body = f.body) : f' = f := by
  have hquery : f'.query = f.query := by
    have hpath := path_query f'
    rw [h, path_query] at hpath
    injection hpath with hstring
    injection hstring with heq
    exact heq.symm
  have hvariables : f'.variablesByName = f.variablesByName := by
    have hpath := path_variablesByName f'
    rw [h, path_variablesByName] at hpath
    injection hpath with hobject
    injection hobject with heq
    exact heq.symm
  obtain ⟨hprofile, hactivity, hprofileActivity⟩ := queries_ne
  have hqueries := And.intro hprofile.symm (And.intro hactivity.symm hprofileActivity.symm)
  cases f <;> cases f' <;> simp_all [variablesByName, query]

variable {strtod : List Char → Option Rat} {dumpFloat : Rat → List Char}

private theorem parse_posted (f : Fetch) : Json.parse strtod (f.posted dumpFloat) = some f.body :=
  Json.parse_of_reads (Json.reads_of_wellFormed (wellFormed_body _ f))

/-- Whatever the user has typed and whatever was read from a row or a button, the posted text is JSON for the query of
the function with these values as its variables, and no other request has this text. -/
theorem posted_reads_back (f : Fetch) :
    (∃ j, Json.parse strtod (f.posted dumpFloat) = some j ∧ j.path ["query"] = some (.string f.query) ∧
      j.path ["variables"] = some (.object <| match f with
        | description username => [("username", .string username)]
        | profile username => [("username", .string username)]
        | dailyQuestion username => [("limit", .number 50), ("username", .string username)]
        | activity username => [("username", .string username)]
        | solution titleSlug languageSlug =>
            [("languageTags", .string languageSlug), ("skip", .number 1), ("titleSlug", .string titleSlug)]
        | questionDescription titleSlug => [("titleSlug", .string titleSlug)])) ∧
      ∀ f' : Fetch, f'.posted dumpFloat = f.posted dumpFloat ↔ f' = f := by
  refine ⟨⟨f.body, parse_posted f, path_query f, path_variablesByName f⟩, ?_⟩
  intro f'
  constructor
  · intro h
    have hparse : Json.parse strtod (f'.posted dumpFloat) = some f.body := by rw [h, parse_posted]
    rw [parse_posted] at hparse
    exact body_injective (Option.some.inj hparse)
  · rintro rfl
    rfl

end Fetch

/-! ### What is posted in a run -/

section Runs

variable {parse : String → Except String Json} {db : LeetoDB} {ok : AccountWorld → Label Choice AccountEvent → Prop}
  {w : AccountWorld} {strtod : List Char → Option Rat} {dumpFloat : Rat → List Char}

private theorem lookup_username (q : Request) : q.fetch.bodyVariables.lookup "username" = some (.string q.name) := by
  cases q <;> rfl

/-- In every run, what is posted for a command is JSON, and the username in it is the name that the user has typed, in
the request of a registration, and a name that the user has proved to own, in every other request. -/
theorem posted_names (hw : Reachable parse db ok w) {i : Nat} {q : Request}
    (h : .performed i (.request q) () ∈ w.history) :
    ∃ c event j L, asking.owner w i = some c ∧ .arrived c (.slashcommand event) ∈ w.history ∧
      Json.parse strtod (q.fetch.posted dumpFloat) = some j ∧
      j.path ["variables", "username"] = some (.string L) ∧
      if q.describes then event.registers = some L else L ≠ "" ∧ Proven parse w.history event.userId L := by
  obtain ⟨c, event, hc, harrived, hmay⟩ := mayAsk_of_requested hw h
  refine ⟨c, event, q.fetch.body, q.name, hc, harrived, Fetch.parse_posted q.fetch, ?_, hmay⟩
  rw [Fetch.path_variables, lookup_username]

/-- A run in which a user registers and asks for the profile. -/
theorem posted_names_updating :
    ∃ w, Reachable sampleParse ⟨true⟩ (fun _ _ => True) w ∧
      .performed 3 (.request (.profile "a" "ann" "1" 0)) () ∈ w.history ∧
      ∃ c event j L, asking.owner w 3 = some c ∧ .arrived c (.slashcommand event) ∈ w.history ∧
        Json.parse (fun _ => none) ((Request.profile "a" "ann" "1" 0).fetch.posted fun _ => []) = some j ∧
        j.path ["variables", "username"] = some (.string L) ∧
        L ≠ "" ∧ Proven sampleParse w.history event.userId L := by
  have hrun : ((accounts sampleParse ⟨true⟩).run (fun _ _ => True) AccountWorld.initial registerAndUpdate).any
      (fun w => .profile "a" "ann" "1" 0 ∈ requested (w.trace 3)) = true := by decide +kernel
  obtain ⟨w, hw, htest⟩ := System.Reach.exists_of_run hrun
  have hasked := mem_requested.1 (of_decide_eq_true htest)
  obtain ⟨c, event, j, L, hc, harrived, hparse, hpath, hname⟩ := posted_names hw hasked
  rw [if_neg (by decide)] at hname
  exact ⟨w, hw, hasked, c, event, j, L, hc, harrived, hparse, hpath, hname⟩

end Runs

/-- In every run, what is posted for a click is JSON with the slug of the button, and in a request for solutions with
the language that the user had chosen before the click. -/
theorem posted_clicks (parse : String → Except String Json) (strtod : List Char → Option Rat)
    (dumpFloat : Rat → List Char) (es : List UserEvent) (u : Snowflake) :
    ∀ r ∈ (EventMachine.run (interactStep parse) .initial es).1.inflight u,
      ∃ past customId future j, es = past ++ (u, .clickButton customId) :: future ∧
        Json.parse strtod (r.fetch.posted dumpFloat) = some j ∧
        match r with
        | .solution _ _ _ => startsWith customId "solution_id:" = true ∧
            j.path ["variables", "titleSlug"] = some (.string (slugOf customId "solution_id:")) ∧
            ∃ languageSlug, chosenLanguage u past = some languageSlug ∧
              j.path ["variables", "languageTags"] = some (.string languageSlug)
        | .description _ _ => startsWith customId "description_id:" = true ∧
            j.path ["variables", "titleSlug"] = some (.string (slugOf customId "description_id:")) := by
  intro r hr
  obtain ⟨past, customId, future, hes, hclick⟩ := (accounted_run parse es).issued u r hr
  refine ⟨past, customId, future, r.fetch.body, hes, Fetch.parse_posted r.fetch, ?_⟩
  simp only [Fetch.path_variables]
  unfold clickRequest at hclick
  split at hclick
  · rename_i hsolution
    obtain ⟨languageSlug, hlanguage, rfl⟩ := Option.map_eq_some_iff.1 hclick
    exact ⟨hsolution, rfl, languageSlug, hlanguage, rfl⟩
  · split at hclick
    · rename_i hdescription
      cases hclick
      exact ⟨hdescription, rfl⟩
    · cases hclick

/-- User 1 chooses C++ and asks for the solutions of a question, and user 2 chooses Rust. -/
def askForSolutions : List UserEvent :=
  [(1, .selectLanguage "C++"), (1, .clickButton "solution_id:two-sum"), (2, .selectLanguage "Rust")]

theorem posted_clicks_cpp :
    ∃ past customId future j, askForSolutions = past ++ (1, .clickButton customId) :: future ∧
      Json.parse (fun _ => none) ((ButtonRequest.solution "two-sum" "cpp" 0).fetch.posted fun _ => []) = some j ∧
      startsWith customId "solution_id:" = true ∧
      j.path ["variables", "titleSlug"] = some (.string (slugOf customId "solution_id:")) ∧
      ∃ languageSlug, chosenLanguage 1 past = some languageSlug ∧
        j.path ["variables", "languageTags"] = some (.string languageSlug) := by
  have hissued : .solution "two-sum" "cpp" 0 ∈
      (EventMachine.run (interactStep solutionsParse) .initial askForSolutions).1.inflight 1 := by decide +kernel
  exact posted_clicks solutionsParse (fun _ => none) (fun _ => []) askForSolutions 1 _ hissued

end LeetBot
