import LeetBot.Commands
import LeetBot.QuestionAPI

/-!
# The account commands as a system

The state that the threads of the bot share: the `users` table, the current Discord usernames, the requests in
flight and the promises.  Three kinds of events: a slash command arrives, a request completes, or a user changes
the Discord username.  Every operation of a thread is one step; between two operations of a thread, others run.
-/

namespace LeetBot

open Interleave

structure Accounts where
  users : List Row
  /-- The users that the cache knows, with their current usernames. -/
  members : List (Snowflake × String)
  /-- All requests issued so far; `none` is a request that has been completed. -/
  inflight : List (Option Request)
  /-- The values of the promises; `none` is a promise that has not been satisfied. -/
  promises : List (Option (Option String))

def Accounts.initial : Accounts := ⟨[], [], [], []⟩

inductive AccountEvent where
  | slashcommand (event : SlashCommand)
  /-- The request `r`, the `k`-th one issued, completes with `cc`. -/
  | completion (k : Nat) (r : Request) (cc : HttpCompletion)
  | usernameChange (userId : Snowflake) (username : String)
deriving DecidableEq

/-- Whether an operation fails, where it can: an SQL statement or a lookup in the cache. -/
inductive Choice where
  | ok
  | fault
deriving DecidableEq

/-- `what()` of the `std::future_error` that a second `set_value` throws. -/
def promiseAlreadySatisfied : String := "promise already satisfied"

namespace Accounts

def exec : (o : Op) → Choice → Accounts → Option (o.Res × Accounts)
  | .sql s, .ok, a => some (.ok (s.exec a.users).1, { a with users := (s.exec a.users).2 })
  | .sql _, .fault, a => some (.error .mk, a)
  | .memberUsername userId, .ok, a => some (a.members.lookup userId, a)
  | .memberUsername _, .fault, a => some (none, a)
  | .edit _, _, a => some ((), a)
  | .makePromise, _, a => some (a.promises.length, { a with promises := a.promises ++ [none] })
  | .setValue promise desc, _, a =>
      match a.promises[promise]? with
      | some none => some (.ok (), { a with promises := a.promises.set promise (some desc) })
      | _ => some (.error promiseAlreadySatisfied, a)
  | .await promise, _, a =>
      match a.promises[promise]? with
      | some (some desc) => some (desc, a)
      | _ => none
  | .request r, _, a => some ((), { a with inflight := a.inflight ++ [some r] })

def rename (a : Accounts) (userId : Snowflake) (username : String) : Accounts :=
  { a with members := (userId, username) :: a.members.filter (·.1 != userId) }

end Accounts

/-! ### Completion lambdas -/

/-- The callback that `handle_registry_commands` passes. -/
def setValue (promise : Nat) (desc : Option String) : Throwing Unit :=
  .mk (.perform (Op.setValue promise desc))

section Completion

variable (parse : String → Except String Json) (db : LeetoDB)

/-- The completion lambda of a description request, with the exception that leaves it. -/
def descriptionLambda (username : String) (promise retryCount : Nat) (cc : HttpCompletion) : Throwing Unit :=
  match fetchLeetCodeDescription parse username (setValue promise) retryCount cc with
  | .retry n => request (.description username promise n)
  | .handled p => p

/-- The completion lambda of a request. -/
def completionLambda (r : Request) (cc : HttpCompletion) : Program Unit :=
  match r with
  | .description username promise retryCount => do
      let _ ← (descriptionLambda parse username promise retryCount cc).run
      return
  | .profile username discordUsername discordId retryCount =>
      match fetchLeetCodeProfile parse db username discordUsername discordId retryCount cc with
      | .retry n => request (.profile username discordUsername discordId n)
      | .handled p => p
  | .dailyQuestion username retryCount =>
      match fetchLeetCodeDailyQuestion parse retryCount cc with
      | .retry n => request (.dailyQuestion username n)
      | .handled p => p
  | .activity username retryCount =>
      match fetchLeetCodeActivity parse username retryCount cc with
      | .retry n => request (.activity username n)
      | .handled p => p

def Accounts.arrive : AccountEvent → Accounts → Option (Accounts × Program Unit)
  | .slashcommand event, a => some (a, handleSlashCommands db event)
  | .completion k r cc, a =>
      if a.inflight[k]? = some (some r) then
        some ({ a with inflight := a.inflight.set k none }, completionLambda parse db r cc)
      else
        none
  | .usernameChange userId username, a => some (a.rename userId username, pure ())

/-- The bot, as far as the account commands go. -/
def accounts : System Op Op.Res Accounts Choice AccountEvent where
  exec := Accounts.exec
  arrive := Accounts.arrive parse db

end Completion

abbrev AccountWorld := World Op Op.Res Accounts AccountEvent

/-- Nothing has happened, and the table is empty. -/
abbrev AccountWorld.initial : AccountWorld := { shared := .initial }

/-- The worlds that a run reaches whose steps meet the condition `ok`. -/
abbrev Reachable (parse : String → Except String Json) (db : LeetoDB)
    (ok : AccountWorld → Label Choice AccountEvent → Prop) (w : AccountWorld) : Prop :=
  (accounts parse db).Reach ok AccountWorld.initial w

/-! ### What a thread has shown and asked for -/

/-- The texts that a program has shown. -/
def texts (t : Trace Op Op.Res) : List Message :=
  t.filterMap fun
    | ⟨.edit m, _⟩ => some m
    | _ => none

def requested (t : Trace Op Op.Res) : List Request :=
  t.filterMap fun
    | ⟨.request r, _⟩ => some r
    | _ => none

/-- A command has shown the profile in a row that it has selected by name. -/
def ShowsProfile (t : Trace Op Op.Res) : Prop :=
  ∃ L n row rest, ⟨.sql (.select .discordUsername n), .ok (row :: rest)⟩ ∈ t ∧
    profileMessage L (LeetoDB.rowProfile row) ∈ texts t

/-- A command has asked for a new profile. -/
def FetchesProfile (t : Trace Op Op.Res) : Prop := ∃ L name id, .profile L name id 0 ∈ requested t

def replies (w : AccountWorld) (i : Nat) : List Message := texts (w.trace i)

theorem mem_replies {w : AccountWorld} {i : Nat} {m : Message} :
    m ∈ replies w i ↔ .performed i (.edit m) () ∈ w.history := by
  refine Iff.trans ?_ World.mem_trace
  simp only [replies, texts, List.mem_filterMap]
  constructor
  · rintro ⟨⟨o, r⟩, hmem, h⟩
    cases o with
    | edit m' =>
      cases h
      exact hmem
    | _ => cases h
  · intro h
    exact ⟨_, h, rfl⟩

/-! ### Some commands and responses -/

/-- `/register user leetcode_name:…` -/
def registerCommand (userId : Snowflake) (leetcodeName : String) : AccountEvent :=
  .slashcommand ⟨userId, "register", [⟨"user", [⟨"leetcode_name", .string leetcodeName⟩]⟩]⟩

/-- `/leetcode …` -/
def leetcodeCommand (userId : Snowflake) (subcommand : String) : AccountEvent :=
  .slashcommand ⟨userId, "leetcode", [⟨subcommand, []⟩]⟩

/-- A response with a description, in which the user called `ann` is verified. -/
def describedBody : String :=
  "\x7b\"data\":\x7b\"matchedUser\":\x7b\"profile\":\x7b\"aboutMe\":\"LeetBot->[ann]->Verify\"\x7d\x7d\x7d\x7d"

/-- A response for a name that does not exist. -/
def missingBody : String := "\x7b\"data\":\x7b\"matchedUser\":null\x7d\x7d"

/-- A response with statistics. -/
def statsBody : String :=
  "\x7b\"data\":\x7b\"matchedUser\":\x7b\"submitStats\":\x7b\"acSubmissionNum\":[]\x7d," ++
    "\"profileInfo\":\x7b\"ranking\":7,\"realName\":\"Ann\",\"skillTags\":[]\x7d\x7d\x7d\x7d"

/-- What `parse` makes of these three. -/
def sampleParse (body : String) : Except String Json :=
  if body = describedBody then
    .ok (.object [("data", .object [("matchedUser", .object [("profile", .object
      [("aboutMe", .string "LeetBot->[ann]->Verify")])])])])
  else if body = missingBody then
    .ok (.object [("data", .object [("matchedUser", .null)])])
  else if body = statsBody then
    .ok (.object [("data", .object [("matchedUser", .object [
      ("submitStats", .object [("acSubmissionNum", .array [])]),
      ("profileInfo", .object [("ranking", .number 7), ("realName", .string "Ann"), ("skillTags", .array [])])])])])
  else
    .error "[json.exception.parse_error.101] parse error"

/-- `n` operations of thread `i`, without a fault. -/
def proceed (i n : Nat) : List (Label Choice AccountEvent) := .replicate n (.run i .ok)

/-- User 1 takes the name `ann`, registers with the LeetCode name `a` and fetches the profile. -/
def registerAndUpdate : List (Label Choice AccountEvent) :=
  [.event (.usernameChange 1 "ann"), .event (registerCommand 1 "a")] ++ proceed 1 5 ++
    [.event (.completion 0 (.description "a" 0 0) ⟨200, describedBody⟩)] ++ proceed 2 1 ++ proceed 1 4 ++
    [.event (leetcodeCommand 1 "updateprofile")] ++ proceed 3 3 ++
    [.event (.completion 1 (.profile "a" "ann" "1" 0) ⟨200, statsBody⟩)] ++ proceed 4 3

end LeetBot
