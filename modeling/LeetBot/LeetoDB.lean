import LeetBot.Dpp
import LeetBot.Interleave
import LeetBot.UsersTable

/-!
# The operations of the account commands, and the class `LeetoDB`

The code behind `/register` and `/leetcode` is a program over the operations `Op`: one SQL statement, one message,
one HTTP request, one use of a promise.  The methods of `LeetoDB` are such programs; each performs its statements
one by one, so that other threads can get in between.
-/

namespace LeetBot

open Interleave

/-- `sql::SQLException` -/
inductive SqlException where
  | mk
deriving DecidableEq

/-- A request to LeetCode with what its completion lambda captures. -/
inductive Request where
  | description (username : String) (promise : Nat) (retryCount : Nat)
  | profile (username discordUsername discordId : String) (retryCount : Nat)
  | dailyQuestion (username : String) (retryCount : Nat)
  | activity (username : String) (retryCount : Nat)
deriving DecidableEq

inductive Op where
  /-- A statement that the database executes, or that throws without effect. -/
  | sql (s : Stmt)
  /-- `find_guild_member(guild_id, user_id).get_user()->username` -/
  | memberUsername (userId : Snowflake)
  /-- `edit_original_response`, `edit_response` -/
  | edit (m : Message)
  | makePromise
  /-- `promise->set_value(desc)` -/
  | setValue (promise : Nat) (desc : Option String)
  /-- `co_await AwaitableFuture` -/
  | await (promise : Nat)
  /-- `bot->request` -/
  | request (r : Request)

/-- The answer of an operation; `memberUsername` answers `none` for a `cache_exception`. -/
def Op.Res : Op → Type
  | sql s => Except SqlException s.Result
  | memberUsername _ => Option String
  | edit _ => Unit
  | makePromise => Nat
  | setValue _ _ => Except String Unit
  | await _ => Option String
  | request _ => Unit

abbrev Program := Prog Op Op.Res

/-- A program that can throw. -/
abbrev Throwing := ExceptT String Program

def selectCount (c : StrColumn) (v : String) : Program (Except SqlException Nat) :=
  .perform (Op.sql (.selectCount c v))

def selectWhere (c : StrColumn) (v : String) : Program (Except SqlException (List Row)) :=
  .perform (Op.sql (.select c v))

def insertInto (columns : List Column) (params : List Param) : Program (Except SqlException Unit) :=
  .perform (Op.sql (.insert columns params))

def updateWhere (columns : List Column) (c : StrColumn) (params : List Param) : Program (Except SqlException Unit) :=
  .perform (Op.sql (.update columns c params))

def edit (m : Message) : Program Unit := .perform (Op.edit m)

def request (r : Request) : Program Unit := .perform (Op.request r)

section Bind

variable {α : Type}

@[simp] theorem selectCount_bind (c : StrColumn) (v : String) (f : Except SqlException Nat → Program α) :
    (selectCount c v >>= f) = .call (.sql (.selectCount c v)) f := rfl

@[simp] theorem selectWhere_bind (c : StrColumn) (v : String) (f : Except SqlException (List Row) → Program α) :
    (selectWhere c v >>= f) = .call (.sql (.select c v)) f := rfl

@[simp] theorem insertInto_bind (columns : List Column) (params : List Param)
    (f : Except SqlException Unit → Program α) :
    (insertInto columns params >>= f) = .call (.sql (.insert columns params)) f := rfl

@[simp] theorem updateWhere_bind (columns : List Column) (c : StrColumn) (params : List Param)
    (f : Except SqlException Unit → Program α) :
    (updateWhere columns c params >>= f) = .call (.sql (.update columns c params)) f := rfl

@[simp] theorem edit_bind (m : Message) (f : Unit → Program α) :
    (edit m >>= f) = .call (.edit m) f := rfl

@[simp] theorem request_bind (r : Request) (f : Unit → Program α) :
    (request r >>= f) = .call (.request r) f := rfl

end Bind

/-- `UserProfile` -/
structure UserProfile where
  easySolved : Int := 0
  mediumSolved : Int := 0
  hardSolved : Int := 0
  totalSolved : Int := 0
  ranking : Int := 0
  submissions : Int := 0
  realName : String := ""
  avatarUrl : String := ""
  countryName : String := ""
  skillTags : String := ""
deriving DecidableEq

/-- `LeetoDB`, after `connect()` has set `connected`. -/
structure LeetoDB where
  connected : Bool

namespace LeetoDB

/-- The columns of the statement of `registerUser`. -/
def insertColumns : List Column := [.str .discordId, .str .discordUsername, .str .leetcodeUsername]

/-- The row that `registerUser` inserts. -/
def insertedRow (discordId discordUser leetcodeUser : String) : Row :=
  Row.null.assign insertColumns [.str discordId, .str discordUser, .str leetcodeUser]

variable (db : LeetoDB)

def registerUser (discordId discordUser leetcodeUser : String) : Program Bool := do
  if !db.connected then
    return false
  else
    -- check if registered
    match ← selectCount .discordId discordId with
    | .error _ => return false
    | .ok count =>
      if 0 < count then
        return false
      else
        match ← insertInto insertColumns [.str discordId, .str discordUser, .str leetcodeUser] with
        | .error _ => return false
        | .ok _ => return true

def getLeetcodeUsername (discordId : String) : Program (Option String) := do
  if !db.connected then
    return none
  else
    match ← selectWhere .discordId discordId with
    | .error _ => return none
    | .ok [] => return some ""
    | .ok (row :: _) => return some (row.getString .leetcodeUsername)

/-- Whether the first row stored under the name has all four counts, and true when there is no such row. -/
def statsExist (discordUsername : String) : Program Bool := do
  if !db.connected then
    return false
  else
    match ← selectWhere .discordUsername discordUsername with
    | .error _ => return false
    | .ok [] => return true
    | .ok (row :: _) =>
      return !(row.isNull .easySolved || row.isNull .mediumSolved || row.isNull .hardSolved ||
        row.isNull .totalSolved)

/-- The profile that `getLeetcodeProfile` reads from a row. -/
def rowProfile (row : Row) : UserProfile where
  easySolved := row.getInt .easySolved
  mediumSolved := row.getInt .mediumSolved
  hardSolved := row.getInt .hardSolved
  submissions := row.getInt .totalSubmissions
  totalSolved := row.getInt .totalSolved
  ranking := row.getInt .ranking
  realName := row.getString .realName
  countryName := row.getString .countryName
  skillTags := row.getString .skillTags
  avatarUrl := row.getString .avatarUrl

def getLeetcodeProfile (discordUsername : String) : Program (Option UserProfile) := do
  if !db.connected then
    return none
  else
    match ← selectWhere .discordUsername discordUsername with
    | .error _ => return none
    | .ok [] => return none
    | .ok (row :: _) => return some (rowProfile row)

def getLeetcodeAvatar (discordId : String) : Program (Option String) := do
  if !db.connected then
    return none
  else
    match ← selectWhere .discordId discordId with
    | .error _ => return none
    | .ok [] => return none
    | .ok (row :: _) => return some (row.getString .avatarUrl)

/-- The columns that `updateProfile` sets, in the order of the statement. -/
def updateColumns : List Column :=
  [.str .discordUsername, .int .easySolved, .int .mediumSolved, .int .hardSolved, .str .leetcodeUsername,
    .int .totalSolved, .int .ranking, .str .realName, .str .countryName, .str .skillTags, .str .avatarUrl,
    .int .totalSubmissions]

def updateProfile (discordId discordUsername : String) (easySolved mediumSolved hardSolved submissions : Int)
    (leetcodeUsername : String) (totalSolved ranking : Int) (realName countryName skillTags avatarUrl : String) :
    Program Bool := do
  if !db.connected then
    return false
  else
    match ← selectWhere .discordId discordId with
    | .error _ => return false
    | .ok [] => return false
    | .ok (_ :: _) =>
      match ← updateWhere updateColumns .discordId
          [.str discordUsername, .int easySolved, .int mediumSolved, .int hardSolved, .str leetcodeUsername,
            .int totalSolved, .int ranking, .str realName, .str countryName, .str skillTags, .str avatarUrl,
            .int submissions, .str discordId] with
      | .error _ => return false
      | .ok _ => return true

section Rows

variable (discordId discordUser leetcodeUser : String)

@[simp] theorem insertedRow_discordId :
    (insertedRow discordId discordUser leetcodeUser).str .discordId = some discordId := rfl

@[simp] theorem insertedRow_discordUsername :
    (insertedRow discordId discordUser leetcodeUser).str .discordUsername = some discordUser := rfl

@[simp] theorem insertedRow_leetcodeUsername :
    (insertedRow discordId discordUser leetcodeUser).str .leetcodeUsername = some leetcodeUser := rfl

end Rows

end LeetoDB

end LeetBot
