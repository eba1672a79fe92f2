import LeetBot.LeetoDB
import Mathlib.Data.List.Infix

/-!
# The slash commands

The coroutines behind `/ping`, `/info`, `/register` and `/leetcode`, as programs.  The deferred reply
(`co_thinking`) with which a handler opens is left out; every later text replaces it.
-/

namespace LeetBot

open Interleave

/-- `dpp::command_value` -/
inductive CommandValue where
  | monostate
  | string (s : String)
  | integer (i : Int)
  | boolean (b : Bool)
  | snowflake (id : Snowflake)
  | number (q : Rat)
deriving DecidableEq

structure CommandOption where
  name : String
  value : CommandValue
deriving DecidableEq

structure Subcommand where
  name : String
  options : List CommandOption
deriving DecidableEq

/-- `dpp::slashcommand_t` -/
structure SlashCommand where
  userId : Snowflake
  commandName : String
  options : List Subcommand
deriving DecidableEq

def memberUsername (userId : Snowflake) : Program (Option String) := .perform (Op.memberUsername userId)

def makePromise : Program Nat := .perform Op.makePromise

def await (promise : Nat) : Program (Option String) := .perform (Op.await promise)

@[simp] theorem memberUsername_bind {α : Type} (userId : Snowflake) (f : Option String → Program α) :
    (memberUsername userId >>= f) = .call (.memberUsername userId) f := rfl

@[simp] theorem makePromise_bind {α : Type} (f : Nat → Program α) : (makePromise >>= f) = .call .makePromise f := rfl

@[simp] theorem await_bind {α : Type} (promise : Nat) (f : Option String → Program α) :
    (await promise >>= f) = .call (.await promise) f := rfl

/-! ### `/register` -/

/-- What the loop over the options leaves in `leetcode_user`. -/
def leetcodeName (options : List CommandOption) : String :=
  options.foldl (fun leetcodeUser opt =>
    match opt.value with
    | .string s => if opt.name == "leetcode_name" then s else leetcodeUser
    | _ => leetcodeUser) ""

/-- The text that a user has to put into the profile description. -/
def verificationText (username : String) : String := "LeetBot->[" ++ username ++ "]->Verify"

/-- `desc->find("LeetBot->[" + username + "]->Verify") != std::string::npos` -/
def hasVerification (username desc : String) : Bool := decide ((verificationText username).toList <:+: desc.toList)

theorem hasVerification_iff {username desc : String} : hasVerification username desc = true ↔
    ("LeetBot->[" ++ username ++ "]->Verify").toList <:+: desc.toList :=
  decide_eq_true_iff

def registeredSuccessfully : Message := .text "Registered successfully!"

/-- The `try` block of `handle_registry_commands`, from the point where the member is known. -/
def registerMember (db : LeetoDB) (userId : Snowflake) (leetcodeUser username : String) : Program Unit := do
  if username.isEmpty then
    edit (.text "No username set, please reach discord support for help.")
  else
    let registeredUser := (← db.getLeetcodeUsername (toString userId)).getD ""
    if leetcodeUser == registeredUser then
      edit (.text "This user has already been registered.")
    else
      let promise ← makePromise
      request (.description leetcodeUser promise 0)
      match ← await promise with
      | none => edit (.text "Failed to fetch LeetCode profile. Please try again later.")
      | some desc =>
        if !hasVerification username desc then
          edit (.text ("Verification not found in profile. Please add: " ++ verificationText username))
        else
          let success ← db.registerUser (toString userId) username leetcodeUser
          if success then
            edit registeredSuccessfully
          else
            edit (.text "Registration failed (user may already exist")

def handleRegistryCommands (db : LeetoDB) (event : SlashCommand) : Program Unit := do
  match event.options with
  | [] => edit (.text "No subcommand provided.")
  | subcommand :: _ =>
    if subcommand.name == "user" then
      edit (Message.text "Registering user...").setEphemeral
      match ← memberUsername event.userId with
      -- the cache_exception is caught below
      | none => edit (.text "Error occurred with registration.")
      | some username => registerMember db event.userId (leetcodeName subcommand.options) username
    else
      edit (.text "No subcommand with that name found.")

/-! ### `/leetcode` -/

/-- The message that shows a profile from the table. -/
def profileMessage (leetcodeUsername : String) (profile : UserProfile) : Message :=
  let embed := ({} : Embed)
    |>.setTitle (leetcodeUsername ++ "'s Leetcode profile")
    |>.setDescription (profile.realName ++ "'s Profile!")
    |>.setThumbnail profile.avatarUrl
    |>.addField "Country" profile.countryName
    |>.addField "Easy solved" (toString profile.easySolved)
    |>.addField "Medium solved" (toString profile.mediumSolved)
    |>.addField "Hard solved" (toString profile.hardSolved)
    |>.addField "Total solved" (toString profile.totalSolved)
    |>.addField "Total accepted submissions" (toString profile.submissions)
    |>.addField "Ranking" (toString profile.ranking) true
    |>.addField "Skills" profile.skillTags
    |>.setColor .orangeGold
  ({} : Message).addEmbed embed

theorem profileMessage_embeds_ne (leetcodeUsername : String) (profile : UserProfile) :
    (profileMessage leetcodeUsername profile).embeds ≠ [] :=
  List.cons_ne_nil _ _

def profileError : Message :=
  .text "Error occurred in getting user profile. Consult someone who works on this to fix."

/-- The opening of each subcommand: it looks up the name of the user, and goes on with one that is not empty. -/
def withLeetcodeUsername (db : LeetoDB) (userId : Snowflake) (failure : String) (f : String → Program Unit) :
    Program Unit := do
  let leetcodeUsername := (← db.getLeetcodeUsername (toString userId)).getD ""
  if leetcodeUsername.isEmpty then
    edit (.text failure)
  else
    f leetcodeUsername

def handleProfile (db : LeetoDB) (userId : Snowflake) (username : String) : Program Unit :=
  withLeetcodeUsername db userId "Failed to get your leetcode username, remember to register with the bot first!"
    fun leetcodeUsername => do
      edit (.text "Fetching your LeetCode Profile...")
      if ← db.statsExist username then
        match ← db.getLeetcodeProfile username with
        | none => edit profileError
        | some profile => edit (profileMessage leetcodeUsername profile)
      else
        request (.profile leetcodeUsername username (toString userId) 0)

def handleUpdateprofile (db : LeetoDB) (userId : Snowflake) (username : String) : Program Unit :=
  withLeetcodeUsername db userId "Failed to get your leetcode username, remember to register with the bot first!"
    fun leetcodeUsername => request (.profile leetcodeUsername username (toString userId) 0)

def handleDailyquestion (db : LeetoDB) (userId : Snowflake) : Program Unit :=
  withLeetcodeUsername db userId "Failed to get your leetcoe username, make sure to register with the bot."
    fun leetcodeUsername => request (.dailyQuestion leetcodeUsername 0)

def handleActivity (db : LeetoDB) (userId : Snowflake) : Program Unit :=
  withLeetcodeUsername db userId "Failed to get your leetcode username, make sure to register with the bot."
    fun leetcodeUsername => request (.activity leetcodeUsername 0)

def handleLeetcodeCommands (db : LeetoDB) (event : SlashCommand) : Program Unit := do
  match ← memberUsername event.userId with
  -- nothing catches the cache_exception
  | none => return
  | some username =>
    match event.options with
    | [] => edit (.text "No subcommand provided.")
    | subcommand :: _ =>
      if subcommand.name == "profile" then handleProfile db event.userId username
      else if subcommand.name == "updateprofile" then handleUpdateprofile db event.userId username
      else if subcommand.name == "dailyquestion" then handleDailyquestion db event.userId
      else if subcommand.name == "activity" then handleActivity db event.userId
      else edit (.text "Subcommand not found.")

/-! ### All commands -/

def handleInfoCommands (event : SlashCommand) : Program Unit :=
  match event.options with
  | [] => edit (.text "No subcommand provided.")
  | subcommand :: _ =>
    if subcommand.name == "general" then
      let embed := ({} : Embed)
        |>.setTitle "Leetcode Tracking Bot"
        |>.setDescription ("General bot for tracking leetcode stats, has many different features to help in your " ++
          "Leetcode journey!")
        |>.setColor .orangeGold
      edit (({} : Message).addEmbed embed)
    else
      edit (.text "Unknown subcommand.")

def handleSlashCommands (db : LeetoDB) (event : SlashCommand) : Program Unit :=
  if event.commandName == "ping" then edit (.text "Pong!")
  else if event.commandName == "info" then handleInfoCommands event
  else if event.commandName == "register" then handleRegistryCommands db event
  else if event.commandName == "leetcode" then handleLeetcodeCommands db event
  else pure ()

/-- The LeetCode name for which a command is a `/register user`. -/
def SlashCommand.registers (event : SlashCommand) : Option String :=
  match event.options with
  | [] => none
  | subcommand :: _ =>
    if event.commandName = "register" ∧ subcommand.name = "user" then some (leetcodeName subcommand.options)
    else none

/-- Whether a command is a `/leetcode profile`. -/
def SlashCommand.asksForProfile (event : SlashCommand) : Prop :=
  event.commandName = "leetcode" ∧ event.options.head?.map Subcommand.name = some "profile"

theorem handleSlashCommands_of_asksForProfile (db : LeetoDB) {event : SlashCommand} (h : event.asksForProfile) :
    handleSlashCommands db event = (do
      match ← memberUsername event.userId with
      | none => return
      | some username => handleProfile db event.userId username) := by
  obtain ⟨hcmd, hoptions⟩ := h
  cases hopts : event.options with
  | nil => simp [hopts] at hoptions
  | cons subcommand rest =>
    have hname : subcommand.name = "profile" := by simpa [hopts] using hoptions
    unfold handleSlashCommands handleLeetcodeCommands
    simp [hcmd, hopts, hname]

theorem SlashCommand.commandName_of_registers {event : SlashCommand} {L : String} (h : event.registers = some L) :
    event.commandName = "register" := by
  unfold SlashCommand.registers at h
  split at h
  · cases h
  · split at h
    · rename_i hcmd
      exact hcmd.1
    · cases h

end LeetBot
