import LeetBot.Nlohmann

/-!
# What the bot uses of D++

User ids, HTTP completions, and the messages the bot sends with the lengths the library cuts their parts to.
Timestamps of embeds are left out: they are the time of day.
-/

namespace LeetBot

/-- `dpp::snowflake`, the id of a user. -/
abbrev Snowflake := UInt64

/-- `dpp::http_request_completion_t` -/
structure HttpCompletion where
  status : Nat
  body : String
deriving DecidableEq

/-- `NetworkLimits::MAX_RESPONSE_BYTES` -/
def maxResponseBytes : Nat := 100000

/-- `cc.body.size()` -/
def HttpCompletion.bodySize (cc : HttpCompletion) : Nat := cc.body.utf8ByteSize

/-- The first `n` code points of a text. -/
def utf8substr (n : Nat) (s : String) : String := .ofList (s.toList.take n)

section Cut

variable {n : Nat} {text : String}

theorem toList_utf8substr : (utf8substr n text).toList = text.toList.take n := by
  rw [utf8substr, String.toList_ofList]

theorem length_utf8substr_le : (utf8substr n text).length ≤ n := by
  rw [← String.length_toList, toList_utf8substr]
  exact List.length_take_le _ _

/-- A text that is not too long is not cut. -/
theorem utf8substr_of_le (h : text.length ≤ n) : utf8substr n text = text := by
  rw [utf8substr, List.take_of_length_le (by rwa [String.length_toList]), String.ofList_toList]

end Cut

inductive Color where
  | orangeRed
  | orangeGold
  | mangoOrange
  | orangeSalmon
  | yellowOrange
  | brightGold
  | brightOrange
deriving DecidableEq

structure Field where
  name : String
  value : String
  inline : Bool
deriving DecidableEq

/-- `dpp::embed` -/
structure Embed where
  title : String := ""
  description : String := ""
  thumbnail : String := ""
  color : Option Color := none
  fields : List Field := []
deriving DecidableEq

namespace Embed

def setTitle (e : Embed) (text : String) : Embed := { e with title := utf8substr 256 text }

def setDescription (e : Embed) (text : String) : Embed := { e with description := utf8substr 4096 text }

def setThumbnail (e : Embed) (url : String) : Embed := { e with thumbnail := url }

def setColor (e : Embed) (c : Color) : Embed := { e with color := some c }

def addField (e : Embed) (name value : String) (inline : Bool := false) : Embed :=
  { e with fields := e.fields ++ [⟨utf8substr 256 name, utf8substr 1024 value, inline⟩] }

variable (e : Embed) (text name value : String) (c : Color) (inline : Bool)

@[simp] theorem setTitle_fields : (e.setTitle text).fields = e.fields := rfl

@[simp] theorem setDescription_fields : (e.setDescription text).fields = e.fields := rfl

@[simp] theorem setThumbnail_fields : (e.setThumbnail text).fields = e.fields := rfl

@[simp] theorem setColor_fields : (e.setColor c).fields = e.fields := rfl

@[simp] theorem addField_fields : (e.addField name value inline).fields =
    e.fields ++ [⟨utf8substr 256 name, utf8substr 1024 value, inline⟩] := rfl

end Embed

/-- `dpp::component`: the two kinds the bot puts into its action rows. -/
inductive Component where
  | button (label customId : String)
  | selectmenu (placeholder customId : String) (options : List String)
deriving DecidableEq

/-- A button with the given label, and the id that `set_id` keeps of `id`. -/
def Component.mkButton (label id : String) : Component :=
  .button (utf8substr 80 label) (utf8substr 100 id)

/-- `dpp::message`; a component row is the list of its components. -/
structure Message where
  content : String := ""
  embeds : List Embed := []
  rows : List (List Component) := []
  ephemeral : Bool := false
deriving DecidableEq

namespace Message

/-- `dpp::message(text)` -/
def text (content : String) : Message := { content }

def addEmbed (m : Message) (e : Embed) : Message := { m with embeds := m.embeds ++ [e] }

def addComponent (m : Message) (row : List Component) : Message := { m with rows := m.rows ++ [row] }

/-- `dpp::message(channel_id, embed)` -/
def ofEmbed (e : Embed) : Message := addEmbed {} e

/-- `set_flags(dpp::m_ephemeral)` -/
def setEphemeral (m : Message) : Message := { m with ephemeral := true }

end Message

/-- What a completion lambda does with a response: it issues the request again with the given `retry_count`, or it
handles the response. -/
inductive Reaction (α : Type) where
  | retry (retryCount : Nat)
  | handled (a : α)

namespace Reaction

variable {α β : Type}

/-- The `retry_count` of the request that the lambda issues, if it issues one. -/
def retried : Reaction α → Option Nat
  | retry n => some n
  | handled _ => none

end Reaction

end LeetBot
