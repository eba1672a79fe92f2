import LeetBot.Errands
import LeetBot.Replies

/-!
# The registered commands

`register_slash_commands` tells Discord which commands there are, and Discord sends only commands of this tree.  The
handlers know the tree from the names they compare with: a command of the tree is never told that there is no such
subcommand, and `/register user` finds the name that was given.
-/

namespace LeetBot

open Interleave

/-! ### The tree -/

/-- `dpp::command_option` of the type `co_string`. -/
structure ParameterSpec where
  name : String
  description : String
  required : Bool := false

/-- `dpp::command_option` of the type `co_sub_command`. -/
structure SubcommandSpec where
  name : String
  description : String
  options : List ParameterSpec := []

/-- `dpp::slashcommand` -/
structure CommandSpec where
  name : String
  description : String
  options : List SubcommandSpec := []

def SubcommandSpec.addOption (s : SubcommandSpec) (o : ParameterSpec) : SubcommandSpec :=
  { s with options := s.options ++ [o] }

def CommandSpec.addOption (s : CommandSpec) (o : SubcommandSpec) : CommandSpec :=
  { s with options := s.options ++ [o] }

/-- The commands that `register_slash_commands` creates. -/
def slashCommands : List CommandSpec :=
  let ping : CommandSpec := { name := "ping", description := "Replies with Pong!" }
  let info := ({ name := "info", description := "info commands." } : CommandSpec)
    |>.addOption { name := "general", description := "General information about the bot." }
  let register := ({ name := "register", description := "register commands." } : CommandSpec)
    |>.addOption (({ name := "user", description := "register user with the bot." } : SubcommandSpec)
      |>.addOption { name := "leetcode_name", description := "your leetcode username", required := true })
  let leetcode := ({ name := "leetcode", description := "leetcode interactive commands." } : CommandSpec)
    |>.addOption { name := "profile", description := "get leetcode profile." }
    |>.addOption { name := "updateprofile", description := "updates your profile if anything is new." }
    |>.addOption { name := "dailyquestion", description := "Gets the daily leetcode question" }
    |>.addOption {
      name := "activity"
      description := "Gets your daily active streak from the site and total activity" }
  [ping, info, register, leetcode]

/-- The options that a user can give for the parameters of a subcommand: texts for some of them, and for all that are
required. -/
structure OptionsFit (params : List ParameterSpec) (options : List CommandOption) : Prop where
  known : ∀ o ∈ options, ∃ p ∈ params, o.name = p.name ∧ ∃ s, o.value = .string s
  given : ∀ p ∈ params, p.required = true → ∃ o ∈ options, o.name = p.name
  once : (options.map CommandOption.name).Nodup

/-- A command that Discord can send for the tree. -/
def Invokes (commands : List CommandSpec) (event : SlashCommand) : Prop :=
  ∃ spec ∈ commands, event.commandName = spec.name ∧
    ((spec.options = [] ∧ event.options = []) ∨
      ∃ sub ∈ spec.options, ∃ options, event.options = [⟨sub.name, options⟩] ∧ OptionsFit sub.options options)

/-- The command and its subcommand, if it has some, have the names of the tree. -/
def Named (commands : List CommandSpec) (event : SlashCommand) : Prop :=
  ∃ spec ∈ commands, event.commandName = spec.name ∧
    (spec.options = [] ∨ ∃ sub ∈ spec.options, event.options.head?.map Subcommand.name = some sub.name)

private theorem Invokes.named {commands : List CommandSpec} {event : SlashCommand} (h : Invokes commands event) :
    Named commands event := by
  obtain ⟨spec, hspec, hname, ⟨hnone, -⟩ | ⟨sub, hsub, options, hoptions, -⟩⟩ := h
  · exact ⟨spec, hspec, hname, .inl hnone⟩
  · refine ⟨spec, hspec, hname, .inr ⟨sub, hsub, ?_⟩⟩
    rw [hoptions]
    rfl

/-! ### What the handlers know -/

/-- The texts for a command that is not one of the tree. -/
def fallbackTexts : List Message :=
  [.text "No subcommand provided.", .text "Unknown subcommand.", .text "No subcommand with that name found.",
    .text "Subcommand not found."]

/-- An operation that does not show one of them. -/
abbrev NoFallback : Op → Prop := Op.Shows (· ∉ fallbackTexts)

section Handlers

variable {db : LeetoDB} {event : SlashCommand}

private theorem verification_notMem (u : String) :
    Message.text ("Verification not found in profile. Please add: " ++ verificationText u) ∉ fallbackTexts := by
  intro h
  have hhead : ∀ m ∈ fallbackTexts, m.content.toList.head? ≠ some 'V' := by decide
  apply hhead _ h
  simp [Message.text]

private theorem registrationMessages_notMem (u : String) : ∀ m ∈ registrationMessages u, m ∉ fallbackTexts := by
  intro m hm
  simp only [registrationMessages, List.mem_cons, List.not_mem_nil, or_false] at hm
  rcases hm with rfl | rfl | rfl | rfl | rfl | rfl
  · decide
  · decide
  · decide
  · exact verification_notMem u
  · decide
  · decide

private theorem profileMessage_notMem (L : String) (profile : UserProfile) :
    profileMessage L profile ∉ fallbackTexts := by
  intro hmem
  have htexts : ∀ m ∈ fallbackTexts, m.embeds = [] := by decide
  exact profileMessage_embeds_ne L profile (htexts _ hmem)

private theorem only_handleUpdateprofile {u : String} : (handleUpdateprofile db event.userId u).Only NoFallback :=
  only_withLeetcodeUsername (by decide) fun _ => only_request

private theorem only_handleDailyquestion : (handleDailyquestion db event.userId).Only NoFallback :=
  only_withLeetcodeUsername (by decide) fun _ => only_request

private theorem only_handleActivity : (handleActivity db event.userId).Only NoFallback :=
  only_withLeetcodeUsername (by decide) fun _ => only_request

end Handlers

/-! ### The commands of the tree -/

section Tree

variable {db : LeetoDB} {event : SlashCommand}

/-- The name of the subcommand that the handlers look at. -/
def SlashCommand.subcommandName (event : SlashCommand) : Option String := event.options.head?.map Subcommand.name

private theorem named_slashCommands_iff :
    Named slashCommands event ↔
      event.commandName = "ping" ∨
      event.commandName = "info" ∧ event.subcommandName = some "general" ∨
      event.commandName = "register" ∧ event.subcommandName = some "user" ∨
      event.commandName = "leetcode" ∧ (event.subcommandName = some "profile" ∨
        event.subcommandName = some "updateprofile" ∨ event.subcommandName = some "dailyquestion" ∨
        event.subcommandName = some "activity") := by
  simp [Named, slashCommands, CommandSpec.addOption, SubcommandSpec.addOption, SlashCommand.subcommandName]

private theorem only_handleInfoCommands_iff :
    (handleInfoCommands event).Only NoFallback ↔ event.subcommandName = some "general" := by
  unfold handleInfoCommands SlashCommand.subcommandName
  cases event.options with
  | nil =>
    constructor
    · intro h
      exact absurd (by decide) (h.1 _ rfl)
    · intro h
      cases h
  | cons subcommand rest =>
    have hname : (subcommand :: rest).head?.map Subcommand.name = some "general" ↔ subcommand.name = "general" :=
      Option.some_inj
    rw [hname]
    dsimp only
    split
    · rename_i hgeneral
      have htexts : ∀ m ∈ fallbackTexts, m.embeds = [] := by decide
      refine iff_of_true (only_edit fun hmem => ?_) (by simpa using hgeneral)
      exact absurd (htexts _ hmem) (List.cons_ne_nil _ _)
    · rename_i hgeneral
      exact iff_of_false (fun h => absurd (by decide) (h.1 _ rfl)) (by simpa using hgeneral)

private theorem only_handleRegistryCommands_iff :
    (handleRegistryCommands db event).Only NoFallback ↔ event.subcommandName = some "user" := by
  unfold handleRegistryCommands SlashCommand.subcommandName
  cases event.options with
  | nil =>
    constructor
    · intro h
      exact absurd (by decide) (h.1 _ rfl)
    · intro h
      cases h
  | cons subcommand rest =>
    have hname : (subcommand :: rest).head?.map Subcommand.name = some "user" ↔ subcommand.name = "user" :=
      Option.some_inj
    rw [hname]
    dsimp only
    split
    · rename_i huser
      refine iff_of_true ?_ (by simpa using huser)
      simp only [edit_bind, memberUsername_bind]
      refine ⟨Op.shows_edit.2 (by decide), fun _ => ⟨Op.shows_of_ne (by simp), fun username => ?_⟩⟩
      cases username with
      | none => exact only_edit (by decide)
      | some username => exact only_registerMember (registrationMessages_notMem _)
    · rename_i huser
      exact iff_of_false (fun h => absurd (by decide) (h.1 _ rfl)) (by simpa using huser)

private theorem only_handleLeetcodeCommands_iff :
    (handleLeetcodeCommands db event).Only NoFallback ↔
      event.subcommandName = some "profile" ∨ event.subcommandName = some "updateprofile" ∨
        event.subcommandName = some "dailyquestion" ∨ event.subcommandName = some "activity" := by
  unfold handleLeetcodeCommands SlashCommand.subcommandName
  rw [memberUsername_bind]
  cases event.options with
  | nil =>
    constructor
    · intro h
      exact absurd (by decide) ((h.2 (some "")).1 _ rfl)
    · intro h
      simp at h
  | cons subcommand rest =>
    have hname : ∀ s, (subcommand :: rest).head?.map Subcommand.name = some s ↔ subcommand.name = s :=
      fun _ => Option.some_inj
    simp only [hname]
    constructor
    · intro h
      have hsome := h.2 (some "")
      by_contra hnot
      simp only [not_or] at hnot
      obtain ⟨h1, h2, h3, h4⟩ := hnot
      simp only [beq_iff_eq, h1, h2, h3, h4, if_false] at hsome
      exact absurd (by decide) (hsome.1 _ rfl)
    · intro h
      refine ⟨Op.shows_of_ne (by simp), fun username => ?_⟩
      cases username with
      | none => trivial
      | some username =>
        dsimp only
        split
        · exact only_handleProfile (by decide) (by decide) (by decide) profileMessage_notMem
        split
        · exact only_handleUpdateprofile
        split
        · exact only_handleDailyquestion
        split
        · exact only_handleActivity
        · simp_all

private theorem Named.mem_names (h : Named slashCommands event) :
    event.commandName ∈ slashCommands.map CommandSpec.name := by
  obtain ⟨spec, hspec, hname, -⟩ := h
  exact List.mem_map.2 ⟨spec, hspec, hname.symm⟩

/-- The handlers and the tree agree: a command whose first name is one of the tree is understood, whatever the
operations answer, exactly when it is a command of the tree. -/
private theorem understood_iff (h : event.commandName ∈ slashCommands.map CommandSpec.name) :
    (handleSlashCommands db event).Only NoFallback ↔ Named slashCommands event := by
  have hnames : slashCommands.map CommandSpec.name = ["ping", "info", "register", "leetcode"] := rfl
  rw [hnames] at h
  rw [named_slashCommands_iff]
  unfold handleSlashCommands
  simp only [List.mem_cons, List.not_mem_nil, or_false] at h
  rcases h with h | h | h | h
  · simp only [h, beq_self_eq_true, if_true, true_or, iff_true]
    exact only_edit (by decide)
  · simp [h, only_handleInfoCommands_iff]
  · simp [h, only_handleRegistryCommands_iff]
  · simp [h, only_handleLeetcodeCommands_iff]

private theorem only_handleSlashCommands (h : Named slashCommands event) :
    (handleSlashCommands db event).Only NoFallback :=
  (understood_iff h.mem_names).2 h

end Tree

/-! ### What a user of the tree sees -/

section Runs

variable {parse : String → Except String Json} {db : LeetoDB} {ok : AccountWorld → Label Choice AccountEvent → Prop}
  {w : AccountWorld} {event : SlashCommand}

private theorem options_of_register {spec : CommandSpec} (h : spec ∈ slashCommands) (hname : spec.name = "register") :
    spec.options = [{ name := "user", description := "register user with the bot.", options := [
      { name := "leetcode_name", description := "your leetcode username", required := true }] }] := by
  simp only [slashCommands, List.mem_cons, List.not_mem_nil, or_false] at h
  rcases h with rfl | rfl | rfl | rfl
  · simp at hname
  · simp [CommandSpec.addOption] at hname
  · rfl
  · simp [CommandSpec.addOption] at hname

/-- A `/register` of the tree has one subcommand, with one option that is a text. -/
private theorem Invokes.register (h : Invokes slashCommands event) (hcmd : event.commandName = "register") :
    ∃ L, event.options = [⟨"user", [⟨"leetcode_name", .string L⟩]⟩] ∧ event.registers = some L := by
  obtain ⟨spec, hspec, hname, hoptions⟩ := h
  have hsubs := options_of_register hspec (hname.symm.trans hcmd)
  rcases hoptions with ⟨hnone, -⟩ | ⟨sub, hsub, options, hopts, hfits⟩
  · rw [hnone] at hsubs
    cases hsubs
  rw [hsubs, List.mem_singleton] at hsub
  subst hsub
  have hvalue : ∀ o ∈ options, ∃ s, o = ⟨"leetcode_name", .string s⟩ := by
    intro o ho
    obtain ⟨p, hp, hn, s, hs⟩ := hfits.known o ho
    obtain rfl := List.mem_singleton.1 hp
    obtain ⟨n, v⟩ := o
    dsimp only at hn hs
    exact ⟨s, by rw [hn, hs]⟩
  obtain ⟨o, ho, -⟩ := hfits.given _ (List.mem_singleton_self _) rfl
  -- the option is there, and no second one has its name
  obtain ⟨L, rfl⟩ : ∃ L, options = [⟨"leetcode_name", .string L⟩] := by
    rcases options with _ | ⟨o₁, _ | ⟨o₂, rest⟩⟩
    · cases ho
    · obtain ⟨s, rfl⟩ := hvalue o₁ List.mem_cons_self
      exact ⟨s, rfl⟩
    · obtain ⟨s₁, rfl⟩ := hvalue o₁ List.mem_cons_self
      obtain ⟨s₂, rfl⟩ := hvalue o₂ (List.mem_cons_of_mem _ List.mem_cons_self)
      have hnodup := hfits.once
      simp at hnodup
  refine ⟨L, hopts, ?_⟩
  simp [SlashCommand.registers, hopts, hcmd, leetcodeName]

private theorem understood_arrive (parse : String → Except String Json) (db : LeetoDB) (e : AccountEvent)
    (a a' : Accounts) (p : Program Unit) (h : (accounts parse db).arrive e a = some (a', p)) :
    p.Only fun o => ∀ event, e = .slashcommand event → Named slashCommands event → NoFallback o := by
  by_cases he : ∃ event, e = .slashcommand event ∧ Named slashCommands event
  · obtain ⟨event, rfl, hnamed⟩ := he
    cases h
    exact (only_handleSlashCommands hnamed).mono fun o ho _ _ _ => ho
  · apply Prog.only_of_forall
    intro o event heq hnamed
    exact absurd ⟨event, heq, hnamed⟩ he

/-- In every run, a command of the tree is not told that there is no such subcommand; a registration asks about the
name that was given; and a command that ends has shown something or handed the matter on, unless its user is not
found. -/
theorem invocations_understood (hw : Reachable parse db ok w) {c : Nat}
    (hc : .arrived c (.slashcommand event) ∈ w.history) (h : Invokes slashCommands event) :
    (∀ m, .performed c (.edit m) () ∈ w.history → m ∉ fallbackTexts) ∧
      (event.commandName = "register" → ∃ L, event.options = [⟨"user", [⟨"leetcode_name", .string L⟩]⟩] ∧
        ∀ L' p n, .description L' p n ∈ requested (w.trace c) → L' = L) ∧
      (w.ended c → Answered (w.trace c) ∨ HandsOver (w.trace c) ∨
        event.commandName = "leetcode" ∧ .performed c (.memberUsername event.userId) none ∈ w.history) := by
  have hname : event.commandName ∈ ["ping", "info", "register", "leetcode"] := by
    rcases named_slashCommands_iff.1 h.named with h | ⟨h, -⟩ | ⟨h, -⟩ | ⟨h, -⟩ <;> simp [h]
  refine ⟨fun m hm hmem => ?_, fun hcmd => ?_, fun hend => ?_⟩
  · obtain ⟨e, he, hshows⟩ := hw.performed_only (understood_arrive parse db) hm
    exact hshows event (hw.arrived_unique he hc) h.named m rfl hmem
  · obtain ⟨L, hopts, hreg⟩ := h.register hcmd
    refine ⟨L, hopts, fun L' p n hq => ?_⟩
    obtain ⟨e, t, he, hturn, -⟩ := performed_turn hw (mem_requested.1 hq)
    obtain rfl := hw.arrived_unique he hc
    have hasks : event.registers = some L' := hturn.2.2.1
    exact Option.some.inj (hasks.symm.trans hreg)
  · rcases turn_end hw hc hend with hanswered | hover | hunknown | ⟨hcmd, hnone⟩
    · exact .inl hanswered
    · exact .inr (.inl hover)
    · exact absurd hname hunknown
    · exact .inr (.inr ⟨hcmd, World.mem_trace.1 hnone⟩)

private theorem invokes_registerCommand (d : Snowflake) (L : String) :
    Invokes slashCommands ⟨d, "register", [⟨"user", [⟨"leetcode_name", .string L⟩]⟩]⟩ := by
  refine ⟨_, List.mem_cons_of_mem _ (List.mem_cons_of_mem _ List.mem_cons_self), rfl, .inr ?_⟩
  refine ⟨_, List.mem_singleton_self _, _, rfl, ?_⟩
  constructor
  · intro o ho
    obtain rfl := List.mem_singleton.1 ho
    exact ⟨_, List.mem_singleton_self _, rfl, L, rfl⟩
  · intro p hp _
    obtain rfl := List.mem_singleton.1 hp
    exact ⟨_, List.mem_singleton_self _, rfl⟩
  · exact List.nodup_singleton _

/-- A run in which a registration is rate-limited. -/
theorem invocations_understood_registering :
    ∃ w, Reachable sampleParse ⟨true⟩ (fun _ _ => True) w ∧ requested (w.trace 1) = [.description "a" 0 0] ∧
      (∀ m, .performed 1 (.edit m) () ∈ w.history → m ∉ fallbackTexts) ∧
      (∃ L, [(⟨"user", [⟨"leetcode_name", .string "a"⟩]⟩ : Subcommand)] =
          [⟨"user", [⟨"leetcode_name", .string L⟩]⟩] ∧
        ∀ L' p n, .description L' p n ∈ requested (w.trace 1) → L' = L) ∧
      (w.ended 1 → Answered (w.trace 1) ∨ HandsOver (w.trace 1) ∨
        "register" = "leetcode" ∧ .performed 1 (.memberUsername 1) none ∈ w.history) := by
  have hrun : ((accounts sampleParse ⟨true⟩).run (fun _ _ => True) AccountWorld.initial registerLimited).any
      (fun w => w.threads[1]?.map Prod.fst = some (registerCommand 1 "a") ∧
        requested (w.trace 1) = [.description "a" 0 0]) = true := by decide +kernel
  obtain ⟨w, hw, htest⟩ := System.Reach.exists_of_run hrun
  obtain ⟨hthread, hasked⟩ := of_decide_eq_true htest
  obtain ⟨hedits, hreg, hend⟩ :=
    invocations_understood hw (hw.arrived_of_thread hthread) (invokes_registerCommand 1 "a")
  exact ⟨w, hw, hasked, hedits, hreg rfl, hend⟩

end Runs

end LeetBot
