import LeetBot.Answers
import LeetBot.Ownership

/-!
# The check and the read of a stored profile

`/leetcode profile` asks `statsExist` before it calls `getLeetcodeProfile`.  Both look for a row under the current
Discord username; when there is none, `statsExist` says yes and `getLeetcodeProfile` returns nothing, and a user who
is registered is told that an error has occurred.
-/

namespace LeetBot

open Interleave

variable {parse : String → Except String Json} {db : LeetoDB} {ok : AccountWorld → Label Choice AccountEvent → Prop}
  {w w' : AccountWorld} {l : Label Choice AccountEvent} {n : String}

def Stored (users : List Row) (n : String) : Prop := ∃ row ∈ users, row.str .discordUsername = some n

instance (users : List Row) (n : String) : Decidable (Stored users n) :=
  inferInstanceAs (Decidable (∃ row ∈ users, row.str .discordUsername = some n))

private theorem rowsWhere_eq_nil_iff {users : List Row} :
    Stmt.rowsWhere users .discordUsername n = [] ↔ ¬Stored users n := by
  simp [Stmt.rowsWhere, Stored]

/-! ### One command -/

private theorem statsExist_iff_stored {a : Accounts} (hdb : db.connected) :
    (answer parse db (db.statsExist n) a = some true →
      ∃ p, answer parse db (db.getLeetcodeProfile n) a = some (some p)) ↔ Stored a.users n := by
  simp only [answer, undisturbed_statsExist hdb, undisturbed_getLeetcodeProfile hdb, Option.map_some,
    Option.some.injEq]
  by_cases h : Stored a.users n
  · cases hrows : Stmt.rowsWhere a.users .discordUsername n with
    | nil => exact absurd h (rowsWhere_eq_nil_iff.1 hrows)
    | cons row rest => simp [h]
  · simp [rowsWhere_eq_nil_iff.2 h, h]

/-- A command has shown a profile or asked for a new one, and has not reported an error. -/
def ShowsOrFetches (t : Trace Op Op.Res) : Prop := profileError ∉ texts t ∧ (ShowsProfile t ∨ FetchesProfile t)

private theorem showsOrFetches_cons_memberUsername {d : Snowflake} {u : Option String} {t : Trace Op Op.Res} :
    ShowsOrFetches (⟨.memberUsername d, u⟩ :: t) ↔ ShowsOrFetches t := by
  have htexts : texts (⟨.memberUsername d, u⟩ :: t) = texts t := rfl
  have hrequested : requested (⟨.memberUsername d, u⟩ :: t) = requested t := rfl
  have hselect : ∀ n row rest, (⟨.sql (.select .discordUsername n), .ok (row :: rest)⟩ : Σ o : Op, o.Res) ∈
      ⟨.memberUsername d, u⟩ :: t ↔ ⟨.sql (.select .discordUsername n), .ok (row :: rest)⟩ ∈ t := by
    intro n row rest
    rw [List.mem_cons, or_iff_right]
    intro h
    cases h
  simp only [ShowsOrFetches, ShowsProfile, FetchesProfile, htexts, hrequested, hselect]

private theorem profileError_ne (L : String) (p : UserProfile) : profileError ≠ profileMessage L p := fun h =>
  profileMessage_embeds_ne L p (h ▸ rfl)

private theorem profileError_ne_fetching : profileError ≠ .text "Fetching your LeetCode Profile..." := by decide

/-- What the handler does for a user who has a row with a name, when nothing interrupts it. -/
private theorem undisturbed_handleProfile {a : Accounts} (hdb : db.connected) {userId : Snowflake} {own : Row}
    {others : List Row} (hown : Stmt.rowsWhere a.users .discordId (toString userId) = own :: others)
    (hL : own.getString .leetcodeUsername ≠ "") :
    ∃ t s, undisturbed parse db (handleProfile db userId n) a = some ((), t, s) ∧
      (ShowsOrFetches t ↔ Stored a.users n) := by
  have hempty : (own.getString .leetcodeUsername).isEmpty = false := by simpa using hL
  unfold handleProfile withLeetcodeUsername
  rw [undisturbed_bind (undisturbed_getLeetcodeUsername hdb), hown]
  simp only [Option.getD_some, hempty, Bool.false_eq_true, if_false, edit_bind, undisturbed_edit]
  rw [undisturbed_bind (undisturbed_statsExist hdb)]
  cases hrows : Stmt.rowsWhere a.users .discordUsername n with
  | nil =>
    -- the check says yes, and there is no profile
    have hnot := rowsWhere_eq_nil_iff.1 hrows
    simp only [if_true]
    rw [undisturbed_bind (undisturbed_getLeetcodeProfile hdb), hrows]
    refine ⟨_, _, rfl, ?_⟩
    simp [ShowsOrFetches, texts, hnot]
  | cons row rest =>
    have hmem : row ∈ Stmt.rowsWhere a.users .discordUsername n := hrows ▸ List.mem_cons_self
    obtain ⟨hrow, hn⟩ := Stmt.mem_rowsWhere.1 hmem
    have hstored : Stored a.users n := ⟨row, hrow, hn⟩
    simp only
    split
    · rw [undisturbed_bind (undisturbed_getLeetcodeProfile hdb), hrows]
      refine ⟨_, _, rfl, ?_⟩
      simp only [ShowsOrFetches, hstored, iff_true]
      refine ⟨?_, .inl ⟨own.getString .leetcodeUsername, n, row, rest, by simp, by simp [texts]⟩⟩
      simp [texts, profileError_ne_fetching, profileError_ne]
    · refine ⟨_, _, rfl, ?_⟩
      simp [ShowsOrFetches, FetchesProfile, texts, requested, hstored, profileError_ne_fetching]

/-- `/leetcode profile` of a registered user shows a profile or asks for one exactly if a row is stored under the
current name of the user. -/
private theorem undisturbed_profile (hw : Reachable parse db ok w) (hdb : db.connected) {event : SlashCommand}
    (hasks : event.asksForProfile) (hname : w.shared.members.lookup event.userId = some n)
    (hrow : ∃ row ∈ w.shared.users, row.str .discordId = some (toString event.userId)) :
    ∃ t s, undisturbed parse db (handleSlashCommands db event) w.shared = some ((), t, s) ∧
      (ShowsOrFetches t ↔ Stored w.shared.users n) := by
  obtain ⟨row, hrow, hid⟩ := hrow
  cases hown : Stmt.rowsWhere w.shared.users .discordId (toString event.userId) with
  | nil => exact absurd (Stmt.mem_rowsWhere.2 ⟨hrow, hid⟩) (by simp [hown])
  | cons own others =>
    -- the name in a row is not empty
    have hmem : own ∈ Stmt.rowsWhere w.shared.users .discordId (toString event.userId) := hown ▸ List.mem_cons_self
    obtain ⟨d, L, -, hL, hne, -⟩ := (owned_of_reachable hw).rows own (Stmt.mem_rowsWhere.1 hmem).1
    obtain ⟨t, s, hrun, hiff⟩ : ∃ t s, undisturbed parse db (handleProfile db event.userId n) w.shared =
        some ((), t, s) ∧ (ShowsOrFetches t ↔ Stored w.shared.users n) :=
      undisturbed_handleProfile hdb hown (by simpa [Row.getString, hL] using hne)
    refine ⟨⟨.memberUsername event.userId, some n⟩ :: t, s, ?_, showsOrFetches_cons_memberUsername.trans hiff⟩
    rw [handleSlashCommands_of_asksForProfile db hasks, memberUsername_bind, undisturbed_memberUsername, hname]
    simp only [hrun, Option.map_some]

/-! ### Every run -/

/-- The name under which a program looks for a row next. -/
def looksUp : Program Unit → Option String
  | .call (.sql (.select .discordUsername n)) _ => some n
  | _ => none

/-- When a thread looks for a row by name, there is one, and the statement succeeds. -/
def FindsName (w : AccountWorld) : Label Choice AccountEvent → Prop
  | .event _ => True
  | .run i x => ∀ t ∈ w.threads[i]?, ∀ n ∈ looksUp t.2, x = .ok ∧ Stored w.shared.users n

instance (w : AccountWorld) : ∀ l, Decidable (FindsName w l)
  | .event _ => inferInstanceAs (Decidable True)
  | .run i x =>
      inferInstanceAs (Decidable (∀ t ∈ w.threads[i]?, ∀ n ∈ looksUp t.2, x = .ok ∧ Stored w.shared.users n))

private theorem found_of_findsName (hw : Reachable parse db FindsName w) {i : Nat}
    {answer : Except SqlException (List Row)}
    (h : .performed i (.sql (.select .discordUsername n)) answer ∈ w.history) :
    ∃ row rest, answer = .ok (row :: rest) := by
  refine hw.forall_answers (P := fun _ _ (answer : Except SqlException (List Row)) =>
    ∃ row rest, answer = .ok (row :: rest)) ?_ ?_ h
  · intro w i x e k answer s _ hok hi hx
    obtain ⟨rfl, hstored⟩ := hok _ hi n rfl
    cases hx
    cases hrows : Stmt.rowsWhere w.shared.users .discordUsername n with
    | nil => exact absurd hstored (rowsWhere_eq_nil_iff.1 hrows)
    | cons row rest => exact ⟨row, rest, congrArg _ hrows⟩
  · intro w l w' _ answer _ _ hP
    exact hP

private theorem profileError_notMem (hw : Reachable parse db FindsName w) {i : Nat} {event : SlashCommand}
    (he : .arrived i (.slashcommand event) ∈ w.history) : .performed i (.edit profileError) () ∉ w.history := by
  intro h
  obtain ⟨e, t, he', hstep, ht⟩ := performed_step hw h
  cases hw.arrived_unique he he'
  generalize hm : profileError = m at hstep
  cases hstep with
  | info hinfo herror => exact herror hm.symm
  | notice hembeds herror => exact herror hm.symm
  | registered => exact absurd hm (by decide)
  | profileError hselect hnone =>
    have hperformed := World.mem_trace.1 (ht.subset (List.mem_append_left _ hselect))
    obtain ⟨row, rest, hanswer⟩ := found_of_findsName hw hperformed
    exact hnone row rest hanswer
  | profileShown => exact profileError_ne _ _ hm

private theorem profileEnd_of_ended (hw : Reachable parse db ok w) {i : Nat} {event : SlashCommand}
    (he : .arrived i (.slashcommand event) ∈ w.history) (hasks : event.asksForProfile) (hend : w.ended i) :
    ProfileEnd event (w.trace i) := by
  refine hw.of_ended (J := AccountStep parse db)
    (Q := fun e t => ∀ event, e = .slashcommand event → event.asksForProfile → ProfileEnd event t) ?_ he hend event
    rfl hasks
  intro e s s' p ha
  by_cases hprofile : ∃ event, e = .slashcommand event ∧ event.asksForProfile
  · obtain ⟨event, rfl, hasks⟩ := hprofile
    cases ha
    refine (follows_asksForProfile db event hasks).mono fun _ t hend event' he' _ => ?_
    cases he'
    exact hend
  · exact (follows_arrive parse db e s s' p ha).mono fun _ _ _ event he hasks => absurd ⟨event, he, hasks⟩ hprofile

private theorem showsOrFetches_of_ended (hw : Reachable parse db FindsName w) {i : Nat} {event : SlashCommand}
    (he : .arrived i (.slashcommand event) ∈ w.history) (hasks : event.asksForProfile) (hend : w.ended i)
    {row : Row} {rest : List Row}
    (hfound : .performed i (.sql (.select .discordId (toString event.userId))) (.ok (row :: rest)) ∈ w.history) :
    ShowsOrFetches (w.trace i) := by
  obtain ⟨d, -, hne, -⟩ := (owned_of_reachable hw).selected _ _ _ _ hfound
  have hdone := profileEnd_of_ended hw he hasks hend row rest (World.mem_trace.2 hfound) hne
  have herror : profileError ∉ replies w i := fun h => profileError_notMem hw he (mem_replies.1 h)
  exact ⟨herror, hdone.resolve_left herror⟩

/-- In every run in which searches by name find a row, no command tells that an error has occurred, and a profile
command that has found its user registered ends with a profile or a request.  In every state, the check and the read
of a name agree exactly if a row is stored under it, and so `/leetcode profile` of a registered user works exactly if
a row is stored under the current name of the user. -/
theorem profile_works_iff_stored (hw : Reachable parse db (fun _ _ => True) w) (hdb : db.connected) :
    (Reachable parse db FindsName w → ∀ i event, .arrived i (.slashcommand event) ∈ w.history →
      .performed i (.edit profileError) () ∉ w.history ∧
        (event.asksForProfile → w.ended i →
          (∃ row rest, .performed i (.sql (.select .discordId (toString event.userId))) (.ok (row :: rest)) ∈
            w.history) → ShowsOrFetches (w.trace i))) ∧
      (∀ n, (answer parse db (db.statsExist n) w.shared = some true →
        ∃ p, answer parse db (db.getLeetcodeProfile n) w.shared = some (some p)) ↔ Stored w.shared.users n) ∧
      ∀ event n, SlashCommand.asksForProfile event → w.shared.members.lookup event.userId = some n →
        (∃ row ∈ w.shared.users, row.str .discordId = some (toString event.userId)) →
        ∃ t s, undisturbed parse db (handleSlashCommands db event) w.shared = some ((), t, s) ∧
          (ShowsOrFetches t ↔ Stored w.shared.users n) := by
  refine ⟨fun hfinds i event he => ⟨profileError_notMem hfinds he, ?_⟩, fun n => statsExist_iff_stored hdb,
    fun event n hasks hname hrow => undisturbed_profile hw hdb hasks hname hrow⟩
  rintro hasks hend ⟨row, rest, hfound⟩
  exact showsOrFetches_of_ended hfinds he hasks hend hfound

def selectsRow (id : String) (t : Trace Op Op.Res) : Bool :=
  t.any fun
    | ⟨.sql (.select .discordId id'), (.ok (_ :: _) : Except SqlException (List Row))⟩ => id' = id
    | _ => false

private theorem mem_of_selectsRow {id : String} {t : Trace Op Op.Res} (h : selectsRow id t) :
    ∃ row rest, ⟨.sql (.select .discordId id), .ok (row :: rest)⟩ ∈ t := by
  obtain ⟨x, hx, hsel⟩ := List.any_eq_true.1 h
  split at hsel
  · rename_i id' row rest
    obtain rfl : id' = id := by simpa using hsel
    exact ⟨row, rest, hx⟩
  · cases hsel

/-- A run in which a user registers, updates the profile and looks at it. -/
theorem profile_works_updated :
    ∃ w, Reachable sampleParse ⟨true⟩ FindsName w ∧ .arrived 5 (leetcodeCommand 1 "profile") ∈ w.history ∧
      ShowsOrFetches (w.trace 5) ∧
      ∃ t s, undisturbed sampleParse ⟨true⟩ (handleSlashCommands ⟨true⟩ ⟨1, "leetcode", [⟨"profile", []⟩]⟩)
        w.shared = some ((), t, s) ∧ ShowsOrFetches t := by
  have hrun : ((accounts sampleParse ⟨true⟩).run FindsName AccountWorld.initial
      (registerAndUpdate ++ [.event (leetcodeCommand 1 "profile")] ++ proceed 5 6)).any
      (fun w => w.threads[5]?.map Prod.fst = some (leetcodeCommand 1 "profile") ∧ w.ended 5 ∧
        selectsRow (toString (1 : Snowflake)) (w.trace 5) ∧
        w.shared.members.lookup 1 = some "ann" ∧ Stored w.shared.users "ann" ∧
        ∃ row ∈ w.shared.users, row.str .discordId = some (toString (1 : Snowflake))) = true := by decide +kernel
  obtain ⟨w, hw, htest⟩ := System.Reach.exists_of_run hrun
  obtain ⟨hthread, hend, hselects, hname, hstored, hrow⟩ := of_decide_eq_true htest
  have harrived : .arrived 5 (leetcodeCommand 1 "profile") ∈ w.history := hw.arrived_of_thread hthread
  obtain ⟨row, rest, hfound⟩ := mem_of_selectsRow hselects
  obtain ⟨hworks, -, hiff⟩ := profile_works_iff_stored (hw.mono fun _ _ _ => trivial) rfl
  obtain ⟨t, s, halone, hshows⟩ := hiff ⟨1, "leetcode", [⟨"profile", []⟩]⟩ "ann" ⟨rfl, rfl⟩ hname hrow
  have hended := (hworks hw 5 _ harrived).2 ⟨rfl, rfl⟩ hend ⟨row, rest, World.mem_trace.1 hfound⟩
  exact ⟨w, hw, harrived, hended, t, s, halone, hshows.2 hstored⟩

/-- No statement fails. -/
def Faultless (_ : AccountWorld) : Label Choice AccountEvent → Prop
  | .event _ => True
  | .run _ x => x = .ok

instance (w : AccountWorld) : ∀ l, Decidable (Faultless w l)
  | .event _ => inferInstanceAs (Decidable True)
  | .run _ x => inferInstanceAs (Decidable (x = .ok))

/-- User 1 registers with the name `ann`, takes the name `bob` and asks for the profile. -/
def renamed : List (Label Choice AccountEvent) :=
  [.event (.usernameChange 1 "ann"), .event (registerCommand 1 "a")] ++ proceed 1 5 ++
    [.event (.completion 0 (.description "a" 0 0) ⟨200, describedBody⟩)] ++ proceed 2 1 ++ proceed 1 4 ++
    [.event (.usernameChange 1 "bob"), .event (leetcodeCommand 1 "profile")] ++ proceed 4 6

/-- The user has a row and is told that an error has occurred. -/
theorem profile_error_of_renamed :
    ∃ w, Reachable sampleParse ⟨true⟩ Faultless w ∧
      (∃ row ∈ w.shared.users, row.str .discordId = some (toString (1 : Snowflake))) ∧
      .arrived 4 (leetcodeCommand 1 "profile") ∈ w.history ∧ .performed 4 (.edit profileError) () ∈ w.history := by
  have hrun : ((accounts sampleParse ⟨true⟩).run Faultless AccountWorld.initial renamed).any
      (fun w => (∃ row ∈ w.shared.users, row.str .discordId = some (toString (1 : Snowflake))) ∧
        w.threads[4]?.map Prod.fst = some (leetcodeCommand 1 "profile") ∧ profileError ∈ replies w 4) = true := by
    decide +kernel
  obtain ⟨w, hw, htest⟩ := System.Reach.exists_of_run hrun
  obtain ⟨hrow, hthread, hreply⟩ := of_decide_eq_true htest
  exact ⟨w, hw, hrow, hw.arrived_of_thread hthread, mem_replies.1 hreply⟩

end LeetBot
