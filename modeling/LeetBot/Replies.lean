import LeetBot.Turns

/-!
# What is shown

The messages that the commands and the completion lambdas can show.
-/

namespace LeetBot

open Interleave

/-- If the operation shows a message, it is such a message. -/
def Op.Shows (Q : Message → Prop) (o : Op) : Prop := ∀ m, o = .edit m → Q m

section Handlers

variable {db : LeetoDB} {event : SlashCommand} {Q : Message → Prop} {m : Message}

theorem Op.shows_of_ne {o : Op} (h : ∀ m, o ≠ .edit m) : o.Shows Q := fun m hm => absurd hm (h m)

theorem Op.shows_edit : (Op.edit m).Shows Q ↔ Q m := by
  constructor
  · intro h
    exact h m rfl
  · rintro h m' hm
    cases hm
    exact h

theorem only_edit (h : Q m) : (edit m).Only (Op.Shows Q) := ⟨Op.shows_edit.2 h, fun _ => trivial⟩

theorem only_request {q : Request} : (request q).Only (Op.Shows Q) := ⟨Op.shows_of_ne (by simp), fun _ => trivial⟩

theorem only_of_sql {α : Type} {p : Program α} (h : p.Only Op.IsSql) : p.Only (Op.Shows Q) := by
  apply h.mono
  rintro o ⟨st, rfl⟩
  exact Op.shows_of_ne (by simp)

private theorem only_getLeetcodeUsername {d : String} : (db.getLeetcodeUsername d).Only (Op.Shows Q) := by
  unfold LeetoDB.getLeetcodeUsername
  split
  · trivial
  · rw [selectWhere_bind]
    refine ⟨Op.shows_of_ne (by simp), ?_⟩
    rintro (_ | _ | ⟨row, rest⟩) <;> trivial

/-- What a registration can answer, once the member is known. -/
def registrationMessages (username : String) : List Message :=
  [.text "No username set, please reach discord support for help.", .text "This user has already been registered.",
    .text "Failed to fetch LeetCode profile. Please try again later.",
    .text ("Verification not found in profile. Please add: " ++ verificationText username),
    registeredSuccessfully, .text "Registration failed (user may already exist"]

theorem only_registerMember {d : Snowflake} {L u : String} (hQ : ∀ m ∈ registrationMessages u, Q m) :
    (registerMember db d L u).Only (Op.Shows Q) := by
  simp only [registrationMessages, List.forall_mem_cons] at hQ
  obtain ⟨hempty, halready, hfailed, hverification, hregistered, hexists, -⟩ := hQ
  unfold registerMember
  split
  · exact only_edit hempty
  apply only_getLeetcodeUsername.bind
  intro name
  dsimp only
  split
  · exact only_edit halready
  simp only [makePromise_bind, request_bind, await_bind]
  refine ⟨Op.shows_of_ne (by simp), fun p => ⟨Op.shows_of_ne (by simp), fun _ =>
    ⟨Op.shows_of_ne (by simp), ?_⟩⟩⟩
  rintro (_ | desc)
  · exact only_edit hfailed
  dsimp only
  split
  · exact only_edit hverification
  apply (only_of_sql only_registerUser).bind
  intro success
  split
  · exact only_edit hregistered
  · exact only_edit hexists

theorem only_withLeetcodeUsername {failure : String} {f : String → Program Unit} (hfailure : Q (.text failure))
    (hf : ∀ L, (f L).Only (Op.Shows Q)) : (withLeetcodeUsername db event.userId failure f).Only (Op.Shows Q) := by
  unfold withLeetcodeUsername
  apply only_getLeetcodeUsername.bind
  intro name
  dsimp only
  split
  · exact only_edit hfailure
  · exact hf _

theorem only_handleProfile {u : String}
    (hfailure : Q (.text "Failed to get your leetcode username, remember to register with the bot first!"))
    (hfetching : Q (.text "Fetching your LeetCode Profile...")) (herror : Q profileError)
    (hprofile : ∀ L profile, Q (profileMessage L profile)) :
    (handleProfile db event.userId u).Only (Op.Shows Q) := by
  apply only_withLeetcodeUsername hfailure
  intro L
  rw [edit_bind]
  refine ⟨Op.shows_edit.2 hfetching, fun _ => ?_⟩
  apply (only_of_sql only_statsExist).bind
  intro stats
  split
  · apply (only_of_sql only_getLeetcodeProfile).bind
    intro profile
    cases profile with
    | none => exact only_edit herror
    | some profile => exact only_edit (hprofile L profile)
  · exact only_request

end Handlers

end LeetBot
