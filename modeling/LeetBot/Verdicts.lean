import LeetBot.Delivery

/-!
# What a registration answers

The last message of a registration is its verdict on the description that it has waited for: there is none, or it
lacks the text with the name of the user, or the user has been registered, or could not be.  The verdict is about the
response to its own request and the name that the user had at the beginning, and it says that the user has been
registered exactly when the registration has inserted a row.
-/

namespace LeetBot

open Interleave

variable {parse : String → Except String Json} {db : LeetoDB} {ok : AccountWorld → Label Choice AccountEvent → Prop}
  {w : AccountWorld} {event : SlashCommand} {L u : String} {v : Option String} {t : Trace Op Op.Res} {c p : Nat}

/-- The row of the user has been inserted. -/
def Inserted (event : SlashCommand) (L u : String) (t : Trace Op Op.Res) : Prop :=
  ⟨.sql (.insert [.str .discordId, .str .discordUsername, .str .leetcodeUsername]
    [.str (toString event.userId), .str u, .str L]), .ok ()⟩ ∈ t

/-- What a registration says that was told `v`. -/
def Says (u : String) (v : Option String) (m : Message) : Prop :=
  match v with
  | none => m = .text "Failed to fetch LeetCode profile. Please try again later."
  | some desc =>
      if ("LeetBot->[" ++ u ++ "]->Verify").toList <:+: desc.toList then
        m = .text "Registered successfully!" ∨ m = .text "Registration failed (user may already exist"
      else
        m = .text ("Verification not found in profile. Please add: " ++ ("LeetBot->[" ++ u ++ "]->Verify"))

/-- The verdict of a registration that was told `v`: its last message. -/
def Verdict (event : SlashCommand) (L u : String) (v : Option String) (t : Trace Op Op.Res) : Prop :=
  ∃ m, t.getLast? = some ⟨.edit m, ()⟩ ∧ Says u v m ∧
    (m = .text "Registered successfully!" ↔ Inserted event L u t)

/-- How a registration ends: what it has waited for is what its verdict is about. -/
def VerdictEnd (event : SlashCommand) (L : String) (t : Trace Op Op.Res) : Prop :=
  ∀ p v, ⟨.await p, v⟩ ∈ t → ∃ u, ⟨.memberUsername event.userId, some u⟩ ∈ t ∧ Verdict event L u v t

/-! ### The command -/

section Command

variable {o : Op} {r : o.Res} {m : Message} {vs : List (Option String)} {desc : String}

/-- A registration that knows the name of its user and has waited for nothing but `vs`. -/
structure Waited (event : SlashCommand) (u : String) (vs : List (Option String)) (t : Trace Op Op.Res) : Prop where
  member : ⟨.memberUsername event.userId, some u⟩ ∈ t
  waited : ∀ p v, ⟨.await p, v⟩ ∈ t → v ∈ vs

private theorem Waited.concat (h : Waited event u vs t) (ho : ∀ p, o ≠ .await p) :
    Waited event u vs (t ++ [⟨o, r⟩]) where
  member := List.mem_append_left _ h.member
  waited p v hmem := by
    rcases List.mem_append.1 hmem with hmem | hmem
    · exact h.waited p v hmem
    · cases List.mem_singleton.1 hmem
      exact absurd rfl (ho p)

private theorem Waited.await (h : Waited event u [] t) (v : Option String) :
    Waited event u [v] (t ++ [⟨.await p, v⟩]) where
  member := List.mem_append_left _ h.member
  waited p' v' hmem := by
    rcases List.mem_append.1 hmem with hmem | hmem
    · cases h.waited p' v' hmem
    · cases List.mem_singleton.1 hmem
      exact List.mem_singleton_self v

private theorem inserted_concat (h : (⟨o, r⟩ : Σ o : Op, o.Res) ≠
      ⟨.sql (.insert LeetoDB.insertColumns [.str (toString event.userId), .str u, .str L]), .ok ()⟩) :
    Inserted event L u (t ++ [⟨o, r⟩]) ↔ Inserted event L u t := by
  unfold Inserted
  rw [List.mem_append, List.mem_singleton]
  exact or_iff_left fun heq => h heq.symm

private theorem fresh_concat (hfresh : ¬ Inserted event L u t) (h : (⟨o, r⟩ : Σ o : Op, o.Res) ≠
      ⟨.sql (.insert LeetoDB.insertColumns [.str (toString event.userId), .str u, .str L]), .ok ()⟩) :
    ¬ Inserted event L u (t ++ [⟨o, r⟩]) :=
  fun hins => hfresh ((inserted_concat h).1 hins)

private theorem verdictEnd_of_not_waited (h : Waited event u [] t) : VerdictEnd event L (t ++ [⟨.edit m, ()⟩]) := by
  intro p v hmem
  cases (h.concat (o := .edit m) (by simp)).waited p v hmem

private theorem verdictEnd_edit (h : Waited event u [v] t) (hm : Says u v m)
    (hins : m = registeredSuccessfully ↔ Inserted event L u t) : VerdictEnd event L (t ++ [⟨.edit m, ()⟩]) := by
  intro p v' hmem
  have h' : Waited event u [v] (t ++ [⟨.edit m, ()⟩]) := h.concat fun p hp => by cases hp
  obtain rfl := List.mem_singleton.1 (h'.waited p v' hmem)
  refine ⟨u, h'.member, m, List.getLast?_concat, hm, hins.trans (inserted_concat ?_).symm⟩
  intro heq
  cases heq

private theorem says_of_verified (hver : hasVerification u desc)
    (hm : m = registeredSuccessfully ∨ m = .text "Registration failed (user may already exist") :
    Says u (some desc) m :=
  (if_pos (hasVerification_iff.1 hver)).mpr hm

/-- A registration whose description has the text ends as it has inserted the row, or not. -/
private theorem verdict_registerUser (h : Waited event u [some desc] t) (hfresh : ¬ Inserted event L u t)
    (hver : hasVerification u desc) :
    (do
      let success ← db.registerUser (toString event.userId) u L
      if success then
        edit registeredSuccessfully
      else
        edit (.text "Registration failed (user may already exist") : Program Unit).Follows (fun _ _ => True)
      (fun _ => VerdictEnd event L) t := by
  have hfailed : ∀ {t}, Waited event u [some desc] t → ¬ Inserted event L u t →
      (edit (.text "Registration failed (user may already exist")).Follows (fun _ _ => True)
        (fun _ => VerdictEnd event L) t := by
    intro t h hfresh
    exact ⟨trivial, fun _ => verdictEnd_edit h (says_of_verified hver (.inr rfl)) (iff_of_false (by decide) hfresh)⟩
  rw [Prog.follows_bind]
  unfold LeetoDB.registerUser
  split
  · exact hfailed h hfresh
  rw [selectCount_bind]
  refine ⟨trivial, fun (r : Except SqlException Nat) => ?_⟩
  have h₁ : Waited event u [some desc] (t ++ [⟨.sql (.selectCount .discordId (toString event.userId)), r⟩]) :=
    h.concat (by simp)
  have hfresh₁ : ¬ Inserted event L u (t ++ [⟨.sql (.selectCount .discordId (toString event.userId)), r⟩]) :=
    fresh_concat hfresh fun heq => by cases heq
  rcases r with _ | count
  · exact hfailed h₁ hfresh₁
  dsimp only
  split
  · exact hfailed h₁ hfresh₁
  rw [insertInto_bind]
  refine ⟨trivial, fun r => ?_⟩
  rcases r with _ | _
  · exact hfailed (h₁.concat (by simp)) (fresh_concat hfresh₁ fun heq => by cases heq)
  · exact ⟨trivial, fun _ => verdictEnd_edit (h₁.concat (by simp)) (says_of_verified hver (.inl rfl))
      (iff_of_true rfl List.mem_concat_self)⟩

private theorem waited_getLeetcodeUsername (h : Waited event u vs t) (hfresh : ¬ Inserted event L u t) :
    (db.getLeetcodeUsername (toString event.userId)).Follows (fun _ _ => True)
      (fun _ t' => Waited event u vs t' ∧ ¬ Inserted event L u t') t := by
  unfold LeetoDB.getLeetcodeUsername
  split
  · exact ⟨h, hfresh⟩
  rw [selectWhere_bind]
  refine ⟨trivial, fun r => ?_⟩
  have h' : Waited event u vs (t ++ [⟨.sql (.select .discordId (toString event.userId)), r⟩]) := h.concat (by simp)
  have hfresh' : ¬ Inserted event L u (t ++ [⟨.sql (.select .discordId (toString event.userId)), r⟩]) :=
    fresh_concat hfresh fun heq => by cases heq
  rcases r with _ | _ | ⟨row, rest⟩ <;> exact ⟨h', hfresh'⟩

private theorem verdict_registerMember (h : Waited event u [] t) (hfresh : ¬ Inserted event L u t) :
    (registerMember db event.userId L u).Follows (fun _ _ => True) (fun _ => VerdictEnd event L) t := by
  unfold registerMember
  split
  · exact ⟨trivial, fun _ => verdictEnd_of_not_waited h⟩
  rw [Prog.follows_bind]
  refine (waited_getLeetcodeUsername h hfresh).mono fun name t₁ ⟨h₁, hfresh₁⟩ => ?_
  dsimp only
  split
  · exact ⟨trivial, fun _ => verdictEnd_of_not_waited h₁⟩
  simp only [makePromise_bind, request_bind, await_bind]
  refine ⟨trivial, fun p => ⟨trivial, fun _ => ⟨trivial, fun desc => ?_⟩⟩⟩
  have h₂ := ((h₁.concat (o := .makePromise) (r := p) (by simp)).concat (o := .request (.description L p 0)) (r := ())
    (by simp)).await (p := p) desc
  have hfresh₂ : ¬ Inserted event L u
      (t₁ ++ [⟨.makePromise, p⟩] ++ [⟨.request (.description L p 0), ()⟩] ++ [⟨.await p, desc⟩]) :=
    fresh_concat (fresh_concat (fresh_concat hfresh₁ fun heq => by cases heq) fun heq => by cases heq)
      fun heq => by cases heq
  rcases desc with _ | desc
  · exact ⟨trivial, fun _ => verdictEnd_edit h₂ rfl (iff_of_false (by decide) hfresh₂)⟩
  dsimp only
  split
  · rename_i hver
    have hsays : Says u (some desc)
        (.text ("Verification not found in profile. Please add: " ++ verificationText u)) :=
      (if_neg fun h => by simp [hasVerification_iff.2 h] at hver).mpr rfl
    exact ⟨trivial, fun _ => verdictEnd_edit h₂ hsays (iff_of_false (verification_ne u _ (.inr rfl)) hfresh₂)⟩
  · rename_i hver
    exact verdict_registerUser h₂ hfresh₂ (by simpa using hver)

private theorem verdict_handleRegistryCommands (hreg : event.registers = some L) :
    (handleRegistryCommands db event).Follows (fun _ _ => True) (fun _ => VerdictEnd event L) [] := by
  unfold SlashCommand.registers at hreg
  unfold handleRegistryCommands
  rcases hopts : event.options with _ | ⟨subcommand, rest⟩
  · rw [hopts] at hreg
    cases hreg
  rw [hopts] at hreg
  dsimp only at hreg
  split at hreg
  · rename_i hcmd
    cases hreg
    simp only [hcmd.2, beq_self_eq_true, if_true, edit_bind, memberUsername_bind]
    refine ⟨trivial, fun _ => ⟨trivial, fun username => ?_⟩⟩
    rcases username with _ | u
    · refine ⟨trivial, fun _ p v hmem => ?_⟩
      simp only [List.nil_append, List.mem_append, List.mem_singleton] at hmem
      rcases hmem with (heq | heq) | heq <;> cases heq
    · apply verdict_registerMember
      · refine ⟨List.mem_concat_self, fun p v hmem => ?_⟩
        simp only [List.nil_append, List.mem_append, List.mem_singleton] at hmem
        rcases hmem with heq | heq <;> cases heq
      · intro hins
        simp only [Inserted, List.nil_append, List.mem_append, List.mem_singleton] at hins
        rcases hins with heq | heq <;> cases heq
  · cases hreg

end Command

/-! ### All runs -/

/-- How the thread of an event ends, if it is a registration. -/
def AccountVerdict : AccountEvent → Trace Op Op.Res → Prop
  | .slashcommand event, t => ∀ L, event.registers = some L → VerdictEnd event L t
  | _, _ => True

private theorem verdict_arrive (parse : String → Except String Json) (db : LeetoDB) (e : AccountEvent)
    (a a' : Accounts) (q : Program Unit) (h : (accounts parse db).arrive e a = some (a', q)) :
    q.Follows (fun _ _ => True) (fun _ => AccountVerdict e) [] := by
  cases e with
  | slashcommand event =>
    cases h
    cases hreg : event.registers with
    | none =>
      refine Prog.follows_of_forall (fun _ _ => trivial) (fun _ t L hL => ?_) _ []
      rw [hreg] at hL
      cases hL
    | some L =>
      have hprog : handleSlashCommands db event = handleRegistryCommands db event := by
        simp [handleSlashCommands, SlashCommand.commandName_of_registers hreg]
      rw [hprog]
      refine (verdict_handleRegistryCommands hreg).mono fun _ t hend L' hL' => ?_
      rw [hreg] at hL'
      cases hL'
      exact hend
  | _ => exact Prog.follows_of_forall (fun _ _ => trivial) (fun _ _ => trivial) q []

/-- In every run, the last message of a registration that has waited is the verdict on the description in the response
to its own request, with the name that the user had, and it says that the user has been registered exactly when the
registration has inserted the row. -/
theorem registration_verdict (hw : Reachable parse db ok w) (h : .performed c (.await p) v ∈ w.history)
    (hend : w.ended c) :
    ∃ event L u i m n cc, .arrived c (.slashcommand event) ∈ w.history ∧ event.registers = some L ∧
      .performed c (.memberUsername event.userId) (some u) ∈ w.history ∧
      .arrived i (.completion m (.description L p n) cc) ∈ w.history ∧ asking.owner w i = some c ∧
      (fetchLeetCodeDescription parse L (setValue p) n cc).retried = none ∧
      (NoUsername parse cc → Verdict event L u (describedText parse cc) (w.trace c)) := by
  obtain ⟨i, L, m, n, cc, he, howner, hlast, htext⟩ := delivered_by hw h
  obtain ⟨event, hc, hreg⟩ := typed_of_made hw (made_of_await hw h) he
  obtain ⟨u, hu, hverdict⟩ := hw.of_ended (verdict_arrive parse db) hc hend L hreg p v (World.mem_trace.2 h)
  refine ⟨event, L, u, i, m, n, cc, hc, hreg, World.mem_trace.1 hu, he, howner, hlast, fun hname => ?_⟩
  rwa [← htext hname]

/-- A run in which a user is registered. -/
theorem registration_verdict_registered :
    ∃ w, Reachable sampleParse ⟨true⟩ (fun _ _ => True) w ∧ registeredSuccessfully ∈ replies w 1 ∧
      ∃ event L u i m n cc, .arrived 1 (.slashcommand event) ∈ w.history ∧ event.registers = some L ∧
        .performed 1 (.memberUsername event.userId) (some u) ∈ w.history ∧
        .arrived i (.completion m (.description L 0 n) cc) ∈ w.history ∧ asking.owner w i = some 1 ∧
        (fetchLeetCodeDescription sampleParse L (setValue 0) n cc).retried = none ∧
        (NoUsername sampleParse cc → Verdict event L u (describedText sampleParse cc) (w.trace 1)) := by
  have hrun : ((accounts sampleParse ⟨true⟩).run (fun _ _ => True) AccountWorld.initial registerAndUpdate).any
      (fun w => (0, some "LeetBot->[ann]->Verify") ∈ awaited w 1 ∧ w.ended 1 ∧
        registeredSuccessfully ∈ replies w 1) = true := by decide +kernel
  obtain ⟨w, hw, htest⟩ := System.Reach.exists_of_run hrun
  obtain ⟨hawaited, hended, hreply⟩ := of_decide_eq_true htest
  exact ⟨w, hw, hreply, registration_verdict hw (mem_awaited hawaited) hended⟩

end LeetBot
