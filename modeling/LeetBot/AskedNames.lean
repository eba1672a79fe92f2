import LeetBot.Paging
import LeetBot.Promises

/-!
# What LeetCode is asked about

A request for a profile, for the daily question or for the activity is about a name that was read from a row, and so
about a name that the user of the command has proved to own.  Only the request of a registration is about a name that
the user has typed.
-/

namespace LeetBot

open Interleave

variable {parse : String → Except String Json} {db : LeetoDB} {ok : AccountWorld → Label Choice AccountEvent → Prop}
  {w w' : AccountWorld}

private theorem toString_injective {d d' : Snowflake} (h : toString d = toString d') : d = d' := by
  have hread := stoull_toString d
  rw [h, stoull_toString d'] at hread
  exact (Option.some.inj hread).symm

/-- The request `q` may be made for the command. -/
def MayAsk (parse : String → Except String Json) (h : History) (event : SlashCommand) (q : Request) : Prop :=
  if q.describes then event.registers = some q.name
  else q.name ≠ "" ∧ Proven parse h event.userId q.name

private theorem mayAsk_withCount {h : History} {event : SlashCommand} {q : Request} {n : Nat} :
    MayAsk parse h event (q.withCount n) ↔ MayAsk parse h event q := by
  simp [MayAsk]

private theorem MayAsk.mono {h h' : History} {event : SlashCommand} {q : Request} (hsub : h ⊆ h')
    (hq : MayAsk parse h event q) : MayAsk parse h' event q := by
  unfold MayAsk at hq ⊢
  split
  · rename_i hd
    rwa [if_pos hd] at hq
  · rename_i hd
    rw [if_neg hd] at hq
    exact ⟨hq.1, hq.2.mono hsub⟩

private theorem proven_of_readsOwnName (hw : Reachable parse db ok w) {i : Nat} {event : SlashCommand} {L : String}
    (h : ReadsOwnName event (w.trace i) L) : L ≠ "" ∧ Proven parse w.history event.userId L := by
  obtain ⟨row, rest, hmem, rfl⟩ := h
  obtain ⟨d, hid, hne, hproven⟩ := (owned_of_reachable hw).selected _ _ _ _ (World.mem_trace.1 hmem)
  rw [toString_injective hid]
  exact ⟨hne, hproven⟩

private theorem mayAsk_of_asks (hw : Reachable parse db ok w) {i : Nat} {event : SlashCommand} {q : Request}
    (h : Asks event (w.trace i) q) : MayAsk parse w.history event q := by
  cases q with
  | description L p n => exact h.2.1
  | profile L name d n => exact proven_of_readsOwnName hw h.2.2
  | dailyQuestion L n => exact proven_of_readsOwnName hw h.2
  | activity L n => exact proven_of_readsOwnName hw h.2

/-- Every request is made for one command, and it may be made for that command. -/
theorem mayAsk_of_requested (hw : Reachable parse db ok w) {i : Nat} {q : Request}
    (h : .performed i (.request q) () ∈ w.history) :
    ∃ c event, asking.owner w i = some c ∧ .arrived c (.slashcommand event) ∈ w.history ∧
      MayAsk parse w.history event q := by
  refine hw.forall_history (P := fun w x => ∀ i q, x = .performed i (.request q) () →
    ∃ c event, asking.owner w i = some c ∧ .arrived c (.slashcommand event) ∈ w.history ∧
      MayAsk parse w.history event q) ?_ ?_ ?_ _ h i q rfl
  · intro w e s p _ _ _ _ i q hx
    cases hx
  · intro w i x e o k r s hreach hok hi hx hP i' q heq
    cases heq
    have hstep : (accounts parse db).step w (.run i x) = some (w.after i e (.request q) () s (k ())) := by
      simp [System.step, hi, hx]
    have hsub := System.history_subset hstep
    obtain ⟨c, hc⟩ := (booked hreach).exists_owner (List.getElem?_eq_some_iff.1 hi).1
    have hold : ∃ event, .arrived c (.slashcommand event) ∈ w.history ∧ MayAsk parse w.history event q := by
      have hturn := next_turn hreach hi
      cases e with
      | slashcommand event =>
        have hown := (booked hreach).own i ⟨_, _, hi, rfl⟩
        rw [hc] at hown
        cases hown
        exact ⟨event, hreach.arrived_iff.2 ⟨_, hi⟩, mayAsk_of_asks hreach hturn.2⟩
      | completion m r cc =>
        -- the lambda repeats the request of the command it acts for
        have hstart := (booked hreach).owned i c hc
        have hne := (booked hreach).ne_of_answer hi rfl hc
        have hfresh := requested_of_issuing hreach hi
        obtain ⟨⟨q₀, hq₀, hcount⟩, -⟩ := (errand_of_reachable hreach hstart).carried (.handling i) r
          ⟨hasIssued_eq_false.2 hfresh, hc, hne⟩ ⟨m, cc, _, hi⟩
        obtain ⟨c', event, hc', he', hmay⟩ :=
          hP _ (mem_requested.1 (hq₀ ▸ List.mem_singleton_self q₀)) c q₀ rfl
        rw [(booked hreach).own c hstart] at hc'
        cases hc'
        refine ⟨event, he', ?_⟩
        rw [hturn.2.2.2, hcount]
        exact mayAsk_withCount.2 (mayAsk_withCount.2 hmay)
      | usernameChange d n => exact hturn.elim
    obtain ⟨event, he, hmay⟩ := hold
    exact ⟨c, event, hreach.owner_mono asking_lawful rfl hstep hc, hsub he, hmay.mono hsub⟩
  · intro w l w' x hreach _ hs _ hP i q heq
    obtain ⟨c, event, hc, he, hmay⟩ := hP i q heq
    have hsub := System.history_subset hs
    exact ⟨c, event, hreach.owner_mono asking_lawful rfl hs hc, hsub he, hmay.mono hsub⟩

/-- In every run, every request is made for one command, and apart from the request for a description that a
registration makes for the name typed by its user, it is about a name that this user has proved to own. -/
theorem asked_names_proven (hw : Reachable parse db ok w) {i : Nat} {q : Request}
    (h : .performed i (.request q) () ∈ w.history) :
    ∃ c event, asking.owner w i = some c ∧ .arrived c (.slashcommand event) ∈ w.history ∧
      MayAsk parse w.history event q :=
  mayAsk_of_requested hw h

/-- A run in which a user registers and asks for the profile. -/
theorem asked_names_proven_updating :
    ∃ w, Reachable sampleParse ⟨true⟩ (fun _ _ => True) w ∧
      .performed 3 (.request (.profile "a" "ann" "1" 0)) () ∈ w.history ∧
      ∃ c event, asking.owner w 3 = some c ∧ .arrived c (.slashcommand event) ∈ w.history ∧
        MayAsk sampleParse w.history event (.profile "a" "ann" "1" 0) := by
  have hrun : ((accounts sampleParse ⟨true⟩).run (fun _ _ => True) AccountWorld.initial registerAndUpdate).any
      (fun w => .profile "a" "ann" "1" 0 ∈ requested (w.trace 3)) = true := by decide +kernel
  obtain ⟨w, hw, htest⟩ := System.Reach.exists_of_run hrun
  have hasked := mem_requested.1 (of_decide_eq_true htest)
  exact ⟨w, hw, hasked, asked_names_proven hw hasked⟩

end LeetBot
