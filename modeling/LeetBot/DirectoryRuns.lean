import LeetBot.AccountTable

/-!
# Interleaved runs as runs of a directory

When registrations count alone, the table is that of a directory after every step, and the step has opened one
account, refreshed one account under the name that it is linked to, or left all accounts as they were.
-/

namespace LeetBot

open Interleave

variable {parse : String → Except String Json} {db : LeetoDB} {w w' : AccountWorld}

private theorem lookup_eq_none_of_rowsOf {d : UserDirectory} {id : String} (h : IsTableOf w.shared.users d)
    (hnone : rowsOf w id = []) : d.lookup id = none := by
  unfold rowsOf at hnone
  rw [h.rowsWhere_discordId] at hnone
  cases hlookup : d.lookup id with
  | none => rfl
  | some acc =>
    rw [hlookup] at hnone
    cases hnone

private theorem name_of_linked {d : UserDirectory} {id L : String} {acc : Account String String String UserProfile}
    (h : IsTableOf w.shared.users d) (hlinked : Linked w id L) (hlookup : d.lookup id = some acc) :
    acc.name = L := by
  obtain ⟨row, hrow, hL⟩ := hlinked
  unfold rowsOf at hrow
  rw [h.rowsWhere_discordId, hlookup] at hrow
  have heq : accountRow acc = row := (List.cons.inj hrow).1
  rw [← heq, accountRow_leetcodeUsername] at hL
  exact Option.some.inj hL

/-- The steps of the bot are steps of the directory. -/
private theorem simulation_directory :
    (accounts parse db).Simulation CountsAlone AccountWorld.initial (fun w d => IsTableOf w.shared.users d)
      Directory.Step := by
  intro w l w' d hw hok hs hrep
  rcases users_step hw hs with hsame | ⟨i, x, event, L, u, -, ⟨k, hi⟩, hnew⟩ |
    ⟨i, L, name, id, st, ⟨j, n, cc, k, hi⟩, hnew⟩
  · refine ⟨d, .refl, ?_⟩
    show IsTableOf w'.shared.users d
    rw [hsame]
    exact hrep
  · -- the thread that inserts has counted no row, and nobody else has inserted one since
    have hnone := (atMostOne_of_reachable hw).inserting i _ _ (toString event.userId) hi rfl
    have hlookup := lookup_eq_none_of_rowsOf hrep hnone
    refine ⟨_, .single (.link d (toString event.userId) L u hlookup), ?_⟩
    show IsTableOf w'.shared.users _
    rw [hnew]
    exact hrep.link hlookup
  · have hrefresh : IsTableOf w'.shared.users (d.refresh id L name st.userProfile) := by
      rw [hnew]
      exact hrep.refresh
    cases hlookup : d.lookup id with
    | none =>
      rw [Directory.refresh_of_none hlookup] at hrefresh
      exact ⟨d, .refl, hrefresh⟩
    | some acc =>
      -- the name that is written is the one that the request was issued for
      obtain ⟨m, hissued⟩ := issued_of_completed hw (hw.arrived_iff.2 ⟨_, hi⟩)
      have hlinked := linked_of_named hw hissued (.requested m L name id n)
      have hname := name_of_linked hrep hlinked hlookup
      subst hname
      exact ⟨_, .single (.refresh d id name st.userProfile hlookup), hrefresh⟩

/-- In a run in which registrations count alone, the table is at every moment that of a directory, and the next step
is one step of the directory, or none; so nobody loses the account, its LeetCode name or the statistics. -/
theorem directory_of_run (hw : Reachable parse db CountsAlone w) (hrun : (accounts parse db).Reach CountsAlone w w') :
    ∃ d d' : UserDirectory, IsTableOf w.shared.users d ∧ IsTableOf w'.shared.users d' ∧
      Relation.ReflTransGen Directory.Step Directory.empty d ∧ Relation.ReflTransGen Directory.Step d d' ∧
      d.Extends d' ∧
      ∀ l w'', CountsAlone w' l → (accounts parse db).step w' l = some w'' →
        ∃ d'', Relation.ReflGen Directory.Step d' d'' ∧ IsTableOf w''.shared.users d'' := by
  have hstart : IsTableOf AccountWorld.initial.shared.users Directory.empty := rfl
  obtain ⟨d, hd, hrep⟩ := simulation_directory.run .refl hw hstart
  obtain ⟨d', hd', hrep'⟩ := simulation_directory.run hw hrun hrep
  exact ⟨d, d', hrep, hrep', hd, hd', Directory.extends_of_steps hd',
    fun l w'' hok hs => simulation_directory w' l w'' d' (hw.trans hrun) hok hs hrep'⟩

/-- The bot after a user has registered, and after the user has updated the profile. -/
theorem directory_of_run_registered :
    ∃ w w' : AccountWorld, Reachable sampleParse ⟨true⟩ CountsAlone w ∧
      (w.shared.users.map fun r => r.int .ranking) = [none] ∧
      (w'.shared.users.map fun r => r.int .ranking) = [some 7] ∧
      ∃ d d' : UserDirectory, IsTableOf w.shared.users d ∧ IsTableOf w'.shared.users d' ∧
        Relation.ReflTransGen Directory.Step Directory.empty d ∧ Relation.ReflTransGen Directory.Step d d' ∧
        d.Extends d' ∧
        ∀ l w'', CountsAlone w' l → (accounts sampleParse ⟨true⟩).step w' l = some w'' →
          ∃ d'', Relation.ReflGen Directory.Step d' d'' ∧ IsTableOf w''.shared.users d'' := by
  have hregister : ((accounts sampleParse ⟨true⟩).run CountsAlone AccountWorld.initial
      (registerAndUpdate.take 13)).any (fun w => (w.shared.users.map fun r => r.int .ranking) = [none] ∧
        ((accounts sampleParse ⟨true⟩).run CountsAlone w (registerAndUpdate.drop 13)).any
          (fun w' => (w'.shared.users.map fun r => r.int .ranking) = [some 7]) = true) = true := by decide +kernel
  obtain ⟨w, hw, htest⟩ := System.Reach.exists_of_run hregister
  obtain ⟨hnone, hupdate⟩ := of_decide_eq_true htest
  obtain ⟨w', hrun, htest'⟩ := System.Reach.exists_of_run hupdate
  exact ⟨w, w', hw, hnone, of_decide_eq_true htest', directory_of_run hw hrun⟩

end LeetBot
