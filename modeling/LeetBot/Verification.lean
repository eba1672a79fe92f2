import LeetBot.Commands
import LeetBot.Delimited

/-!
# The verification text

The description of a profile may carry the verification texts of several users, among other text.  The substring
search of `handle_registry_commands` finds exactly the users whose texts are there.
-/

namespace LeetBot

open Delimited

/-- What stands around the username in a verification text. -/
def verificationFrame : Frame Char where
  before := "LeetBot->".toList
  opening := '['
  closing := ']'
  behind := "->Verify".toList
  opening_notMem_before := by decide
  opening_ne_closing := by decide
  opening_notMem_behind := by decide

/-- Neither `[` nor `]` occurs. -/
def BracketFree (text : String) : Prop := '[' ∉ text.toList ∧ ']' ∉ text.toList

instance (text : String) : Decidable (BracketFree text) :=
  inferInstanceAs (Decidable ('[' ∉ text.toList ∧ ']' ∉ text.toList))

/-- A description: a filler, and then verification texts, given by their usernames, each with the filler behind it. -/
def describedWith (filler : String) : List (String × String) → String
  | [] => filler
  | (username, filler') :: segments => filler ++ verificationText username ++ describedWith filler' segments

private theorem verificationText_toList (username : String) :
    (verificationText username).toList = verificationFrame.token username.toList := by
  rw [verificationText, String.toList_append, String.toList_append, Frame.token]
  have hbefore : "LeetBot->[".toList = verificationFrame.before ++ ['['] := rfl
  have hbehind : "]->Verify".toList = ']' :: verificationFrame.behind := rfl
  rw [hbefore, hbehind]
  simp only [List.append_assoc, List.singleton_append]
  rfl

private theorem describedWith_toList (filler : String) (segments : List (String × String)) :
    (describedWith filler segments).toList =
      verificationFrame.text filler.toList (segments.map fun x => (x.1.toList, x.2.toList)) := by
  induction segments generalizing filler with
  | nil => rfl
  | cons x segments ih =>
    rw [describedWith, String.toList_append, String.toList_append, verificationText_toList, ih]
    rfl

/-- The search accepts exactly the users whose verification texts the description carries. -/
theorem hasVerification_iff_mem {filler username : String} {segments : List (String × String)}
    (hfiller : BracketFree filler) (hsegments : ∀ x ∈ segments, BracketFree x.1 ∧ BracketFree x.2)
    (husername : BracketFree username) :
    hasVerification username (describedWith filler segments) ↔ username ∈ segments.map Prod.fst := by
  have hseparates : verificationFrame.Separates (segments.map fun x => (x.1.toList, x.2.toList)) := by
    intro x hx
    obtain ⟨y, hy, rfl⟩ := List.mem_map.1 hx
    obtain ⟨hname, hnext⟩ := hsegments y hy
    exact ⟨hname.1, hname.2, hnext.1⟩
  rw [hasVerification, decide_eq_true_iff, verificationText_toList, describedWith_toList,
    Frame.token_isInfix_iff hfiller.1 hseparates husername.2]
  simp only [List.map_map, List.mem_map, Function.comp_apply, String.toList_inj]

/-- Of the users called `ann` and `anna`, only the second is verified here. -/
theorem hasVerification_anna :
    hasVerification "anna" (describedWith "LeetBot->" [("anna", "->Verify"), ("joann", "")]) ∧
      ¬ hasVerification "ann" (describedWith "LeetBot->" [("anna", "->Verify"), ("joann", "")]) := by
  have hsegments : ∀ x ∈ [("anna", "->Verify"), ("joann", "")], BracketFree x.1 ∧ BracketFree x.2 := by decide
  rw [hasVerification_iff_mem (by decide) hsegments (by decide),
    hasVerification_iff_mem (by decide) hsegments (by decide)]
  decide

end LeetBot
