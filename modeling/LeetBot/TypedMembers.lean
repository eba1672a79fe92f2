import LeetBot.JsonPaths
import LeetBot.Loops

/-!
# Members with their types

When the accessors throw, said of the response: a member that is missing or null is replaced by a default, and a
member of the wrong type makes the accessor throw.
-/

namespace LeetBot

open Loops

namespace Json

/-- `operator[]` with a key does not throw. -/
def hasMembers : Json → Bool
  | null | object _ => true
  | _ => false

def isText : Json → Bool
  | string _ => true
  | _ => false

def isTextOrNull : Json → Bool
  | string _ | null => true
  | _ => false

/-- `get<int>()` does not throw. -/
def isInt : Json → Bool
  | number _ | numberFloat _ | boolean _ => true
  | _ => false

/-- `get<double>()` does not throw. -/
def isDouble : Json → Bool
  | number _ | numberFloat _ => true
  | _ => false

def isBool : Json → Bool
  | boolean _ => true
  | _ => false

/-- The member passes a test, unless it is missing or null. -/
def optional (j : Json) (key : String) (test : Json → Bool) : Bool := (j.member key).all fun v => v.isNull || test v

/-- The member is there and passes a test. -/
def required (j : Json) (key : String) (test : Json → Bool) : Bool := (j.member key).any test

variable {j v : Json} {key : String}

theorem exists_getString_iff : (∃ s, v.getString = .ok s) ↔ v.isText := by
  cases v <;> simp [getString, isText]

theorem exists_getOr_iff : (∃ s, v.getOr "" getString = .ok s) ↔ v.isTextOrNull := by
  cases v <;> simp [getOr, isNull, getString, isTextOrNull]

theorem exists_getInt_iff : (∃ i, v.getInt = .ok i) ↔ v.isInt := by
  cases v <;> simp [getInt, isInt]

theorem isInt_eq_isOk : v.isInt = v.getInt.isOk := by
  cases v <;> rfl

theorem exists_getDouble_iff : (∃ q, v.getDouble = .ok q) ↔ v.isDouble := by
  cases v <;> simp [getDouble, isDouble]

theorem exists_getBool_iff : (∃ b, v.getBool = .ok b) ↔ v.isBool := by
  cases v <;> simp [getBool, isBool]

theorem hasMembers_of_member (h : j.member key = some v) : j.hasMembers := by
  cases j with
  | object m => rfl
  | _ => cases h

/-- A value with members reads as null what it does not have. -/
theorem index_of_hasMembers (h : j.hasMembers) (key : String) : j.index key = .ok ((j.member key).getD null) := by
  cases j with
  | null | object m => rfl
  | _ => cases h

theorem exists_index_iff : (∃ v, j.index key = .ok v) ↔ j.hasMembers := by
  cases j <;> simp [index, hasMembers]

theorem constIndex_eq_ok_iff : j.constIndex key = .ok v ↔ j.member key = some v := by
  cases j with
  | object m =>
    simp only [constIndex, member]
    cases m.lookup key <;> simp
  | _ => simp [constIndex, member]

theorem required_eq (test : Json → Bool) (htest : test null = false) :
    j.required key test = test ((j.member key).getD null) := by
  unfold required
  cases j.member key <;> simp [htest]

theorem has_eq : j.has key = !((j.member key).getD null).isNull := by
  unfold has
  cases j.member key <;> rfl

theorem exists_memberOr_iff {α : Type} {otherwise : α} {get : Json → Except String α} {test : Json → Bool}
    (hget : ∀ v, (∃ a, get v = .ok a) ↔ test v) :
    (∃ a, j.memberOr key otherwise get = .ok a) ↔ j.hasMembers ∧ j.optional key test := by
  by_cases hj : j.hasMembers
  · simp only [memberOr, index_of_hasMembers hj, optional, hj, true_and, bind_eq_ok_iff, Except.ok.injEq,
      exists_eq_left', getOr]
    rcases j.member key with _ | v
    · simp
    · by_cases hv : v.isNull
      · simp [hv]
      · simp [hv, hget]
  · have hthrows : ¬ ∃ a, j.memberOr key otherwise get = .ok a := by
      rintro ⟨a, ha⟩
      obtain ⟨v, hv, -⟩ := bind_eq_ok_iff.1 ha
      exact hj (exists_index_iff.1 ⟨v, hv⟩)
    simp [hj, hthrows]

theorem elements_of_empty (h : j.empty) : j.elements = [] := by
  cases j <;> simp_all [empty, elements]

/-- Whether the loop over a list of strings throws. -/
theorem exists_joinStrings_iff {separator : String} {js : List Json} :
    (∃ s, joinStrings separator js = .ok s) ↔ ∀ j ∈ js, j.isText := by
  refine exists_foldlM_eq_ok_iff fun acc j => ?_
  simp only [bind_eq_ok_iff, pure_eq_ok_iff]
  rw [← exists_getString_iff]
  constructor
  · rintro ⟨-, s, hs, -⟩
    exact ⟨s, hs⟩
  · rintro ⟨s, hs⟩
    exact ⟨_, s, hs, rfl⟩

end Json

end LeetBot
