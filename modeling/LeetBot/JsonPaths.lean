import LeetBot.DescriptionFetch

/-!
# Members, paths and numbers

What a response says, as opposed to what an accessor throws: the value at a path of keys, the response in which that
value is replaced, and the integer that a number stands for, of which `get<int>()` keeps 32 bits.
-/

namespace LeetBot

namespace Json

variable {j v w : Json} {key key' : String} {keys : List String}

/-! ### Paths -/

/-- The value at a path of keys. -/
def path (j : Json) : List String → Option Json
  | [] => some j
  | key :: keys => (j.member key).bind fun v => v.path keys

/-- The value with one member of an object changed, where there is one. -/
def updateMember (j : Json) (key : String) (f : Json → Json) : Json :=
  match j with
  | object m => object (m.map fun x => (x.1, if x.1 = key then f x.2 else x.2))
  | j => j

/-- The value with what is at a path replaced. -/
def replaceAt (j : Json) (v : Json) : List String → Json
  | [] => v
  | key :: keys => j.updateMember key fun w => w.replaceAt v keys

private theorem member_updateMember (f : Json → Json) :
    (j.updateMember key f).member key' = (j.member key').map fun v => if key' = key then f v else v := by
  cases j with
  | object m =>
    induction m with
    | nil => rfl
    | cons x m ih =>
      obtain ⟨k, v⟩ := x
      simp only [updateMember, member, List.map_cons, List.lookup_cons] at ih ⊢
      by_cases hk : key' = k
      · simp [hk]
      · simpa [beq_false_of_ne hk] using ih
  | _ => rfl

theorem path_cons : j.path (key :: keys) = (j.member key).bind fun v => v.path keys := rfl

theorem path_append (keys keys' : List String) :
    j.path (keys ++ keys') = (j.path keys).bind fun v => v.path keys' := by
  induction keys generalizing j with
  | nil => rfl
  | cons key keys ih =>
    rw [List.cons_append, path_cons, path_cons, Option.bind_assoc]
    simp only [ih]

/-- Replacing what is at a path replaces, at the beginning of the path, what is at the end of it. -/
theorem path_replaceAt (keys keys' : List String) :
    (j.replaceAt v (keys ++ keys')).path keys = (j.path keys).map fun w => w.replaceAt v keys' := by
  induction keys generalizing j with
  | nil => rfl
  | cons key keys ih =>
    rw [List.cons_append, replaceAt, path_cons, path_cons, member_updateMember]
    cases j.member key with
    | none => rfl
    | some w => simpa using ih

/-- `operator[]` on a mutable value throws for every key or for none; it reads a missing member as null. -/
theorem index_eq_ok_iff :
    j.index key = .ok v ↔ (j = null ∨ ∃ m, j = object m) ∧ v = (j.member key).getD null := by
  cases j <;> simp [index, member, eq_comm]

theorem index_of_member (h : j.member key = some v) : j.index key = .ok v := by
  cases j with
  | object m => exact index_eq_ok_iff.2 ⟨.inr ⟨m, rfl⟩, by rw [h]; rfl⟩
  | _ => cases h

/-- A change of another member is not seen. -/
theorem member_updateMember_of_ne (f : Json → Json) (h : key' ≠ key) :
    (j.updateMember key f).member key' = j.member key' := by
  rw [member_updateMember]
  simp [h]

theorem index_updateMember_of_ne (f : Json → Json) (h : key' ≠ key) :
    (j.updateMember key f).index key' = j.index key' := by
  cases j with
  | object m =>
    have hmember : (updateMember (object m) key f).member key' = m.lookup key' := member_updateMember_of_ne f h
    simp only [updateMember, member] at hmember
    simp [updateMember, hmember]
  | _ => rfl

/-- What the check for a missing member has seen when it lets a response pass. -/
theorem lacks_eq_false_iff : j.lacks key = .ok false ↔ ∃ v, j.member key = some v ∧ v ≠ null := by
  cases j with
  | object m =>
    simp only [lacks, isNull, Bool.false_eq_true, if_false, index_object, member]
    cases m.lookup key with
    | none => simp [bind, Except.bind, pure, Except.pure]
    | some v => cases v <;> simp [bind, Except.bind, pure, Except.pure]
  | _ => simp [lacks, index, member, isNull, bind, Except.bind, pure, Except.pure]

/-! ### Numbers and texts -/

/-- The integer that a number stands for. -/
def intValue : Json → Int
  | number i => i
  | numberFloat q => q.num.tdiv q.den
  | boolean b => if b then 1 else 0
  | _ => 0

/-- The integer in a member. -/
def intAt (j : Json) (key : String) : Int := ((j.member key).map intValue).getD 0

/-- The text in a member; null and a missing member read as the empty text. -/
def textAt (j : Json) (key : String) : String := ((j.member key).bind text).getD ""

/-- The member is there and not null. -/
def has (j : Json) (key : String) : Bool := (j.member key).any fun v => !v.isNull

theorem intValue_of_getInt {i : Int} (h : j.getInt = .ok i) : i = toInt32 j.intValue := by
  cases j with
  | number n => exact (Except.ok.inj h).symm
  | numberFloat q => exact (Except.ok.inj h).symm
  | boolean b =>
    cases h
    cases b <;> rfl
  | _ => cases h

theorem text_of_getString {s : String} (h : j.getString = .ok s) : j.text = some s := by
  cases j with
  | string t => exact congrArg some (Except.ok.inj h)
  | _ => cases h

end Json

/-- The values of a 32-bit `int`. -/
def FitsInt32 (i : Int) : Prop := -2 ^ 31 ≤ i ∧ i < 2 ^ 31

instance (i : Int) : Decidable (FitsInt32 i) := inferInstanceAs (Decidable (_ ∧ _))

private theorem fitsInt32_toInt32 (i : Int) : FitsInt32 (toInt32 i) := by
  have hlow := Int.le_bmod (x := i) (m := 2 ^ 32) (by decide)
  have hhigh := Int.bmod_lt (x := i) (m := 2 ^ 32) (by decide)
  unfold FitsInt32 toInt32
  omega

/-- The conversion keeps exactly the values of an `int`. -/
theorem toInt32_eq_self_iff {i : Int} : toInt32 i = i ↔ FitsInt32 i := by
  constructor
  · intro h
    rw [← h]
    exact fitsInt32_toInt32 i
  · intro h
    unfold FitsInt32 at h
    exact Int.bmod_eq_of_le (by omega) (by omega)

end LeetBot
