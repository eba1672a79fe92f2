import Mathlib.Data.List.Basic
import Mathlib.Order.Lattice

/-!
# Lists sorted by key

What `std::map` keeps: pairs in the order of their keys, each key once.  `insertKey` puts a value at a key, and
`emplaceKey` does so unless the key is there.
-/

namespace SortedMembers

variable {κ α : Type} [LinearOrder κ]

/-- `m[k] = v` -/
def insertKey (k : κ) (v : α) : List (κ × α) → List (κ × α)
  | [] => [(k, v)]
  | x :: m =>
      if k < x.1 then (k, v) :: x :: m
      else if k = x.1 then (k, v) :: m
      else x :: insertKey k v m

/-- `m.emplace(k, v)` -/
def emplaceKey (k : κ) (v : α) (m : List (κ × α)) : List (κ × α) :=
  if k ∈ m.map Prod.fst then m else insertKey k v m

/-- The map that is filled from a list of pairs by `emplace`. -/
def ofPairs (l : List (κ × α)) : List (κ × α) := l.foldl (fun m x => emplaceKey x.1 x.2 m) []

/-- The keys are in order, and each stands once. -/
def KeysSorted (m : List (κ × α)) : Prop := (m.map Prod.fst).Pairwise (· < ·)

variable {k : κ} {v : α} {m : List (κ × α)} {x : κ × α}

theorem keysSorted_nil : KeysSorted ([] : List (κ × α)) := List.Pairwise.nil

theorem keysSorted_cons : KeysSorted (x :: m) ↔ (∀ y ∈ m, x.1 < y.1) ∧ KeysSorted m := by
  simp [KeysSorted, List.pairwise_cons]

/-- What stands in front of a member has smaller keys. -/
theorem KeysSorted.lt_of_append {m' : List (κ × α)} (h : KeysSorted (m ++ x :: m')) : ∀ y ∈ m, y.1 < x.1 := by
  intro y hy
  unfold KeysSorted at h
  rw [List.map_append, List.pairwise_append] at h
  exact h.2.2 y.1 (List.mem_map_of_mem hy) x.1 List.mem_cons_self

theorem mem_of_mem_insertKey {y : κ × α} (h : y ∈ insertKey k v m) : y = (k, v) ∨ y ∈ m := by
  induction m with
  | nil => exact .inl (List.mem_singleton.1 h)
  | cons x m ih =>
    unfold insertKey at h
    split at h
    · exact List.mem_cons.1 h
    split at h
    · rcases List.mem_cons.1 h with h | h
      · exact .inl h
      · exact .inr (List.mem_cons_of_mem _ h)
    · rcases List.mem_cons.1 h with h | h
      · exact .inr (h ▸ List.mem_cons_self)
      · exact (ih h).imp_right (List.mem_cons_of_mem _)

theorem KeysSorted.insertKey (h : KeysSorted m) : KeysSorted (insertKey k v m) := by
  induction m with
  | nil =>
    unfold SortedMembers.insertKey
    exact keysSorted_cons.2 ⟨fun y hy => (nomatch hy), keysSorted_nil⟩
  | cons x m ih =>
    obtain ⟨hx, hm⟩ := keysSorted_cons.1 h
    unfold SortedMembers.insertKey
    split
    · rename_i hlt
      refine keysSorted_cons.2 ⟨?_, h⟩
      intro y hy
      rcases List.mem_cons.1 hy with rfl | hy
      · exact hlt
      · exact lt_trans hlt (hx y hy)
    split
    · rename_i heq
      exact keysSorted_cons.2 ⟨fun y hy => heq ▸ hx y hy, hm⟩
    · rename_i hle hne
      refine keysSorted_cons.2 ⟨?_, ih hm⟩
      intro y hy
      rcases mem_of_mem_insertKey hy with rfl | hy
      · exact lt_of_le_of_ne (not_lt.1 hle) (Ne.symm hne)
      · exact hx y hy

/-- A key behind all others is put at the end. -/
theorem insertKey_eq_append (h : ∀ x ∈ m, x.1 < k) : insertKey k v m = m ++ [(k, v)] := by
  induction m with
  | nil => rfl
  | cons x m ih =>
    have hx : x.1 < k := h x List.mem_cons_self
    unfold insertKey
    rw [if_neg (not_lt_of_gt hx), if_neg (ne_of_gt hx), ih fun y hy => h y (List.mem_cons_of_mem _ hy)]
    rfl

/-- The later of two values for a key stays. -/
theorem insertKey_insertKey {w : α} : insertKey k w (insertKey k v m) = insertKey k w m := by
  induction m with
  | nil => simp [insertKey]
  | cons x m ih =>
    by_cases hlt : k < x.1
    · simp [insertKey, hlt]
    · by_cases heq : k = x.1
      · simp [insertKey, heq]
      · simp [insertKey, hlt, heq, ih]

theorem insertKey_emplaceKey {w : α} : insertKey k w (emplaceKey k v m) = insertKey k w m := by
  unfold emplaceKey
  split
  · rfl
  · exact insertKey_insertKey

private theorem KeysSorted.emplaceKey (h : KeysSorted m) : KeysSorted (emplaceKey k v m) := by
  unfold SortedMembers.emplaceKey
  split
  · exact h
  · exact h.insertKey

/-! ### Lookup -/

section Lookup

variable [BEq κ] [LawfulBEq κ] {k' : κ}

theorem lookup_insertKey : (insertKey k v m).lookup k' = if k' = k then some v else m.lookup k' := by
  induction m with
  | nil =>
    rw [insertKey, List.lookup_cons]
    by_cases hk : k' = k
    · simp [hk]
    · simp [hk, beq_false_of_ne hk]
  | cons x m ih =>
    unfold insertKey
    split
    · rw [List.lookup_cons]
      by_cases hk : k' = k
      · simp [hk]
      · simp [hk, beq_false_of_ne hk]
    split
    · rename_i heq
      rw [List.lookup_cons, List.lookup_cons]
      by_cases hk : k' = k
      · simp [hk]
      · have hne : k' ≠ x.1 := heq ▸ hk
        simp [hk, beq_false_of_ne hk, beq_false_of_ne hne]
    · rename_i hle hne
      rw [List.lookup_cons, List.lookup_cons, ih]
      by_cases hk : k' = x.1
      · have hne' : k' ≠ k := fun h => hne (h.symm.trans hk)
        simp [hk, hk ▸ hne']
      · simp [beq_false_of_ne hk]

private theorem lookup_isSome : (m.lookup k).isSome = true ↔ k ∈ m.map Prod.fst := by
  induction m with
  | nil => simp
  | cons x m ih =>
    rw [List.lookup_cons, List.map_cons, List.mem_cons]
    by_cases hk : k = x.1
    · simp [hk]
    · simp only [beq_false_of_ne hk, ih, hk, false_or]

/-- A sorted list is told by its lookups. -/
theorem eq_of_lookup_eq {m' : List (κ × α)} (h : KeysSorted m) (h' : KeysSorted m')
    (heq : ∀ k, m.lookup k = m'.lookup k) : m = m' := by
  induction m generalizing m' with
  | nil =>
    cases m' with
    | nil => rfl
    | cons y m' =>
      have hy := heq y.1
      rw [List.lookup_cons_self] at hy
      cases hy
  | cons x m ih =>
    cases m' with
    | nil =>
      have hx := heq x.1
      rw [List.lookup_cons_self] at hx
      cases hx
    | cons y m' =>
      obtain ⟨hx, hm⟩ := keysSorted_cons.1 h
      obtain ⟨hy, hm'⟩ := keysSorted_cons.1 h'
      have hnone : ∀ {z : κ × α} {l : List (κ × α)}, (∀ u ∈ l, z.1 < u.1) → ∀ k, k ≤ z.1 → l.lookup k = none := by
        intro z l hl k hk
        apply List.lookup_eq_none_iff.2
        intro u hu
        exact bne_iff_ne.2 (ne_of_lt (lt_of_le_of_lt hk (hl u hu)))
      -- neither head comes before the other
      have hkey : x.1 = y.1 := by
        rcases lt_trichotomy x.1 y.1 with hlt | hk | hlt
        · have hlook := heq x.1
          rw [List.lookup_cons_self, List.lookup_cons, beq_false_of_ne (ne_of_lt hlt), hnone hy _ (le_of_lt hlt)]
            at hlook
          cases hlook
        · exact hk
        · have hlook := heq y.1
          rw [List.lookup_cons_self, List.lookup_cons, beq_false_of_ne (ne_of_lt hlt), hnone hx _ (le_of_lt hlt)]
            at hlook
          cases hlook
      have hvalue : x = y := by
        have hlook := heq x.1
        rw [List.lookup_cons_self, hkey, List.lookup_cons_self] at hlook
        exact Prod.ext hkey (Option.some.inj hlook)
      subst hvalue
      congr 1
      apply ih hm hm'
      intro k
      have hlook := heq k
      rw [List.lookup_cons, List.lookup_cons] at hlook
      by_cases hk : k = x.1
      · rw [hk, hnone hx _ (le_refl _), hnone hy _ (le_refl _)]
      · simpa only [beq_false_of_ne hk] using hlook

/-- What is there already stays. -/
theorem lookup_emplaceKey : (emplaceKey k v m).lookup k' = (m.lookup k').or (if k' = k then some v else none) := by
  unfold emplaceKey
  split
  · rename_i hmem
    by_cases hk : k' = k
    · obtain ⟨w, hw⟩ := Option.isSome_iff_exists.1 (lookup_isSome.2 hmem)
      rw [hk, hw, Option.some_or]
    · rw [if_neg hk, Option.or_none]
  · rename_i hmem
    rw [lookup_insertKey]
    by_cases hk : k' = k
    · have hnone : m.lookup k = none := Option.not_isSome_iff_eq_none.1 (mt lookup_isSome.1 hmem)
      rw [if_pos hk, if_pos hk, hk, hnone, Option.none_or]
    · rw [if_neg hk, if_neg hk, Option.or_none]

private theorem lookup_foldl_emplaceKey (l : List (κ × α)) :
    (l.foldl (fun m x => emplaceKey x.1 x.2 m) m).lookup k = (m.lookup k).or (l.lookup k) := by
  induction l generalizing m with
  | nil => exact (Option.or_none).symm
  | cons x l ih =>
    rw [List.foldl_cons, ih, lookup_emplaceKey, Option.or_assoc, List.lookup_cons]
    by_cases hk : k = x.1
    · simp [hk]
    · simp [hk, beq_false_of_ne hk]

/-- The first pair with a key counts. -/
theorem lookup_ofPairs (l : List (κ × α)) : (ofPairs l).lookup k = l.lookup k :=
  lookup_foldl_emplaceKey l

end Lookup

/-! ### Maps that are filled -/

theorem keysSorted_ofPairs (l : List (κ × α)) : KeysSorted (ofPairs l) :=
  List.foldlRecOn l _ keysSorted_nil fun _ hm _ _ => hm.emplaceKey

theorem mem_of_mem_ofPairs {l : List (κ × α)} (h : x ∈ ofPairs l) : x ∈ l := by
  have hinit : ∀ x ∈ ([] : List (κ × α)), x ∈ l := fun x hx => nomatch hx
  refine List.foldlRecOn (motive := fun m => ∀ x ∈ m, x ∈ l) l _ hinit ?_ x h
  intro m hm y hy x hx
  unfold emplaceKey at hx
  split at hx
  · exact hm x hx
  · rcases mem_of_mem_insertKey hx with rfl | hx
    · exact hy
    · exact hm x hx

end SortedMembers
