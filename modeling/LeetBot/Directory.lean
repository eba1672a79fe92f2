import Mathlib.Data.List.Basic
import Mathlib.Data.List.Nodup
import Mathlib.Logic.Relation
import Mathlib.Tactic.Common

/-!
# Directories of accounts

A directory lists the accounts of its users in the order in which they were opened, at most one for each user.  An
account is linked to a name when it is opened and keeps it; its handle and its statistics are refreshed together.
-/

/-- The account of a user: the name that it is linked to, and the last known handle and statistics. -/
structure Account (κ ν μ δ : Type) where
  user : κ
  name : ν
  handle : μ
  stats : Option δ

/-- Accounts of different users. -/
structure Directory (κ ν μ δ : Type) where
  accounts : List (Account κ ν μ δ)
  nodup : (accounts.map Account.user).Nodup

namespace Directory

variable {κ ν μ δ : Type} [DecidableEq κ] {d d' : Directory κ ν μ δ} {k k' : κ} {acc : Account κ ν μ δ}
  {L : ν} {u : μ} {s : δ}

def empty : Directory κ ν μ δ := ⟨[], List.nodup_nil⟩

def lookup (d : Directory κ ν μ δ) (k : κ) : Option (Account κ ν μ δ) := d.accounts.find? fun acc => acc.user = k

private theorem user_of_lookup (h : d.lookup k = some acc) : acc.user = k := by
  have hk := List.find?_some h
  simpa using hk

private theorem lookup_eq_none : d.lookup k = none ↔ ∀ acc ∈ d.accounts, acc.user ≠ k := by
  simp [lookup]

/-- The accounts of a user: the one that is looked up, or none. -/
theorem filter_user : d.accounts.filter (fun acc => acc.user = k) = (d.lookup k).toList := by
  obtain ⟨accounts, hnodup⟩ := d
  unfold lookup
  induction accounts with
  | nil => rfl
  | cons acc accounts ih =>
    obtain ⟨hhead, htail⟩ := List.nodup_cons.1 hnodup
    by_cases h : acc.user = k
    · have hrest : ∀ x ∈ accounts, x.user ≠ k := by
        intro x hx hk
        apply hhead
        rw [h, ← hk]
        exact List.mem_map_of_mem hx
      rw [List.filter_cons_of_pos (by simpa using h), List.find?_cons_of_pos (by simpa using h)]
      rw [List.filter_eq_nil_iff.2 (by simpa using hrest)]
      rfl
    · rw [List.filter_cons_of_neg (by simpa using h), List.find?_cons_of_neg (by simpa using h)]
      exact ih htail

/-! ### Opening and refreshing accounts -/

/-- The directory with an account for a user who has none. -/
def link (d : Directory κ ν μ δ) (k : κ) (L : ν) (u : μ) (h : d.lookup k = none) : Directory κ ν μ δ where
  accounts := d.accounts ++ [⟨k, L, u, none⟩]
  nodup := by
    rw [List.map_append, List.nodup_append]
    refine ⟨d.nodup, by simp, ?_⟩
    intro a ha b hb
    obtain ⟨acc, hacc, rfl⟩ := List.mem_map.1 ha
    rw [List.mem_singleton.1 hb]
    exact lookup_eq_none.1 h acc hacc

/-- An account after a refresh of the account of `k`. -/
def refreshed (k : κ) (L : ν) (u : μ) (s : δ) (acc : Account κ ν μ δ) : Account κ ν μ δ :=
  if acc.user = k then ⟨k, L, u, some s⟩ else acc

private theorem user_refreshed : (refreshed k L u s acc).user = acc.user := by
  unfold refreshed
  split
  · exact Eq.symm ‹_›
  · rfl

/-- The directory with a new name, handle and statistics in the account of a user. -/
def refresh (d : Directory κ ν μ δ) (k : κ) (L : ν) (u : μ) (s : δ) : Directory κ ν μ δ where
  accounts := d.accounts.map (refreshed k L u s)
  nodup := by
    rw [List.map_map]
    have huser : Account.user ∘ refreshed k L u s = Account.user := funext fun acc => user_refreshed
    rw [huser]
    exact d.nodup

private theorem lookup_link {h : d.lookup k = none} :
    (d.link k L u h).lookup k' = if k' = k then some ⟨k, L, u, none⟩ else d.lookup k' := by
  unfold lookup link
  rw [List.find?_append]
  by_cases hk : k' = k
  · subst hk
    have hnone : d.accounts.find? (fun acc => acc.user = k') = none := h
    simp [hnone]
  · simp [hk, Ne.symm hk]

private theorem lookup_refresh : (d.refresh k L u s).lookup k' = (d.lookup k').map (refreshed k L u s) := by
  unfold lookup refresh
  rw [List.find?_map]
  have huser : (fun acc : Account κ ν μ δ => decide (acc.user = k')) ∘ refreshed k L u s =
      fun acc => decide (acc.user = k') := by
    funext acc
    simp [user_refreshed]
  rw [huser]

/-- Nothing is refreshed for a user without an account. -/
theorem refresh_of_none (h : d.lookup k = none) : d.refresh k L u s = d := by
  obtain ⟨accounts, hnodup⟩ := d
  unfold refresh
  congr 1
  conv_rhs => rw [← List.map_id accounts]
  apply List.map_congr_left
  intro acc hacc
  exact if_neg (lookup_eq_none.1 h acc hacc)

/-! ### What happens to a directory -/

/-- One user opens an account, or the account of one user is refreshed under its name. -/
inductive Step : Directory κ ν μ δ → Directory κ ν μ δ → Prop
  | link (d : Directory κ ν μ δ) (k : κ) (L : ν) (u : μ) (h : d.lookup k = none) : Step d (d.link k L u h)
  | refresh (d : Directory κ ν μ δ) (k : κ) {acc : Account κ ν μ δ} (u : μ) (s : δ) (h : d.lookup k = some acc) :
      Step d (d.refresh k acc.name u s)

/-- Every account of `d` is still there, under its name, and with statistics if it had some. -/
def Extends (d d' : Directory κ ν μ δ) : Prop :=
  ∀ k acc, d.lookup k = some acc →
    ∃ acc', d'.lookup k = some acc' ∧ acc'.name = acc.name ∧ (acc.stats.isSome → acc'.stats.isSome)

private theorem Extends.refl (d : Directory κ ν μ δ) : d.Extends d := by
  intro k acc h
  exact ⟨acc, h, rfl, id⟩

private theorem Extends.trans {d'' : Directory κ ν μ δ} (h : d.Extends d') (h' : d'.Extends d'') : d.Extends d'' := by
  intro k acc hk
  obtain ⟨acc', hk', hname, hstats⟩ := h k acc hk
  obtain ⟨acc'', hk'', hname', hstats'⟩ := h' k acc' hk'
  exact ⟨acc'', hk'', hname'.trans hname, fun hs => hstats' (hstats hs)⟩

private theorem Step.extends (h : Step d d') : d.Extends d' := by
  intro k' acc' hk'
  cases h with
  | link k L u h =>
    have hne : k' ≠ k := by
      rintro rfl
      rw [h] at hk'
      cases hk'
    exact ⟨acc', by rw [lookup_link, if_neg hne, hk'], rfl, id⟩
  | @refresh k acc u s h =>
    refine ⟨refreshed k acc.name u s acc', by rw [lookup_refresh, hk']; rfl, ?_⟩
    have huser := user_of_lookup hk'
    unfold refreshed
    by_cases hk : acc'.user = k
    · rw [if_pos hk]
      have hsame : acc' = acc := by
        rw [← hk, huser, hk'] at h
        exact Option.some.inj h
      exact ⟨by rw [hsame], fun _ => rfl⟩
    · rw [if_neg hk]
      exact ⟨rfl, id⟩

/-- Nobody loses an account, its name or the statistics. -/
theorem extends_of_steps (h : Relation.ReflTransGen Step d d') : d.Extends d' := by
  induction h with
  | refl => exact Extends.refl d
  | tail _ hstep ih => exact ih.trans hstep.extends

end Directory
