import LeetBot.Interleave

/-!
# Threads that act for others

An operation may issue a request, and a later event answer it with a new thread, which may issue a further request.
Such a thread acts for the thread that some other event started, however many requests lie between the two.
`Asking` says which operations issue requests, which events answer them and which requests are open; the ledger
books for each thread, and for each request, the thread it acts for.

When a thread issues at most one request, the errand of a starting thread is at one place at any time
(`Reach.unique_place`): it has not been issued, or it is an open request, or a thread has the answer and has not
issued another request.
-/

namespace Interleave

/-- How requests show in a system. -/
structure Asking (Op σ ε : Type) where
  issues : Op → Bool
  /-- The number of the request that an event answers. -/
  answers : ε → Option Nat
  /-- For all requests issued so far, whether they are open. -/
  isOpen : σ → List Bool

/-- For each thread, and for each request, the thread it acts for. -/
structure Ledger where
  owners : List Nat
  clients : List Nat

variable {Op : Type} {Res : Op → Type} {σ χ ε : Type}

private theorem World.length_started {w : World Op Res σ ε} {e : ε} {s : σ} {p : Prog Op Res Unit} :
    (w.started e s p).threads.length = w.threads.length + 1 := by
  simp [started]

private theorem World.length_after {w : World Op Res σ ε} {i : Nat} {e : ε} {o : Op} {r : Res o} {s : σ}
    {p : Prog Op Res Unit} : (w.after i e o r s p).threads.length = w.threads.length :=
  List.length_set

/-- Where the errand of a thread is. -/
inductive Place where
  | idle
  | flight (k : Nat)
  | handling (i : Nat)

namespace Asking

variable (A : Asking Op σ ε)

/-- An answer acts for the thread that its request acts for, and every other event for the thread it starts. -/
def record (l : Ledger) : Entry Op Res ε → Ledger
  | .arrived i e => { l with owners := l.owners ++ [((A.answers e).bind (l.clients[·]?)).getD i] }
  | .performed i o _ => if A.issues o then { l with clients := l.clients ++ [l.owners.getD i i] } else l

def ledger (w : World Op Res σ ε) : Ledger := w.history.foldl A.record ⟨[], []⟩

/-- The thread that thread `i` acts for. -/
def owner (w : World Op Res σ ε) (i : Nat) : Option Nat := (A.ledger w).owners[i]?

/-- The thread that request `k` acts for. -/
def client (w : World Op Res σ ε) (k : Nat) : Option Nat := (A.ledger w).clients[k]?

/-- The number of requests issued for thread `c`. -/
def issuedFor (w : World Op Res σ ε) (c : Nat) : Nat := (A.ledger w).clients.count c

def hasIssued (t : Trace Op Res) : Bool := t.any fun x => A.issues x.1

/-- Request `k` is open. -/
def Open (w : World Op Res σ ε) (k : Nat) : Prop := (A.isOpen w.shared)[k]? = some true

/-- The errand of thread `c` is at the place. -/
def At (w : World Op Res σ ε) (c : Nat) : Place → Prop
  | .idle => A.hasIssued (w.trace c) = false
  | .flight k => A.Open w k ∧ A.client w k = some c
  | .handling i => A.hasIssued (w.trace i) = false ∧ A.owner w i = some c ∧ i ≠ c

/-- An operation opens a request exactly when it issues one, and an answer closes an open request. -/
structure Lawful (S : System Op Res σ χ ε) : Prop where
  exec : ∀ {o x s r s'}, S.exec o x s = some (r, s') →
    A.isOpen s' = if A.issues o then A.isOpen s ++ [true] else A.isOpen s
  plain : ∀ {e s s' p}, S.arrive e s = some (s', p) → A.answers e = none → A.isOpen s' = A.isOpen s
  answer : ∀ {e s s' p k}, S.arrive e s = some (s', p) → A.answers e = some k →
    (A.isOpen s)[k]? = some true ∧ A.isOpen s' = (A.isOpen s).set k false

/-- Thread `c` was started by an event that answers nothing. -/
def Starts (w : World Op Res σ ε) (c : Nat) : Prop := ∃ e p, w.threads[c]? = some (e, p) ∧ A.answers e = none

variable {A} {w : World Op Res σ ε} {e : ε} {s : σ} {p q : Prog Op Res Unit} {i j k c n : Nat} {o : Op} {r : Res o}

@[simp] theorem hasIssued_nil : A.hasIssued ([] : Trace Op Res) = false := rfl

@[simp] theorem hasIssued_append {t t' : Trace Op Res} :
    A.hasIssued (t ++ t') = (A.hasIssued t || A.hasIssued t') := List.any_append

@[simp] theorem hasIssued_singleton : A.hasIssued [⟨o, r⟩] = A.issues o := by
  simp [hasIssued]

theorem Starts.lt (h : A.Starts w c) : c < w.threads.length := by
  obtain ⟨e, p, hc, -⟩ := h
  exact (List.getElem?_eq_some_iff.1 hc).1

private theorem Starts.started (h : A.Starts w c) : A.Starts (w.started e s p) c := by
  obtain ⟨e', p', hc, he⟩ := h
  exact ⟨e', p', World.started_threads.2 (.inl hc), he⟩

private theorem Starts.after (hi : w.threads[i]? = some (e, p)) (h : A.Starts w c) :
    A.Starts (w.after i e o r s q) c := by
  obtain ⟨e', p', hc, he⟩ := h
  by_cases hic : i = c
  · subst hic
    rw [hi] at hc
    cases hc
    exact ⟨e, q, (World.after_threads hi).2 (.inr ⟨rfl, rfl, rfl⟩), he⟩
  · exact ⟨e', p', (World.after_threads hi).2 (.inl ⟨hic, hc⟩), he⟩

theorem starts_of_started (h : A.Starts (w.started e s p) c) :
    A.Starts w c ∨ c = w.threads.length ∧ A.answers e = none := by
  obtain ⟨e', p', hc, he⟩ := h
  rcases World.started_threads.1 hc with hc | ⟨rfl, rfl, rfl⟩
  · exact .inl ⟨e', p', hc, he⟩
  · exact .inr ⟨rfl, he⟩

theorem starts_of_after (hi : w.threads[i]? = some (e, p)) (h : A.Starts (w.after i e o r s q) c) :
    A.Starts w c := by
  obtain ⟨e', p', hc, he⟩ := h
  rcases (World.after_threads hi).1 hc with ⟨-, hc⟩ | ⟨rfl, rfl, rfl⟩
  · exact ⟨e', p', hc, he⟩
  · exact ⟨e', p, hi, he⟩

/-! ### The ledger -/

private theorem ledger_started :
    A.ledger (w.started e s p) = A.record (A.ledger w) (.arrived w.threads.length e : Entry Op Res ε) := by
  simp [ledger, World.started]

private theorem ledger_after :
    A.ledger (w.after i e o r s p) = A.record (A.ledger w) (.performed i o r : Entry Op Res ε) := by
  simp [ledger, World.after]

@[simp] theorem client_started : A.client (w.started e s p) k = A.client w k := by
  simp [client, ledger_started, record]

@[simp] theorem owner_after : A.owner (w.after i e o r s p) j = A.owner w j := by
  unfold owner
  rw [ledger_after, record]
  split <;> rfl

/-- The books are complete, and what they name are starting threads. -/
structure Booked (A : Asking Op σ ε) (w : World Op Res σ ε) : Prop where
  owners : (A.ledger w).owners.length = w.threads.length
  clients : (A.ledger w).clients.length = (A.isOpen w.shared).length
  own : ∀ c, A.Starts w c → A.owner w c = some c
  answer : ∀ i e p k, w.threads[i]? = some (e, p) → A.answers e = some k → A.owner w i = A.client w k
  owned : ∀ i c, A.owner w i = some c → A.Starts w c
  served : ∀ k c, A.client w k = some c → A.Starts w c

private theorem Booked.lt_of_open (h : Booked A w) (hk : A.Open w k) : k < (A.ledger w).clients.length := by
  rw [h.clients]
  exact (List.getElem?_eq_some_iff.1 hk).1

theorem Booked.exists_client (h : Booked A w) (hk : A.Open w k) : ∃ c, A.client w k = some c :=
  ⟨_, List.getElem?_eq_getElem (h.lt_of_open hk)⟩

theorem Booked.exists_owner (h : Booked A w) (hi : i < w.threads.length) : ∃ c, A.owner w i = some c :=
  ⟨_, List.getElem?_eq_getElem (h.owners ▸ hi)⟩

/-- The thread that an event starts acts for the thread that its request acts for, or for itself. -/
theorem Booked.owner_started (h : Booked A w) : A.owner (w.started e s p) j =
    if j = w.threads.length then some (((A.answers e).bind (A.client w ·)).getD j) else A.owner w j := by
  unfold owner client
  rw [ledger_started, record]
  split
  · subst_vars
    rw [← h.owners, List.getElem?_concat_length]
  · rename_i hj
    rw [List.getElem?_append]
    split
    · rfl
    · rename_i hlt
      rw [List.getElem?_eq_none (by rw [List.length_singleton, h.owners]; rw [h.owners] at hlt; omega),
        List.getElem?_eq_none (by omega)]

/-- A request acts for the thread that the thread which issues it acts for. -/
theorem Booked.client_after (h : Booked A w) (hi : A.owner w i = some c) (ho : A.issues o = true) :
    A.client (w.after i e o r s p) k = if k = (A.isOpen w.shared).length then some c else A.client w k := by
  unfold client
  rw [ledger_after, record, if_pos ho, List.getD_eq_getElem?_getD]
  unfold owner at hi
  rw [hi, Option.getD_some]
  split
  · subst_vars
    rw [← h.clients, List.getElem?_concat_length]
  · rename_i hk
    rw [List.getElem?_append]
    split
    · rfl
    · rename_i hlt
      rw [List.getElem?_eq_none (by rw [List.length_singleton, h.clients]; rw [h.clients] at hlt; omega),
        List.getElem?_eq_none (by omega)]

/-- Only the thread that a request acts for counts it. -/
theorem issuedFor_after (hi : A.owner w i = some c) (ho : A.issues o = true) (d : Nat) :
    A.issuedFor (w.after i e o r s p) d = A.issuedFor w d + if d = c then 1 else 0 := by
  unfold owner at hi
  unfold issuedFor
  rw [ledger_after, record, if_pos ho, List.getD_eq_getElem?_getD, hi, Option.getD_some, List.count_append,
    List.count_singleton]
  by_cases hd : d = c
  · simp [hd]
  · simp [hd, Ne.symm hd]

theorem issuedFor_after_of_not (ho : A.issues o = false) :
    A.issuedFor (w.after i e o r s p) c = A.issuedFor w c := by
  unfold issuedFor
  rw [ledger_after, record, if_neg (by simp [ho])]

@[simp] theorem issuedFor_started : A.issuedFor (w.started e s p) c = A.issuedFor w c := by
  simp [issuedFor, ledger_started, record]

/-- No request has been issued for a thread that has not been started. -/
theorem Booked.issuedFor_eq_zero (h : Booked A w) (hc : w.threads.length ≤ c) : A.issuedFor w c = 0 := by
  refine List.count_eq_zero.2 fun hmem => ?_
  obtain ⟨k, hk⟩ := List.mem_iff_getElem?.1 hmem
  have := (h.served k c hk).lt
  omega

private theorem Booked.owner_of_lt (h : Booked A w) (hj : A.owner w j = some c) :
    A.owner (w.started e s p) j = some c := by
  have hlt : j < w.threads.length := h.owners ▸ (List.getElem?_eq_some_iff.1 hj).1
  rw [h.owner_started, if_neg (Nat.ne_of_lt hlt), hj]

/-- A thread that acts for another one was started by an answer. -/
theorem Booked.answer_of_owner (h : Booked A w) (hj : A.owner w j = some c) (hne : j ≠ c) :
    ∃ e p k, w.threads[j]? = some (e, p) ∧ A.answers e = some k ∧ A.client w k = some c := by
  have hlt : j < w.threads.length := h.owners ▸ (List.getElem?_eq_some_iff.1 hj).1
  have hthread : w.threads[j]? = some w.threads[j] := List.getElem?_eq_getElem hlt
  cases he : A.answers w.threads[j].1 with
  | none =>
    rw [h.own j ⟨_, _, hthread, he⟩] at hj
    exact absurd (Option.some.inj hj) hne
  | some k => exact ⟨_, _, k, hthread, he, (h.answer j _ _ k hthread he).symm.trans hj⟩

theorem Booked.ne_of_answer (h : Booked A w) (hi : w.threads[i]? = some (e, p)) (he : A.answers e = some k)
    (hc : A.owner w i = some c) : i ≠ c := by
  rintro rfl
  obtain ⟨e', p', hi', he'⟩ := h.owned i i hc
  rw [hi] at hi'
  cases hi'
  rw [he] at he'
  cases he'

theorem client_after_of_not (ho : A.issues o = false) : A.client (w.after i e o r s p) k = A.client w k := by
  unfold client
  rw [ledger_after, record, if_neg (by simp [ho])]

end Asking

namespace System

open Asking

variable {S : System Op Res σ χ ε} {A : Asking Op σ ε} {ok : World Op Res σ ε → Label χ ε → Prop} {s₀ : σ}
  {w : World Op Res σ ε}

theorem Reach.booked (hA : A.Lawful S) (h₀ : A.isOpen s₀ = []) (h : S.Reach ok { shared := s₀ } w) :
    Booked A w := by
  refine h.invariant (I := Booked A) ⟨rfl, by rw [h₀]; rfl, ?_, ?_, ?_, ?_⟩ ?_ ?_
  · intro c hc
    exact absurd hc.lt (Nat.not_lt_zero c)
  · intro i e p k hi
    cases hi
  · intro i c hi
    cases hi
  · intro k c hk
    cases hk
  · intro w e s p hreach hI _ ha
    have howned : ∀ i c, A.owner (w.started e s p) i = some c → A.Starts (w.started e s p) c := by
      intro i c hi
      rw [hI.owner_started] at hi
      split at hi
      · subst_vars
        cases he : A.answers e with
        | none =>
          simp only [he, Option.bind_none, Option.getD_none, Option.some.injEq] at hi
          subst hi
          exact ⟨e, p, World.started_threads.2 (.inr ⟨rfl, rfl, rfl⟩), he⟩
        | some k =>
          obtain ⟨c', hc'⟩ := hI.exists_client (hA.answer ha he).1
          simp only [he, Option.bind_some, hc', Option.getD_some, Option.some.injEq] at hi
          subst hi
          exact (hI.served k c' hc').started
      · exact (hI.owned i c hi).started
    refine ⟨?_, ?_, ?_, ?_, howned, ?_⟩
    · rw [ledger_started, record, World.length_started, List.length_append, hI.owners, List.length_singleton]
    · simp only [ledger_started, record, hI.clients, World.started_shared]
      cases he : A.answers e with
      | none => rw [hA.plain ha he]
      | some k => rw [(hA.answer ha he).2, List.length_set]
    · intro c hc
      rw [hI.owner_started]
      rcases starts_of_started hc with hc | ⟨rfl, he⟩
      · rw [if_neg (Nat.ne_of_lt hc.lt)]
        exact hI.own c hc
      · simp [he]
    · intro i e' p' k hi he
      rw [hI.owner_started, client_started]
      rcases World.started_threads.1 hi with hi | ⟨rfl, rfl, rfl⟩
      · rw [if_neg (Nat.ne_of_lt (List.getElem?_eq_some_iff.1 hi).1)]
        exact hI.answer i e' p' k hi he
      · obtain ⟨c, hc⟩ := hI.exists_client (hA.answer ha he).1
        rw [if_pos rfl, he, Option.bind_some, hc]
        rfl
    · intro k c hk
      rw [client_started] at hk
      exact (hI.served k c hk).started
  · intro w i x e o k r s hreach hI _ hi hx
    have hlt : i < w.threads.length := (List.getElem?_eq_some_iff.1 hi).1
    obtain ⟨c₀, hc₀⟩ := hI.exists_owner hlt
    have hclient : ∀ m c, A.client w m = some c → A.client (w.after i e o r s (k r)) m = some c := by
      intro m c hm
      cases ho : A.issues o with
      | false => rwa [client_after_of_not ho]
      | true =>
        have hlen : m < (A.isOpen w.shared).length := hI.clients ▸ (List.getElem?_eq_some_iff.1 hm).1
        rwa [hI.client_after hc₀ ho, if_neg (Nat.ne_of_lt hlen)]
    refine ⟨?_, ?_, ?_, ?_, ?_, ?_⟩
    · rw [ledger_after, record]
      split <;> exact hI.owners.trans World.length_after.symm
    · rw [ledger_after, record, World.after_shared, hA.exec hx]
      split <;> simp [hI.clients]
    · intro c hc
      rw [owner_after]
      exact hI.own c (starts_of_after hi hc)
    · intro j e' p' m hj he'
      rw [owner_after]
      have hold : ∃ q, w.threads[j]? = some (e', q) := by
        rcases (World.after_threads hi).1 hj with ⟨-, hj⟩ | ⟨rfl, rfl, -⟩
        · exact ⟨p', hj⟩
        · exact ⟨_, hi⟩
      obtain ⟨q, hq⟩ := hold
      obtain ⟨c, hc⟩ := hI.exists_owner (List.getElem?_eq_some_iff.1 hq).1
      rw [hc, hclient m c (hI.answer j e' q m hq he' ▸ hc)]
    · intro j c hj
      rw [owner_after] at hj
      exact (hI.owned j c hj).after hi
    · intro m c hm
      cases ho : A.issues o with
      | false =>
        rw [client_after_of_not ho] at hm
        exact (hI.served m c hm).after hi
      | true =>
        rw [hI.client_after hc₀ ho] at hm
        split at hm
        · cases hm
          exact (hI.owned i c₀ hc₀).after hi
        · exact (hI.served m c hm).after hi

/-- Who a thread acts for does not change. -/
theorem Reach.owner_mono (hA : A.Lawful S) (h₀ : A.isOpen s₀ = []) (h : S.Reach ok { shared := s₀ } w)
    {l : Label χ ε} {w' : World Op Res σ ε} (hs : S.step w l = some w') {j c : Nat} (hj : A.owner w j = some c) :
    A.owner w' j = some c := by
  cases l with
  | event e =>
    obtain ⟨s, p, -, rfl⟩ := step_event hs
    exact (h.booked hA h₀).owner_of_lt hj
  | run i x =>
    obtain ⟨e, o, k, r, s, -, -, rfl⟩ := step_run hs
    rwa [owner_after]

/-! ### The place of an errand -/

section Place

variable {c : Nat}

private theorem at_idle_started {e : ε} {s : σ} {p : Prog Op Res Unit} :
    A.At (w.started e s p) c .idle ↔ A.At w c .idle := by
  simp only [At, World.trace_started]

/-- A plain event moves no errand, and the one of the new thread has not been issued. -/
private theorem unique_place_plain (hA : A.Lawful S) (hI : Booked A w) {e : ε} {s : σ} {p : Prog Op Res Unit}
    (hreach : S.Reach ok { shared := s₀ } w) (ha : S.arrive e w.shared = some (s, p)) (he : A.answers e = none)
    (hplace : ∀ c, A.Starts w c → ∃! x, A.At w c x) (hc : A.Starts (w.started e s p) c) :
    ∃! x, A.At (w.started e s p) c x := by
  have howner : ∀ i, A.owner (w.started e s p) i = if i = w.threads.length then some i else A.owner w i := by
    intro i
    rw [hI.owner_started, he]
    rfl
  have hopen : ∀ k, A.Open (w.started e s p) k ↔ A.Open w k := by
    intro k
    unfold Open
    rw [World.started_shared, hA.plain ha he]
  rcases starts_of_started hc with hc | ⟨rfl, -⟩
  · refine (existsUnique_congr fun x => ?_).2 (hplace c hc)
    cases x with
    | idle => exact at_idle_started
    | flight k => simp only [At, hopen, client_started]
    | handling i =>
      simp only [At, World.trace_started, howner]
      split
      · subst_vars
        simp only [Option.some.injEq]
        have hnone : A.owner w w.threads.length = none := List.getElem?_eq_none (Nat.le_of_eq hI.owners)
        rw [hnone]
        have hne := Nat.ne_of_gt hc.lt
        simp [hne]
      · rfl
  · refine ⟨.idle, ?_, fun x hx => ?_⟩
    · simp only [At, World.trace_started]
      rw [hreach.trace_eq_nil (Nat.le_refl _)]
      rfl
    · cases x with
      | idle => rfl
      | flight k =>
        have hk := hx.2
        rw [client_started] at hk
        exact absurd (hI.served k _ hk).lt (Nat.lt_irrefl _)
      | handling i =>
        obtain ⟨-, hi, hne⟩ := hx
        rw [howner, if_neg hne] at hi
        exact absurd (hI.owned i _ hi).lt (Nat.lt_irrefl _)

/-- An answer takes the errand from the request to the new thread. -/
private theorem unique_place_answer (hA : A.Lawful S) (hI : Booked A w) {e : ε} {s : σ} {p : Prog Op Res Unit}
    {k : Nat}
    (hreach : S.Reach ok { shared := s₀ } w) (ha : S.arrive e w.shared = some (s, p)) (he : A.answers e = some k)
    (hplace : ∀ c, A.Starts w c → ∃! x, A.At w c x) (hc : A.Starts (w.started e s p) c) :
    ∃! x, A.At (w.started e s p) c x := by
  obtain ⟨hk, hset⟩ := hA.answer ha he
  obtain ⟨c₀, hc₀⟩ := hI.exists_client hk
  replace hc : A.Starts w c := (starts_of_started hc).resolve_right fun h => by
    rw [he] at h
    cases h.2
  have howner : ∀ i, A.owner (w.started e s p) i = if i = w.threads.length then some c₀ else A.owner w i := by
    intro i
    rw [hI.owner_started, he, Option.bind_some, hc₀]
    rfl
  have hopen : ∀ j, A.Open (w.started e s p) j ↔ k ≠ j ∧ A.Open w j := by
    intro j
    unfold Open
    rw [World.started_shared, hset, List.getElem?_set]
    by_cases hjk : k = j
    · subst hjk
      simp only [ne_eq, not_true, false_and, iff_false, if_true]
      split <;> simp
    · simp [hjk]
  have htrace : w.trace w.threads.length = [] := hreach.trace_eq_nil (Nat.le_refl _)
  have hnone : A.owner w w.threads.length = none := List.getElem?_eq_none (Nat.le_of_eq hI.owners)
  by_cases hcc : c = c₀
  · subst hcc
    have hwas : ∀ x, A.At w c x → x = .flight k := fun x hx => (hplace c hc).unique hx ⟨hk, hc₀⟩
    refine ⟨.handling w.threads.length, ⟨?_, ?_, Nat.ne_of_gt hc.lt⟩, fun x hx => ?_⟩
    · rw [World.trace_started, htrace]
      rfl
    · rw [howner, if_pos rfl]
    · cases x with
      | idle => cases hwas _ (at_idle_started.1 hx)
      | flight j =>
        obtain ⟨hj, hjc⟩ := hx
        rw [client_started] at hjc
        obtain ⟨hne, hj⟩ := (hopen j).1 hj
        cases hwas (.flight j) ⟨hj, hjc⟩
        exact absurd rfl hne
      | handling i =>
        by_cases hi : i = w.threads.length
        · rw [hi]
        · obtain ⟨h1, h2, h3⟩ := hx
          rw [World.trace_started] at h1
          rw [howner, if_neg hi] at h2
          cases hwas (.handling i) ⟨h1, h2, h3⟩
  · refine (existsUnique_congr fun x => ?_).2 (hplace c hc)
    cases x with
    | idle => exact at_idle_started
    | flight j =>
      simp only [At, hopen, client_started]
      constructor
      · exact fun h => ⟨h.1.2, h.2⟩
      · rintro ⟨hj, hjc⟩
        refine ⟨⟨?_, hj⟩, hjc⟩
        rintro rfl
        rw [hc₀] at hjc
        exact hcc (Option.some.inj hjc).symm
    | handling i =>
      simp only [At, World.trace_started, howner]
      split
      · subst_vars
        simp [hnone, Ne.symm hcc]
      · rfl

/-- An operation moves an errand only when it issues a request: then the errand is that request. -/
private theorem unique_place_run (hA : A.Lawful S) (hI : Booked A w) {i : Nat} {x : χ} {e : ε} {o : Op}
    {k : Res o → Prog Op Res Unit} {r : Res o} {s : σ} (hi : w.threads[i]? = some (e, .call o k))
    (hx : S.exec o x w.shared = some (r, s)) (honce : A.issues o = true → A.hasIssued (w.trace i) = false)
    (hplace : ∀ c, A.Starts w c → ∃! x, A.At w c x) (hc : A.Starts (w.after i e o r s (k r)) c) :
    ∃! x, A.At (w.after i e o r s (k r)) c x := by
  replace hc := starts_of_after hi hc
  have hother : ∀ j, i ≠ j → (w.after i e o r s (k r)).trace j = w.trace j := fun j => World.trace_after_of_ne
  cases ho : A.issues o with
  | false =>
    have hissued : ∀ j, A.hasIssued ((w.after i e o r s (k r)).trace j) = A.hasIssued (w.trace j) := by
      intro j
      by_cases hij : i = j
      · subst hij
        rw [World.trace_after_self, hasIssued_append, hasIssued_singleton, ho, Bool.or_false]
      · rw [hother j hij]
    have hopen : ∀ j, A.Open (w.after i e o r s (k r)) j ↔ A.Open w j := by
      intro j
      unfold Open
      rw [World.after_shared, hA.exec hx, ho]
      simp
    refine (existsUnique_congr fun y => ?_).2 (hplace c hc)
    cases y with
    | idle => simp only [At, hissued]
    | flight j => simp only [At, hopen, client_after_of_not ho]
    | handling j => simp only [At, hissued, owner_after]
  | true =>
    obtain ⟨c₀, hc₀⟩ := hI.exists_owner (List.getElem?_eq_some_iff.1 hi).1
    have hfresh := honce ho
    have hissued : A.hasIssued ((w.after i e o r s (k r)).trace i) = true := by
      rw [World.trace_after_self, hasIssued_append, hasIssued_singleton, ho, Bool.or_true]
    have hopen : ∀ j, A.Open (w.after i e o r s (k r)) j ↔ A.Open w j ∨ j = (A.isOpen w.shared).length := by
      intro j
      unfold Open
      rw [World.after_shared, hA.exec hx, if_pos ho, List.getElem?_append]
      split
      · rename_i hlt
        simp [Nat.ne_of_lt hlt]
      · rename_i hge
        rw [List.getElem?_eq_none (Nat.not_lt.1 hge), List.getElem?_singleton]
        simp only [reduceCtorEq, false_or]
        constructor
        · intro h
          split at h
          · omega
          · cases h
        · rintro rfl
          simp
    have hclient : ∀ j, A.client (w.after i e o r s (k r)) j =
        if j = (A.isOpen w.shared).length then some c₀ else A.client w j := fun j => hI.client_after hc₀ ho
    have hnew : A.client w (A.isOpen w.shared).length = none := List.getElem?_eq_none (Nat.le_of_eq hI.clients)
    by_cases hcc : c = c₀
    · subst hcc
      -- before the step, the errand was with the thread that issues the request
      have hwas : A.At w c (if i = c then .idle else .handling i) := by
        split
        · subst_vars
          exact hfresh
        · exact ⟨hfresh, hc₀, ‹_›⟩
      have huniq := fun y (hy : A.At w c y) => (hplace c hc).unique hy hwas
      refine ⟨.flight (A.isOpen w.shared).length, ⟨(hopen _).2 (.inr rfl), ?_⟩, fun y hy => ?_⟩
      · rw [hclient, if_pos rfl]
      cases y with
      | idle =>
        by_cases hic : i = c
        · subst hic
          exact absurd (hy.symm.trans hissued) Bool.false_ne_true
        · have hy' : A.At w c .idle := by
            simp only [At, hother c hic] at hy
            exact hy
          have heq := huniq _ hy'
          rw [if_neg hic] at heq
          cases heq
      | flight j =>
        obtain ⟨hj, hjc⟩ := hy
        by_cases hjn : j = (A.isOpen w.shared).length
        · rw [hjn]
        · rw [hclient, if_neg hjn] at hjc
          have heq := huniq (.flight j) ⟨((hopen j).1 hj).resolve_right hjn, hjc⟩
          split at heq <;> cases heq
      | handling j =>
        obtain ⟨h1, h2, h3⟩ := hy
        rw [owner_after] at h2
        by_cases hij : i = j
        · subst hij
          exact absurd (h1.symm.trans hissued) Bool.false_ne_true
        · rw [hother j hij] at h1
          have heq := huniq (.handling j) ⟨h1, h2, h3⟩
          split at heq
          · cases heq
          · cases heq
            exact absurd rfl hij
    · have hic : i ≠ c := by
        rintro rfl
        rw [hI.own i hc] at hc₀
        exact hcc (Option.some.inj hc₀)
      refine (existsUnique_congr fun y => ?_).2 (hplace c hc)
      cases y with
      | idle => simp only [At, hother c hic]
      | flight j =>
        simp only [At, hopen, hclient]
        split
        · subst_vars
          simp [hnew, Ne.symm hcc]
        · rename_i hjn
          simp [hjn]
      | handling j =>
        simp only [At, owner_after]
        by_cases hij : i = j
        · subst hij
          simp [hc₀, Ne.symm hcc]
        · rw [hother j hij]

end Place

/-- If every thread issues at most one request, the errand of a starting thread is at one place. -/
theorem Reach.unique_place (hA : A.Lawful S) (h₀ : A.isOpen s₀ = [])
    (honce : ∀ w i e o (k : Res o → Prog Op Res Unit), S.Reach ok { shared := s₀ } w →
      w.threads[i]? = some (e, .call o k) → A.issues o = true → A.hasIssued (w.trace i) = false)
    (h : S.Reach ok { shared := s₀ } w) {c : Nat} (hc : A.Starts w c) : ∃! x, A.At w c x := by
  refine h.invariant (I := fun w => ∀ c, A.Starts w c → ∃! x, A.At w c x) ?_ ?_ ?_ c hc
  · intro c hc
    exact absurd hc.lt (Nat.not_lt_zero c)
  · intro w e s p hreach hI _ ha c hc
    cases he : A.answers e with
    | none => exact unique_place_plain hA (hreach.booked hA h₀) hreach ha he hI hc
    | some k => exact unique_place_answer hA (hreach.booked hA h₀) hreach ha he hI hc
  · intro w i x e o k r s hreach hI _ hi hx c hc
    exact unique_place_run hA (hreach.booked hA h₀) hi hx (honce w i e o k hreach hi) hI hc

end System

end Interleave
