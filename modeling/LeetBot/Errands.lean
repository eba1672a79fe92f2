import LeetBot.Turns

/-!
# One errand for each command

Every request and every completion belongs to the slash command that it goes back to.  A command has one errand,
the request it issued: at any time that errand has not been issued, or it is one request in flight, or one thread
handles its completion.  The request stays the same but for its count, so the number of requests made for a command
is one more than the count of the last.
-/

namespace LeetBot

open Interleave

/-- How requests to LeetCode show in the system. -/
def asking : Asking Op Accounts AccountEvent where
  issues
    | .request _ => true
    | _ => false
  answers
    | .completion k _ _ => some k
    | _ => none
  isOpen a := a.inflight.map Option.isSome

variable {parse : String → Except String Json} {db : LeetoDB} {ok : AccountWorld → Label Choice AccountEvent → Prop}
  {w w' : AccountWorld} {l : Label Choice AccountEvent}

theorem asking_lawful : asking.Lawful (accounts parse db) where
  exec := by
    intro o x a r s h
    rcases exec_cases h with rfl | ⟨st, rfl, rfl⟩ | ⟨rfl, rfl⟩ | ⟨p, desc, rfl, rfl⟩ | ⟨q, rfl, rfl⟩
    · cases o with
      | request q =>
        have hlen := congrArg (fun s => (Accounts.inflight s.2).length) (Option.some.inj h)
        simp at hlen
      | _ => rfl
    · rfl
    · rfl
    · rfl
    · simp [asking]
  plain := by
    intro e a s p h he
    rcases arrive_cases h with ⟨event, rfl, rfl⟩ | ⟨k, r, cc, rfl, -, -⟩ | ⟨d, n, rfl, rfl, -⟩
    · rfl
    · cases he
    · rfl
  answer := by
    intro e a s p k h he
    cases e with
    | completion k' r cc =>
      cases he
      simp only [accounts, Accounts.arrive] at h
      split at h
      · rename_i hk
        cases h
        simp only [asking, List.getElem?_map, hk, List.map_set]
        exact ⟨rfl, rfl⟩
      · cases h
    | _ => cases he

theorem hasIssued_eq_false {t : Trace Op Op.Res} : asking.hasIssued t = false ↔ requested t = [] := by
  simp only [Asking.hasIssued, List.any_eq_false, requested, List.filterMap_eq_nil_iff]
  refine forall_congr' fun x => forall_congr' fun _ => ?_
  obtain ⟨o, r⟩ := x
  cases o <;> simp [asking]

/-- The next operation of a thread is one that the list allows. -/
theorem next_turn (hw : Reachable parse db ok w) {i : Nat} {e : AccountEvent} {o : Op}
    {k : o.Res → Program Unit} (hi : w.threads[i]? = some (e, .call o k)) : AccountTurn e (w.trace i) o :=
  (hw.follows (turn_arrive parse db) hi).1

/-- Everything performed was allowed. -/
theorem performed_turn (hw : Reachable parse db ok w) {i : Nat} {o : Op} {r : o.Res}
    (hr : .performed i o r ∈ w.history) :
    ∃ e t, .arrived i e ∈ w.history ∧ AccountTurn e t o ∧ t ++ [⟨o, r⟩] <+: w.trace i :=
  hw.performed_follows (fun e a a' p h => (turn_arrive parse db e a a' p h).mono fun _ _ _ => trivial) hr

theorem turn_end (hw : Reachable parse db ok w) {i : Nat} {e : AccountEvent} (he : .arrived i e ∈ w.history)
    (hend : w.ended i) : TurnEnd e (w.trace i) :=
  hw.of_ended (turn_arrive parse db) he hend

/-- A thread that issues a request has not issued one. -/
theorem requested_of_issuing (hw : Reachable parse db ok w) {i : Nat} {e : AccountEvent} {q : Request}
    {k : Unit → Program Unit} (hi : w.threads[i]? = some (e, .call (.request q) k)) : requested (w.trace i) = [] := by
  have hturn := next_turn hw hi
  cases e with
  | slashcommand event => exact hturn.1
  | completion j r cc =>
    rw [hturn.1]
    rfl
  | usernameChange d n => exact hturn.elim

theorem mem_requested {i : Nat} {q : Request} :
    q ∈ requested (w.trace i) ↔ .performed i (.request q) () ∈ w.history := by
  refine Iff.trans ?_ World.mem_trace
  simp only [requested, List.mem_filterMap]
  constructor
  · rintro ⟨⟨o, r⟩, hmem, h⟩
    cases o with
    | request q' =>
      cases h
      exact hmem
    | _ => cases h
  · intro h
    exact ⟨_, h, rfl⟩

theorem booked (hw : Reachable parse db ok w) : asking.Booked w := hw.booked asking_lawful rfl

/-- A command is a thread that was not started by a completion. -/
theorem starts_of_command (hw : Reachable parse db ok w) {c : Nat} {event : SlashCommand}
    (hc : .arrived c (.slashcommand event) ∈ w.history) : asking.Starts w c := by
  obtain ⟨p, hp⟩ := hw.arrived_iff.1 hc
  exact ⟨_, p, hp, rfl⟩

theorem unique_place (hw : Reachable parse db ok w) {c : Nat} (hc : asking.Starts w c) : ∃! x, asking.At w c x := by
  refine hw.unique_place asking_lawful rfl (fun w i e o k hreach hi ho => ?_) hc
  cases o with
  | request q => exact hasIssued_eq_false.2 (requested_of_issuing hreach hi)
  | _ => cases ho

/-! ### The request of a command -/

namespace Request

@[simp] theorem retryCount_withCount (r : Request) (n : Nat) : (r.withCount n).retryCount = n := by
  cases r <;> rfl

@[simp] theorem withCount_withCount (r : Request) (m n : Nat) : (r.withCount m).withCount n = r.withCount n := by
  cases r <;> rfl

@[simp] theorem withCount_retryCount (r : Request) : r.withCount r.retryCount = r := by
  cases r <;> rfl

@[simp] theorem advances_withCount (r : Request) (n : Nat) : (r.withCount n).advances = r.advances := by
  cases r <;> rfl

@[simp] theorem describes_withCount (r : Request) (n : Nat) : (r.withCount n).describes = r.describes := by
  cases r <;> rfl

@[simp] theorem name_withCount (r : Request) (n : Nat) : (r.withCount n).name = r.name := by
  cases r <;> rfl

end Request

/-- The request at a place is `r`. -/
def RequestAt (w : AccountWorld) : Place → Request → Prop
  | .idle, _ => False
  | .flight k, r => w.shared.inflight[k]? = some (some r)
  | .handling i, r => ∃ k cc p, w.threads[i]? = some (.completion k r cc, p)

/-- A command that has not issued a request has none made for it; otherwise its errand is the request it issued,
with the count of the requests made before. -/
structure Errand (w : AccountWorld) (c : Nat) : Prop where
  idle : requested (w.trace c) = [] → asking.issuedFor w c = 0
  carried : ∀ x r, asking.At w c x → RequestAt w x r →
    (∃ q, requested (w.trace c) = [q] ∧ r = q.withCount r.retryCount) ∧
      (r.advances → r.retryCount ≤ 3 ∧ asking.issuedFor w c = r.retryCount + 1)

private theorem errand_of_carried {c : Nat} (h : Errand w c) (htrace : requested (w'.trace c) = requested (w.trace c))
    (hissued : asking.issuedFor w' c = asking.issuedFor w c)
    (hcarried : ∀ x r, asking.At w' c x → RequestAt w' x r → ∃ y, asking.At w c y ∧ RequestAt w y r) :
    Errand w' c where
  idle := by
    rw [htrace, hissued]
    exact h.idle
  carried x r hx hr := by
    obtain ⟨y, hy, hyr⟩ := hcarried x r hx hr
    rw [htrace, hissued]
    exact h.carried y r hy hyr

private theorem open_of_inflight {k : Nat} {r : Request} (h : w.shared.inflight[k]? = some (some r)) :
    asking.Open w k := by
  simp [Asking.Open, asking, h]

theorem exists_of_open {k : Nat} (h : asking.Open w k) : ∃ r, w.shared.inflight[k]? = some (some r) := by
  simp only [Asking.Open, asking, List.getElem?_map, Option.map_eq_some_iff] at h
  obtain ⟨q, hq, hsome⟩ := h
  obtain ⟨r, rfl⟩ := Option.isSome_iff_exists.1 hsome
  exact ⟨r, hq⟩

/-- Wherever an errand is that has been issued, there is a request. -/
theorem exists_requestAt (hw : Reachable parse db ok w) {c : Nat} {x : Place} (hx : asking.At w c x) :
    x = .idle ∨ ∃ r, RequestAt w x r := by
  cases x with
  | idle => exact .inl rfl
  | flight k => exact .inr (exists_of_open hx.1)
  | handling i =>
    obtain ⟨e, p, k, hi, he, -⟩ := (booked hw).answer_of_owner hx.2.1 hx.2.2
    cases e with
    | completion k' r cc => exact .inr ⟨r, k', cc, p, hi⟩
    | _ => cases he

private theorem errand_started (hw : Reachable parse db ok w) {e : AccountEvent} {s : Accounts} {p : Program Unit}
    (ha : (accounts parse db).arrive e w.shared = some (s, p)) (hw' : Reachable parse db ok (w.started e s p))
    (hI : ∀ c, asking.Starts w c → Errand w c) {c : Nat} (hc : asking.Starts (w.started e s p) c) :
    Errand (w.started e s p) c := by
  have hbooked := booked hw
  rcases Asking.starts_of_started hc with hold | ⟨rfl, he⟩
  · refine errand_of_carried (hI c hold) (by rw [World.trace_started]) Asking.issuedFor_started fun x r hx hr => ?_
    cases x with
    | idle => exact hr.elim
    | flight k =>
      have hk : w.shared.inflight[k]? = some (some r) := by
        simp only [RequestAt, World.started_shared] at hr
        rcases arrive_cases ha with ⟨event, -, rfl⟩ | ⟨k', r', cc, -, -, rfl⟩ | ⟨d, n, -, rfl, -⟩
        · exact hr
        · simp only [List.getElem?_set] at hr
          split at hr
          · split at hr <;> cases hr
          · exact hr
        · exact hr
      exact ⟨.flight k, ⟨open_of_inflight hk, Asking.client_started ▸ hx.2⟩, hk⟩
    | handling i =>
      obtain ⟨k, cc, q, hi⟩ := hr
      obtain ⟨h1, h2, h3⟩ := hx
      rw [World.trace_started] at h1
      rw [hbooked.owner_started] at h2
      rcases World.started_threads.1 hi with hi | ⟨rfl, rfl, rfl⟩
      · rw [if_neg (Nat.ne_of_lt (List.getElem?_eq_some_iff.1 hi).1)] at h2
        exact ⟨.handling i, ⟨h1, h2, h3⟩, k, cc, q, hi⟩
      · -- the completion of a request that was in flight for the command
        simp only [accounts, Accounts.arrive] at ha
        split at ha
        · rename_i hk
          obtain ⟨c', hc'⟩ := hbooked.exists_client (open_of_inflight hk)
          have hans : asking.answers (.completion k r cc) = some k := rfl
          rw [if_pos rfl, hans, Option.bind_some, hc', Option.getD_some] at h2
          have hcc : c' = c := Option.some.inj h2
          exact ⟨.flight k, ⟨open_of_inflight hk, hcc ▸ hc'⟩, hk⟩
        · cases ha
  · have hidle : asking.At (w.started e s p) w.threads.length .idle := by
      simp only [Asking.At, World.trace_started]
      rw [hw.trace_eq_nil (Nat.le_refl _)]
      rfl
    refine ⟨fun _ => ?_, fun x r hx hr => ?_⟩
    · rw [Asking.issuedFor_started]
      exact hbooked.issuedFor_eq_zero (Nat.le_refl _)
    · obtain rfl := (unique_place hw' hc).unique hx hidle
      exact hr.elim

/-- What is known about the request that a thread issues. -/
private theorem issued_request (hw : Reachable parse db ok w) (hI : ∀ c, asking.Starts w c → Errand w c) {i c : Nat}
    {e : AccountEvent} {q : Request} {k : Unit → Program Unit} (hi : w.threads[i]? = some (e, .call (.request q) k))
    (hc : asking.owner w i = some c) :
    (i = c ∧ requested (w.trace c) = [] ∧ q.retryCount = 0 ∧ asking.issuedFor w c = 0) ∨
      (i ≠ c ∧ ∃ q₀, requested (w.trace c) = [q₀] ∧ q = q₀.withCount q.retryCount ∧
        (q.advances → q.retryCount ≤ 3 ∧ asking.issuedFor w c = q.retryCount)) := by
  have hbooked := booked hw
  have hstart := hbooked.owned i c hc
  have hturn := next_turn hw hi
  have hfresh := requested_of_issuing hw hi
  cases e with
  | slashcommand event =>
    rw [hbooked.own i ⟨_, _, hi, rfl⟩] at hc
    cases hc
    exact .inl ⟨rfl, hfresh, hturn.2.1, (hI i hstart).idle hfresh⟩
  | completion k' r cc =>
    have hne := hbooked.ne_of_answer hi rfl hc
    obtain ⟨-, -, hlt, rfl⟩ := hturn
    obtain ⟨⟨q₀, hq₀, hr⟩, hcount⟩ :=
      (hI c hstart).carried (.handling i) r ⟨hasIssued_eq_false.2 hfresh, hc, hne⟩ ⟨k', cc, _, hi⟩
    refine .inr ⟨hne, q₀, hq₀, ?_, fun hadv => ?_⟩
    · unfold Request.again
      rw [hr]
      simp
    · have hadv' : r.advances := by simpa [Request.again] using hadv
      have hsucc : r.again.retryCount = r.retryCount + 1 := by simp [Request.again, hadv']
      exact ⟨by omega, by rw [(hcount hadv').2, hsucc]⟩
  | usernameChange d n => exact hturn.elim

/-- What the operation of a thread does to the requests in flight. -/
private theorem errand_after (hw : Reachable parse db ok w) {i : Nat} {x : Choice} {e : AccountEvent} {o : Op}
    {k : o.Res → Program Unit} {r : o.Res} {s : Accounts} (hi : w.threads[i]? = some (e, .call o k))
    (hx : Accounts.exec o x w.shared = some (r, s)) (hw' : Reachable parse db ok (w.after i e o r s (k r)))
    (hI : ∀ c, asking.Starts w c → Errand w c) {c : Nat} (hc : asking.Starts (w.after i e o r s (k r)) c) :
    Errand (w.after i e o r s (k r)) c := by
  have hbooked := booked hw
  have hstart := Asking.starts_of_after hi hc
  obtain ⟨c₀, hc₀⟩ := hbooked.exists_owner (List.getElem?_eq_some_iff.1 hi).1
  have hthread : ∀ j r', RequestAt (w.after i e o r s (k r)) (.handling j) r' → RequestAt w (.handling j) r' := by
    rintro j r' ⟨m, cc, q, hj⟩
    rcases (World.after_threads hi).1 hj with ⟨-, hj⟩ | ⟨rfl, rfl, -⟩
    · exact ⟨m, cc, q, hj⟩
    · exact ⟨m, cc, _, hi⟩
  rcases exec_inflight hx with hsame | ⟨q, rfl, hnew⟩
  · -- no request is issued
    have ho : asking.issues o = false := by
      cases o with
      | request q =>
        have hlen : s.inflight = w.shared.inflight ++ [some q] :=
          congrArg (fun y => Accounts.inflight y.2) (Option.some.inj hx).symm
        rw [hsame] at hlen
        simp at hlen
      | _ => rfl
    have hreq : ∀ j, requested ((w.after i e o r s (k r)).trace j) = requested (w.trace j) := by
      intro j
      by_cases hij : i = j
      · subst hij
        rw [World.trace_after_self, requested_concat]
        rintro q rfl
        cases ho
      · rw [World.trace_after_of_ne hij]
    refine errand_of_carried (hI c hstart) (hreq c) (Asking.issuedFor_after_of_not ho) fun y r' hy hr => ⟨y, ?_, ?_⟩
    · cases y with
      | idle => exact hasIssued_eq_false.2 (hreq c ▸ hasIssued_eq_false.1 hy)
      | flight j =>
        simp only [RequestAt, World.after_shared, hsame] at hr
        exact ⟨open_of_inflight hr, Asking.client_after_of_not ho ▸ hy.2⟩
      | handling j =>
        obtain ⟨h1, h2, h3⟩ := hy
        rw [Asking.owner_after] at h2
        exact ⟨hasIssued_eq_false.2 (hreq j ▸ hasIssued_eq_false.1 h1), h2, h3⟩
    · cases y with
      | idle => exact hr
      | flight j =>
        simp only [RequestAt, World.after_shared, hsame] at hr
        exact hr
      | handling j => exact hthread j r' hr
  · have hclient : ∀ j, asking.client (w.after i e (.request q) r s (k r)) j =
        if j = (asking.isOpen w.shared).length then some c₀ else asking.client w j := fun j =>
      hbooked.client_after hc₀ rfl
    have hlast : w.shared.inflight.length = (asking.isOpen w.shared).length := (List.length_map _).symm
    by_cases hcc : c = c₀
    · subst hcc
      have hplace : asking.At (w.after i e (.request q) r s (k r)) c (.flight (asking.isOpen w.shared).length) := by
        refine ⟨open_of_inflight (r := q) ?_, by rw [hclient, if_pos rfl]⟩
        rw [World.after_shared, hnew, ← hlast, List.getElem?_concat_length]
      have hissued : asking.issuedFor (w.after i e (.request q) r s (k r)) c = asking.issuedFor w c + 1 := by
        rw [Asking.issuedFor_after hc₀ rfl, if_pos rfl]
      have htrace : i = c → requested ((w.after i e (.request q) r s (k r)).trace c) =
          requested (w.trace c) ++ [q] := by
        rintro rfl
        rw [World.trace_after_self, requested, List.filterMap_append]
        rfl
      refine ⟨fun hidle => ?_, fun y r' hy hr => ?_⟩
      · have hnone : asking.At (w.after i e (.request q) r s (k r)) c .idle := hasIssued_eq_false.2 hidle
        cases (unique_place hw' hc).unique hnone hplace
      · obtain rfl := (unique_place hw' hc).unique hy hplace
        have hr' : r' = q := by
          simp only [RequestAt, World.after_shared, hnew, ← hlast, List.getElem?_concat_length,
            Option.some.injEq] at hr
          exact hr.symm
        subst hr'
        rw [hissued]
        rcases issued_request hw hI hi hc₀ with ⟨hic, hnone, hzero, hcount⟩ | ⟨hic, q₀, hq₀, hq, hcount⟩
        · refine ⟨⟨r', by rw [htrace hic, hnone]; rfl, by simp⟩, fun _ => ⟨by omega, by omega⟩⟩
        · refine ⟨⟨q₀, by rw [World.trace_after_of_ne hic, hq₀], hq⟩, fun hadv => ?_⟩
          obtain ⟨h3, h4⟩ := hcount hadv
          exact ⟨h3, by rw [h4]⟩
    · have hic : i ≠ c := by
        rintro rfl
        rw [hbooked.own i hstart] at hc₀
        exact hcc (Option.some.inj hc₀)
      have hissued : asking.issuedFor (w.after i e (.request q) r s (k r)) c = asking.issuedFor w c := by
        rw [Asking.issuedFor_after hc₀ rfl, if_neg hcc, Nat.add_zero]
      refine errand_of_carried (hI c hstart) (by rw [World.trace_after_of_ne hic]) hissued fun y r' hy hr => ⟨y, ?_⟩
      cases y with
      | idle => exact hr.elim
      | flight j =>
        obtain ⟨-, hj⟩ := hy
        rw [hclient] at hj
        split at hj
        · exact absurd (Option.some.inj hj).symm hcc
        · rename_i hne
          simp only [RequestAt, World.after_shared, hnew, List.getElem?_append] at hr
          split at hr
          · exact ⟨⟨open_of_inflight hr, hj⟩, hr⟩
          · rw [List.getElem?_singleton] at hr
            split at hr
            · omega
            · cases hr
      | handling j =>
        obtain ⟨h1, h2, h3⟩ := hy
        rw [Asking.owner_after] at h2
        have hij : i ≠ j := by
          rintro rfl
          rw [hc₀] at h2
          exact hcc (Option.some.inj h2).symm
        rw [World.trace_after_of_ne hij] at h1
        exact ⟨⟨h1, h2, h3⟩, hthread j r' hr⟩

theorem errand_of_reachable (hw : Reachable parse db ok w) {c : Nat} (hc : asking.Starts w c) : Errand w c := by
  refine (hw.invariant (I := fun w => Reachable parse db ok w ∧ ∀ c, asking.Starts w c → Errand w c) ?_ ?_ ?_).2 c hc
  · exact ⟨.refl, fun c hc => absurd hc.lt (Nat.not_lt_zero c)⟩
  · intro w e s p hreach hI hok ha
    have hnext : Reachable parse db ok (w.started e s p) := hreach.step hok (by simp [System.step, ha])
    exact ⟨hnext, fun c hc => errand_started hreach ha hnext hI.2 hc⟩
  · intro w i x e o k r s hreach hI hok hi hx
    have hnext : Reachable parse db ok (w.after i e o r s (k r)) := hreach.step hok (by simp [System.step, hi, hx])
    exact ⟨hnext, fun c hc => errand_after hreach hi hx hnext hI.2 hc⟩

/-- In every run, the errand of a command is at one place.  The request there is the one that the command issued, with
another count, and unless that request is for the activity, at most four are made for the command. -/
theorem one_errand (hw : Reachable parse db ok w) {c : Nat} {event : SlashCommand}
    (hc : .arrived c (.slashcommand event) ∈ w.history) :
    (∃! x, asking.At w c x) ∧
      (∀ x r, asking.At w c x → RequestAt w x r → ∃ q, requested (w.trace c) = [q] ∧ r = q.withCount r.retryCount) ∧
      ((∀ q ∈ requested (w.trace c), q.advances) → asking.issuedFor w c ≤ 4) := by
  have hstart := starts_of_command hw hc
  have herrand := errand_of_reachable hw hstart
  have hunique := unique_place hw hstart
  refine ⟨hunique, fun x r hx hr => (herrand.carried x r hx hr).1, fun hadv => ?_⟩
  obtain ⟨x, hx, -⟩ := hunique
  rcases exists_requestAt hw hx with rfl | ⟨r, hr⟩
  · rw [herrand.idle (hasIssued_eq_false.1 hx)]
    exact Nat.zero_le 4
  · obtain ⟨⟨q, hq, hrq⟩, hcount⟩ := herrand.carried x r hx hr
    have hr' : r.advances := by
      rw [hrq, Request.advances_withCount]
      exact hadv q (hq ▸ List.mem_singleton_self q)
    obtain ⟨h1, h2⟩ := hcount hr'
    omega

/-- A run in which a registration has issued its request, and the first completion is rate-limited. -/
def registerLimited : List (Label Choice AccountEvent) :=
  [.event (.usernameChange 1 "ann"), .event (registerCommand 1 "a")] ++ proceed 1 5 ++
    [.event (.completion 0 (.description "a" 0 0) ⟨429, ""⟩)] ++ proceed 2 1

theorem one_errand_registering :
    ∃ w, Reachable sampleParse ⟨true⟩ (fun _ _ => True) w ∧ w.shared.inflight = [none, some (.description "a" 0 1)] ∧
      (∃! x, asking.At w 1 x) ∧
      (∀ x r, asking.At w 1 x → RequestAt w x r → ∃ q, requested (w.trace 1) = [q] ∧ r = q.withCount r.retryCount) ∧
      asking.issuedFor w 1 ≤ 4 := by
  have hrun : ((accounts sampleParse ⟨true⟩).run (fun _ _ => True) AccountWorld.initial registerLimited).any
      (fun w => w.threads[1]?.map Prod.fst = some (registerCommand 1 "a") ∧
        w.shared.inflight = [none, some (.description "a" 0 1)] ∧ ∀ q ∈ requested (w.trace 1), q.advances) =
        true := by decide +kernel
  obtain ⟨w, hw, htest⟩ := System.Reach.exists_of_run hrun
  obtain ⟨hthread, hflight, hadv⟩ := of_decide_eq_true htest
  have harrived : .arrived 1 (registerCommand 1 "a") ∈ w.history := hw.arrived_of_thread hthread
  obtain ⟨hplace, hsame, hfour⟩ := one_errand hw harrived
  exact ⟨w, hw, hflight, hplace, hsame, hfour hadv⟩

end LeetBot
