import LeetBot.AccountTable

/-!
# The connection of `LeetoDB`

`connect`, `disconnect` and the destructor, with the connections that the driver has allocated.  `connect` assigns the
new connection before it sets the schema and does not look at the old one.  In every sequence of calls no connection
is deleted twice, and every method that gets past `if (!connected)` uses a connection that is open and has its schema.
-/

namespace LeetBot

open Interleave

/-- An allocated `sql::Connection`. -/
inductive ConnectionState where
  | opened (schema : Bool)
  | deleted
deriving DecidableEq

def ConnectionState.isOpened : ConnectionState → Bool
  | opened _ => true
  | deleted => false

/-- `con` and `connected`, with all connections allocated so far; `con` points to one of them. -/
structure DbObject where
  con : Option Nat
  connected : Bool
  connections : List ConnectionState
deriving DecidableEq

/-- How a call of `connect` goes. -/
inductive ConnectOutcome where
  | ok
  | connectThrows
  | setSchemaThrows
deriving DecidableEq

/-- A call that the bot can make. -/
inductive DbEvent where
  | connect (outcome : ConnectOutcome)
  | disconnect
  | method (c : DbCall)

namespace DbObject

/-- The constructor. -/
def initial : DbObject := ⟨none, false, []⟩

def connect (s : DbObject) : ConnectOutcome → DbObject
  | .connectThrows => { s with connected := false }
  | .setSchemaThrows => ⟨some s.connections.length, false, s.connections ++ [.opened false]⟩
  | .ok => ⟨some s.connections.length, true, s.connections ++ [.opened true]⟩

/-- `disconnect`, which is also what the destructor does; `none` when it deletes what is not an open connection. -/
def disconnect (s : DbObject) : Option DbObject :=
  match s.con with
  | none => some s
  | some p =>
    match s.connections[p]? with
    | some (.opened _) => some ⟨none, false, s.connections.set p .deleted⟩
    | _ => none

/-- A call of a method that prepares a statement; `none` when it does so without an open connection and a schema. -/
def method (s : DbObject) (c : DbCall) : Option DbObject :=
  match c.program ⟨s.connected⟩, s.con with
  | .ret _, _ => some s
  | .call _ _, some p => if s.connections[p]? = some (.opened true) then some s else none
  | .call _ _, none => none

def step (s : DbObject) : DbEvent → Option DbObject
  | .connect outcome => some (s.connect outcome)
  | .disconnect => s.disconnect
  | .method c => s.method c

def run (s : DbObject) (es : List DbEvent) : Option DbObject := es.foldlM step s

/-- The connections that have not been deleted. -/
def opened (s : DbObject) : Nat := s.connections.countP ConnectionState.isOpened

/-- What is pointed to is open, and it has a schema when `connected` says so. -/
structure Valid (s : DbObject) : Prop where
  pointed : ∀ p, s.con = some p → ∃ schema, s.connections[p]? = some (.opened schema)
  schema : s.connected = true → ∃ p, s.con = some p ∧ s.connections[p]? = some (.opened true)

variable {s : DbObject}

private theorem valid_initial : initial.Valid := by
  constructor
  · intro p hp
    cases hp
  · intro h
    cases h

private theorem Valid.connect (h : s.Valid) (outcome : ConnectOutcome) : (s.connect outcome).Valid := by
  cases outcome with
  | connectThrows =>
    constructor
    · exact h.pointed
    · intro hc
      cases hc
  | setSchemaThrows =>
    constructor
    · intro p hp
      cases hp
      exact ⟨false, List.getElem?_concat_length⟩
    · intro hc
      cases hc
  | ok =>
    constructor
    · intro p hp
      cases hp
      exact ⟨true, List.getElem?_concat_length⟩
    · intro _
      exact ⟨_, rfl, List.getElem?_concat_length⟩

/-- `disconnect` deletes what is pointed to, if anything is, and only that. -/
private theorem Valid.disconnect (h : s.Valid) :
    ∃ s', s.disconnect = some s' ∧ s'.Valid ∧ s'.con = none ∧ s'.connected = false ∧
      s.opened = s'.opened + s.con.isSome.toNat := by
  unfold DbObject.disconnect
  cases hcon : s.con with
  | none =>
    have hconnected : s.connected = false := by
      cases hc : s.connected with
      | false => rfl
      | true =>
        obtain ⟨p, hp, -⟩ := h.schema hc
        rw [hcon] at hp
        cases hp
    exact ⟨s, rfl, h, hcon, hconnected, rfl⟩
  | some p =>
    obtain ⟨schema, hp⟩ := h.pointed p hcon
    obtain ⟨hlt, hget⟩ := List.getElem?_eq_some_iff.1 hp
    refine ⟨⟨none, false, s.connections.set p .deleted⟩, by simp only [hp], ?_, rfl, rfl, ?_⟩
    · constructor
      · intro q hq
        cases hq
      · intro hc
        cases hc
    · have hpos : 0 < s.connections.countP ConnectionState.isOpened :=
        List.countP_pos_iff.2 ⟨_, List.mem_of_getElem? hp, rfl⟩
      simp only [opened, List.countP_set hlt, hget, ConnectionState.isOpened]
      show s.connections.countP _ = _ + 1
      simp only [if_true, Bool.false_eq_true, if_false]
      omega

private theorem program_of_not_connected (c : DbCall) : c.program ⟨false⟩ = .ret c.failure := by
  cases c <;> rfl

private theorem Valid.method (h : s.Valid) (c : DbCall) : s.method c = some s := by
  unfold DbObject.method
  cases hc : s.connected with
  | false => rw [program_of_not_connected]
  | true =>
    obtain ⟨p, hcon, hp⟩ := h.schema hc
    rw [hcon]
    cases c.program ⟨true⟩ with
    | ret r => rfl
    | call o k => simp only [hp, if_true]

end DbObject

/-- How often `connect` replaces a connection that has not been deleted; `held` says whether there is one. -/
def replacedBy (held : Bool) : List DbEvent → Nat
  | [] => 0
  | .connect .connectThrows :: es => replacedBy held es
  | .connect _ :: es => held.toNat + replacedBy true es
  | .disconnect :: es => replacedBy false es
  | .method _ :: es => replacedBy held es

/-- A sequence of calls from a valid object, and what it leaves open. -/
private theorem run_of_valid {s : DbObject} (h : s.Valid) (es : List DbEvent) :
    ∃ s', s.run es = some s' ∧ s'.Valid ∧
      s'.opened + s.con.isSome.toNat = s.opened + s'.con.isSome.toNat + replacedBy s.con.isSome es := by
  induction es generalizing s with
  | nil => exact ⟨s, rfl, h, rfl⟩
  | cons e es ih =>
    cases e with
    | connect outcome =>
      obtain ⟨s', hrun, hvalid, hcount⟩ := ih (h.connect outcome)
      refine ⟨s', hrun, hvalid, ?_⟩
      cases outcome with
      | connectThrows => exact hcount
      | setSchemaThrows =>
        simp [DbObject.connect, DbObject.opened, replacedBy, ConnectionState.isOpened] at hcount ⊢
        omega
      | ok =>
        simp [DbObject.connect, DbObject.opened, replacedBy, ConnectionState.isOpened] at hcount ⊢
        omega
    | disconnect =>
      obtain ⟨s₁, hs₁, hvalid₁, hcon₁, -, hcount₁⟩ := h.disconnect
      obtain ⟨s', hrun, hvalid, hcount⟩ := ih hvalid₁
      refine ⟨s', ?_, hvalid, ?_⟩
      · simp only [DbObject.run, List.foldlM_cons, DbObject.step, hs₁]
        exact hrun
      · rw [hcon₁] at hcount
        simp [replacedBy] at hcount ⊢
        omega
    | method c =>
      obtain ⟨s', hrun, hvalid, hcount⟩ := ih h
      refine ⟨s', ?_, hvalid, hcount⟩
      simp only [DbObject.run, List.foldlM_cons, DbObject.step, h.method c]
      exact hrun

/-- Whatever is called and however the calls of `connect` go, nothing is deleted twice or used without an open
connection and a schema; and what the destructor leaves open is what `connect` has replaced. -/
theorem connections_safe (es : List DbEvent) :
    ∃ s s', DbObject.initial.run es = some s ∧ s.Valid ∧ s.disconnect = some s' ∧ s'.con = none ∧
      s'.connected = false ∧ s'.opened = replacedBy false es := by
  obtain ⟨s, hrun, hvalid, hcount⟩ := run_of_valid DbObject.valid_initial es
  obtain ⟨s', hs', -, hcon, hconnected, hopened⟩ := hvalid.disconnect
  refine ⟨s, s', hrun, hvalid, hs', hcon, hconnected, ?_⟩
  have hnone : DbObject.initial.opened = 0 := rfl
  simp only [DbObject.initial] at hcount hnone
  simp at hcount
  omega

end LeetBot
