import AccessLine.Proofs.Exchange.History
import AccessLine.Proofs.Server.Loop
import Mathlib.Data.List.Perm.Basic

/-!
# The books of a server

A ledger records what comes to a server: the connections that it accepts, the requests on each up to
the end of the connection's task, and the steps of their hosts. It looks into no exchange. The books
are complete. For every request there is one exchange, whose request has the peer of its connection
and which has taken the steps of its own host, and the notices of a server are those of these
exchanges.
-/
namespace AccessLine

open Net

/-- A request that was received, and what its host did. -/
structure Entry where
  request : Request
  handler : Handler
  script : Script := []

/-- A connection that was accepted. It is closed when its task has finished. -/
structure Account where
  peer : SocketAddress
  entries : List Entry := []
  closed : Bool := false

/-- The accounts in the order in which the connections were accepted. -/
abbrev Ledger := List Account

namespace Entry

def enter (e : Entry) (now : Timestamp) (step : HostStep) : Entry :=
  { e with script := e.script ++ [(now, step)] }

variable (immediate : Bool) (peer : SocketAddress)

/-- The exchange of the request under its script. Whatever peer the request had, it has that of its
connection now. -/
def exchange (e : Entry) : Exchange :=
  (Exchange.run immediate (.waiting { e.request with peer := some peer } e.handler) e.script).2.1

/-- The notices of this exchange. -/
def notices (e : Entry) : List Notice :=
  (Exchange.run immediate (.waiting { e.request with peer := some peer } e.handler) e.script).2.2

variable (e : Entry) (now : Timestamp) (step : HostStep)

theorem exchange_enter : (e.enter now step).exchange immediate peer =
    ((e.exchange immediate peer).step immediate now step).exchange := by
  simp only [exchange, enter, Exchange.run_append, Exchange.run_cons, Exchange.run_nil]

theorem notices_enter : (e.enter now step).notices immediate peer =
    e.notices immediate peer ++ ((e.exchange immediate peer).step immediate now step).notices := by
  simp only [notices, exchange, enter, Exchange.run_append, Exchange.run_cons, Exchange.run_nil,
    List.append_nil]

end Entry

namespace Account

def receive (a : Account) (request : Request) (handler : Handler) : Account :=
  { a with entries := a.entries ++ [{ request, handler }] }

def host (a : Account) (now : Timestamp) (k : Nat) (step : HostStep) : Account :=
  match a.entries[k]? with
  | none => a
  | some e => { a with entries := a.entries.set k (e.enter now step) }

def close (a : Account) : Account :=
  { a with closed := true }

variable (immediate : Bool) (a : Account)

/-- The connection as the books have it. -/
def connection : Connection where
  peer := a.peer
  exchanges := a.entries.map (·.exchange immediate a.peer)
  task := bif a.closed then .finished else .running

def notices : List Notice :=
  a.entries.flatMap (·.notices immediate a.peer)

end Account

namespace Ledger

def open? (l : Ledger) (i : Nat) : Option Account :=
  (l[i]?).filter (!·.closed)

/-- A closed account takes no more requests. -/
def amend (l : Ledger) (i : Nat) (f : Account → Account) : Ledger :=
  match l.open? i with
  | none => l
  | some a => l.set i (f a)

def notices (immediate : Bool) (l : Ledger) : List Notice :=
  l.flatMap (·.notices immediate)

end Ledger

namespace Server

/-- The peer of the connection that the next turn accepts. -/
def accepted? (s : Server) : Option SocketAddress :=
  match s.phase, s.signalled, s.waiting with
  | .accepting, false, some peer :: _ => some peer
  | _, _, _ => none

/-- The books after a happening. -/
def record (s : Server) (now : Timestamp) (l : Ledger) : Happening → Ledger
  | .turn => l ++ s.accepted?.toList.map fun peer => { peer }
  | .request i request handler => l.amend i (·.receive request handler)
  | .host i k step => l.modify i (·.host now k step)
  | .finish i => l.amend i (·.close)
  | .connect _ | .fault | .signal => l

/-- The books after a run. -/
def ledger (s : Server) (l : Ledger) : List (Timestamp × Happening) → Ledger
  | [] => l
  | (now, h) :: script => (s.step now h).server.ledger (s.record now l h) script

end Server

/-- A connection but for its task having been reaped. -/
def Connection.unreaped (c : Connection) : Connection :=
  { c with task := if c.task = .reaped then .finished else c.task }

/-- The books agree with a server that has given these notices. -/
structure Server.Keeps (s : Server) (l : Ledger) (told : List Notice) : Prop where
  connections : s.connections.map Connection.unreaped = l.map (Account.connection s.log.immediate)
  notices : told.Perm (l.notices s.log.immediate)

/-- What a changed element gives more, the whole gives more. -/
theorem flatMap_set_perm {α β : Type} {g : α → List β} {l : List α} {i : Nat} {a a' : α}
    {bs : List β} (ha : l[i]? = some a) (hg : (g a').Perm (g a ++ bs)) :
    ((l.set i a').flatMap g).Perm (l.flatMap g ++ bs) := by
  induction l generalizing i with
  | nil => cases ha
  | cons x l ih =>
      cases i with
      | zero =>
          obtain rfl : x = a := Option.some.inj ha
          have hswap : (bs ++ l.flatMap g).Perm (l.flatMap g ++ bs) := List.perm_append_comm
          simp only [List.set_cons_zero, List.flatMap_cons, List.append_assoc]
          refine (hg.append_right _).trans ?_
          rw [List.append_assoc]
          exact hswap.append_left _
      | succ i =>
          simp only [List.set_cons_succ, List.flatMap_cons, List.append_assoc]
          exact (ih ha).append_left (g x)

theorem Ledger.amend_of_open {l : Ledger} {i : Nat} {a : Account} (h : l.open? i = some a)
    (f : Account → Account) : l.amend i f = l.set i (f a) := by
  rw [amend, h]

namespace Account

variable (immediate : Bool) (a : Account) (now : Timestamp)

theorem connection_receive (request : Request) (handler : Handler) :
    (a.receive request handler).connection immediate =
      (a.connection immediate).receive request handler := by
  simp [receive, connection, Connection.receive, Entry.exchange]

theorem notices_receive (request : Request) (handler : Handler) :
    (a.receive request handler).notices immediate = a.notices immediate := by
  simp [receive, notices, Entry.notices]

theorem exchanges_connection (k : Nat) : (a.connection immediate).exchanges[k]? =
    (a.entries[k]?).map (·.exchange immediate a.peer) := by
  simp [connection]

theorem connection_host {k : Nat} {e : Entry} (he : a.entries[k]? = some e) (step : HostStep) :
    (a.host now k step).connection immediate =
      { a.connection immediate with
        exchanges := (a.connection immediate).exchanges.set k
          ((e.exchange immediate a.peer).step immediate now step).exchange } := by
  simp [host, he, connection, Entry.exchange_enter]

theorem notices_host {k : Nat} {e : Entry} (he : a.entries[k]? = some e) (step : HostStep) :
    ((a.host now k step).notices immediate).Perm
      (a.notices immediate ++ ((e.exchange immediate a.peer).step immediate now step).notices) := by
  simp only [host, he, notices]
  exact flatMap_set_perm he (.of_eq (e.notices_enter immediate a.peer now step))

theorem connection_close :
    a.close.connection immediate = (a.connection immediate).finish := rfl

/-- The books know nothing of reaping. -/
theorem unreaped_connection : (a.connection immediate).unreaped = a.connection immediate := by
  cases h : a.closed <;> simp [connection, Connection.unreaped, h]

theorem running_connection_iff :
    (a.connection immediate).task = .running ↔ a.closed = false := by
  cases h : a.closed <;> simp [connection, h]

end Account

namespace Connection

theorem running_unreaped_iff {c : Connection} : c.unreaped.task = .running ↔ c.task = .running := by
  cases h : c.task <;> simp [unreaped, h]

theorem unreaped_of_running {c : Connection} (h : c.task = .running) : c.unreaped = c := by
  obtain ⟨peer, exchanges, task⟩ := c
  obtain rfl : task = .running := h
  rfl

end Connection

namespace Server

variable {s : Server} {l : Ledger} {told : List Notice}

theorem Keeps.getElem?_eq (hk : s.Keeps l told) (i : Nat) :
    (s.connections[i]?).map Connection.unreaped =
      (l[i]?).map (Account.connection s.log.immediate) := by
  simpa using congrArg (·[i]?) hk.connections

/-- The connections at work are those with open accounts. -/
theorem Keeps.running?_eq (hk : s.Keeps l told) (i : Nat) :
    s.running? i = (l.open? i).map (Account.connection s.log.immediate) := by
  calc s.running? i
    _ = ((s.connections[i]?).map Connection.unreaped).filter (·.task = .running) := by
      unfold running?
      cases s.connections[i]? with
      | none => rfl
      | some c =>
          by_cases ht : c.task = .running <;>
            simp [Option.filter_some, Connection.running_unreaped_iff,
              Connection.unreaped_of_running, ht]
    _ = ((l[i]?).map (Account.connection s.log.immediate)).filter (·.task = .running) := by
      rw [hk.getElem?_eq]
    _ = (l.open? i).map (Account.connection s.log.immediate) := by
      unfold Ledger.open?
      cases l[i]? with
      | none => rfl
      | some a =>
          cases hc : a.closed <;>
            simp [Option.filter_some, Account.running_connection_iff, hc]

/-- The books stay in agreement when an account changes as its connection does. -/
theorem Keeps.set (hk : s.Keeps l told) {i : Nat} {a a' : Account} (ha : l[i]? = some a)
    {c : Connection} {ns : List Notice} (hc : a'.connection s.log.immediate = c.unreaped)
    (hn : (a'.notices s.log.immediate).Perm (a.notices s.log.immediate ++ ns)) :
    (s.logging i c ns).server.Keeps (l.set i a') (told ++ ns) where
  connections := by simp only [logging, List.map_set, hk.connections, hc]
  notices := (hk.notices.append_right ns).trans (flatMap_set_perm ha hn).symm

/-- An open account is amended without a notice. -/
theorem Keeps.amend (hk : s.Keeps l told) {i : Nat} {a : Account} (ho : l.open? i = some a)
    {f : Account → Account} {c : Connection} (hc : (f a).connection s.log.immediate = c)
    (hn : (f a).notices s.log.immediate = a.notices s.log.immediate) :
    (s.logging i c []).server.Keeps (l.amend i f) (told ++ []) := by
  rw [Ledger.amend_of_open ho]
  refine hk.set (Option.filter_eq_some_iff.mp ho).1 ?_ (.of_eq (by rw [hn, List.append_nil]))
  rw [← hc, Account.unreaped_connection]

theorem map_unreaped_reap (s : Server) :
    s.reap.connections.map Connection.unreaped = s.connections.map Connection.unreaped := by
  refine Connection.map_reapFirst (fun c ht => ?_) s.connections
  simp [Connection.unreaped, ht]

/-- A turn accepts the connection that is ready, if the loop still accepts. -/
theorem Turn.map_unreaped {s' : Server} (ht : s.Turn s') :
    s'.connections.map Connection.unreaped = s.connections.map Connection.unreaped ++
      s.accepted?.toList.map fun peer => ({ peer := peer } : Connection) := by
  cases ht with
  | accepts accepting unsignalled ready =>
      simp [accepted?, accepting, unsignalled, ready, accept, Connection.unreaped]
  | passes accepting unsignalled ready => simp [accepted?, accepting, unsignalled, ready]
  | reaps accepting unsignalled ready =>
      simp [accepted?, accepting, unsignalled, ready, map_unreaped_reap]
  | awaits draining => simp [accepted?, draining, map_unreaped_reap]
  | drains accepting signalled => simp [accepted?, accepting, signalled]
  | stops draining => simp [accepted?, draining]
  | rests stopped => simp [accepted?, stopped]

theorem Keeps.turn (hk : s.Keeps l told) (now : Timestamp) :
    s.turn.Keeps (s.record now l .turn) told := by
  have hlog : s.turn.log = s.log := (s.step_spec now .turn).effects_eq.1
  constructor
  case connections =>
    rw [hlog, s.turn_spec.map_unreaped, hk.connections]
    simp [record, Account.connection, Function.comp_def]
  case notices =>
    have hnone : (s.accepted?.toList.map fun peer => ({ peer } : Account)).flatMap
        (Account.notices s.log.immediate) = [] := by
      simp [Account.notices]
    rw [hlog]
    simpa [record, Ledger.notices, hnone] using hk.notices

theorem Keeps.step (hk : s.Keeps l told) (now : Timestamp) (h : Happening) :
    (s.step now h).server.Keeps (s.record now l h) (told ++ (s.step now h).notices) := by
  have hsame : s.Keeps l (told ++ []) := (List.append_nil told).symm ▸ hk
  -- where the task of the connection is not at work, its account is closed or was never opened
  have hidle (f : Account → Account) {i : Nat} (ho : l.open? i = none) :
      s.Keeps (l.amend i f) (told ++ []) := by
    simpa [Ledger.amend, ho] using hk
  cases h with
  | connect | fault | signal => exact ⟨hsame.connections, hsame.notices⟩
  | turn => exact (List.append_nil told).symm ▸ hk.turn now
  | request i request handler =>
      rw [Server.step, record, hk.running?_eq]
      cases ho : l.open? i with
      | none => exact hidle _ ho
      | some a =>
          exact hk.amend ho (a.connection_receive _ request handler)
            (a.notices_receive _ request handler)
  | finish i =>
      rw [Server.step, record, hk.running?_eq]
      cases ho : l.open? i with
      | none => exact hidle _ ho
      | some a => exact hk.amend ho (a.connection_close _) rfl
  | host i k step =>
      rw [Server.step, record, List.modify_eq_set_getElem?]
      have hi := hk.getElem?_eq i
      cases ha : l[i]? with
      | none =>
          rw [ha, Option.map_none, Option.map_eq_none_iff] at hi
          rw [hi]
          exact hsame
      | some a =>
          rw [ha, Option.map_some, Option.map_eq_some_iff] at hi
          obtain ⟨c, hc, hca⟩ := hi
          have hk' : c.exchanges[k]? = (a.entries[k]?).map (·.exchange s.log.immediate a.peer) := by
            rw [← a.exchanges_connection, ← hca]
            rfl
          simp only [hc, stepHost, hk', Option.map_eq_map, Option.map_some, Option.getD_some]
          cases he : a.entries[k]? with
          | none =>
              obtain ⟨_, rfl⟩ := List.getElem?_eq_some_iff.mp ha
              simpa [Account.host, he] using hk
          | some e =>
              refine hk.set ha ?_ (a.notices_host _ now he step)
              rw [a.connection_host _ now he step, ← hca]
              rfl

theorem Keeps.run (hk : s.Keeps l told) (script : List (Timestamp × Happening)) :
    (s.run script).2.Keeps (s.ledger l script)
      (told ++ (s.run script).1.flatMap (·.notices)) := by
  induction script generalizing s l told with
  | nil => simpa [Server.run, ledger] using hk
  | cons x script ih =>
      obtain ⟨now, h⟩ := x
      rw [run_cons, List.flatMap_cons, ← List.append_assoc]
      exact ih (hk.step now h)

/-- When the server has stopped all accounts are closed, and their exchanges are gone if no task left
one behind. -/
theorem Keeps.of_stopped (hk : s.Keeps l told) (hs : s.Sound) (hp : s.phase = .stopped)
    {a : Account} (ha : a ∈ l) : a.closed = true ∧
      (s.Settled → ∀ e ∈ a.entries, e.exchange s.log.immediate a.peer = .gone) := by
  have hmem : a.connection s.log.immediate ∈ s.connections.map Connection.unreaped :=
    hk.connections ▸ List.mem_map_of_mem ha
  obtain ⟨c, hc, hca⟩ := List.mem_map.mp hmem
  have hreaped := inFlight_eq_zero_iff.mp (hs.empty hp) c hc
  constructor
  · have hstopped : ¬(a.connection s.log.immediate).task = .running := by
      rw [← hca, Connection.running_unreaped_iff, hreaped]
      exact TaskStatus.noConfusion
    rwa [Account.running_connection_iff, Bool.not_eq_false] at hstopped
  · intro hsettled e he
    have hexchanges : c.exchanges = a.entries.map (·.exchange s.log.immediate a.peer) :=
      congrArg Connection.exchanges hca
    refine hsettled c hc (by simp [hreaped]) _ ?_
    exact hexchanges ▸ List.mem_map_of_mem he

end Server

end AccessLine
