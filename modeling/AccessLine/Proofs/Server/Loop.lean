import AccessLine.Proofs.Registry.Lines
import AccessLine.Server.Basic

/-!
# The accept loop

What one turn of the loop can do, and what one happening can do to a server. From this: after the
signal nothing is accepted any more, and the loop ends when every task has been reaped. Nothing is
seen of a server that has stopped if no task left an exchange behind.
-/
namespace AccessLine

open Net

/-- The peer that a happening brings to the listener. -/
def Happening.peer? : Happening → Option SocketAddress
  | .connect peer => some peer
  | _ => none

/-- What a happening makes of a connection, and the notices that it gives. -/
inductive Connection.Work (immediate : Bool) (now : Timestamp) (c : Connection) :
    Connection → List Notice → Prop
  | receive (running : c.task = .running) (request : Request) (handler : Handler) :
      c.Work immediate now (c.receive request handler) []
  | host {k : Nat} {e : Exchange} (step : HostStep) (found : c.exchanges[k]? = some e) :
      c.Work immediate now
        { c with exchanges := c.exchanges.set k (e.step immediate now step).exchange }
        (e.step immediate now step).notices
  | finish (running : c.task = .running) : c.Work immediate now c.finish []

namespace Server

/-- One turn of the loop. -/
inductive Turn (s : Server) : Server → Prop
  | accepts {peer : SocketAddress} {rest : List (Option SocketAddress)}
      (accepting : s.phase = .accepting) (unsignalled : s.signalled = false)
      (ready : s.waiting = some peer :: rest) : s.Turn ({ s with waiting := rest }.accept peer)
  | passes {rest : List (Option SocketAddress)} (accepting : s.phase = .accepting)
      (unsignalled : s.signalled = false) (ready : s.waiting = none :: rest) :
      s.Turn { s with waiting := rest }
  | reaps (accepting : s.phase = .accepting) (unsignalled : s.signalled = false)
      (ready : s.waiting = []) : s.Turn s.reap
  | drains (accepting : s.phase = .accepting) (signalled : s.signalled = true) :
      s.Turn { s with phase := .draining }
  | awaits (draining : s.phase = .draining) (left : s.inFlight ≠ 0) : s.Turn s.reap
  | stops (draining : s.phase = .draining) (empty : s.inFlight = 0) :
      s.Turn { s with phase := .stopped }
  | rests (stopped : s.phase = .stopped) : s.Turn s

theorem turn_spec (s : Server) : s.Turn s.turn := by
  obtain ⟨log, registry, phase, signalled, waiting, connections⟩ := s
  cases phase with
  | accepting =>
      cases signalled with
      | true => exact .drains rfl rfl
      | false =>
          cases waiting with
          | nil => exact .reaps rfl rfl rfl
          | cons next rest =>
              cases next with
              | some peer => exact .accepts rfl rfl rfl
              | none => exact .passes rfl rfl rfl
  | draining =>
      rw [turn]
      dsimp only
      split
      · rename_i he
        exact .stops rfl he
      · rename_i he
        exact .awaits rfl he
  | stopped => exact .rests rfl

@[simp] theorem notices_logging (s : Server) (i : Nat) (c : Connection) (ns : List Notice) :
    (s.logging i c ns).notices = ns := rfl

/-- One happening, with its notices and their effects. -/
inductive Moves (s : Server) (now : Timestamp) :
    Happening → Server → List Notice → List Effect → Prop
  | connect (peer : SocketAddress) :
      s.Moves now (.connect peer) { s with waiting := s.waiting ++ [some peer] } [] []
  | fault : s.Moves now .fault { s with waiting := s.waiting ++ [none] } [] []
  | signal : s.Moves now .signal { s with signalled := true } [] []
  | turn {s' : Server} (turn : s.Turn s') : s.Moves now .turn s' [] []
  | work {h : Happening} {i : Nat} {c c' : Connection} {ns : List Notice} (inside : h.peer? = none)
      (found : s.connections[i]? = some c) (work : c.Work s.log.immediate now c' ns) :
      s.Moves now h (s.logging i c' ns).server ns (s.logging i c' ns).effects
  | idle {h : Happening} (inside : h.peer? = none) : s.Moves now h s [] []

theorem running?_eq_some_iff {s : Server} {i : Nat} {c : Connection} :
    s.running? i = some c ↔ s.connections[i]? = some c ∧ c.task = .running := by
  simp [running?, Option.filter_eq_some_iff]

theorem step_spec (s : Server) (now : Timestamp) (h : Happening) :
    s.Moves now h (s.step now h).server (s.step now h).notices (s.step now h).effects := by
  cases h with
  | connect peer => exact .connect peer
  | fault => exact .fault
  | signal => exact .signal
  | turn => exact .turn s.turn_spec
  | request i request handler =>
      cases hr : s.running? i with
      | none => simpa [step, hr] using Moves.idle rfl
      | some c =>
          obtain ⟨hc, ht⟩ := running?_eq_some_iff.mp hr
          simpa [step, hr] using Moves.work rfl hc (.receive ht request handler)
  | host i k step =>
      cases hc : s.connections[i]? with
      | none => simpa [Server.step, hc] using Moves.idle rfl
      | some c =>
          cases he : c.exchanges[k]? with
          | none => simpa [Server.step, stepHost, hc, he] using Moves.idle rfl
          | some e => simpa [Server.step, stepHost, hc, he] using Moves.work rfl hc (.host step he)
  | finish i =>
      cases hr : s.running? i with
      | none => simpa [step, hr] using Moves.idle rfl
      | some c =>
          obtain ⟨hc, ht⟩ := running?_eq_some_iff.mp hr
          simpa [step, hr] using Moves.work rfl hc (.finish ht)

/-! ### Connections -/

theorem inFlight_eq_zero_iff {s : Server} :
    s.inFlight = 0 ↔ ∀ c ∈ s.connections, c.task = .reaped := by
  simp [inFlight, List.countP_eq_zero]

/-- The peers of the connections that were accepted. -/
def peers (s : Server) : List SocketAddress :=
  s.connections.map (·.peer)

end Server

namespace Connection

theorem Work.peer_eq {immediate : Bool} {now : Timestamp} {c c' : Connection} {ns : List Notice}
    (h : c.Work immediate now c' ns) : c'.peer = c.peer := by
  cases h <;> rfl

/-- Reaping a task changes nothing but what the loop knows of it. -/
theorem map_reapFirst {α : Type} {f : Connection → α}
    (hf : ∀ c : Connection, c.task = .finished → f { c with task := .reaped } = f c)
    (cs : List Connection) : (reapFirst cs).map f = cs.map f := by
  induction cs with
  | nil => rfl
  | cons c cs ih =>
      rw [reapFirst]
      split
      · rename_i ht
        rw [List.map_cons, List.map_cons, hf c ht]
      · rw [List.map_cons, List.map_cons, ih]

theorem forall_mem_reapFirst {P : Connection → Prop}
    (hP : ∀ c : Connection, c.task = .finished → P c → P { c with task := .reaped })
    {cs : List Connection} (h : ∀ c ∈ cs, P c) : ∀ c ∈ reapFirst cs, P c := by
  induction cs with
  | nil => exact h
  | cons c cs ih =>
      obtain ⟨hc, hcs⟩ := List.forall_mem_cons.mp h
      rw [reapFirst]
      split
      · rename_i ht
        exact List.forall_mem_cons.mpr ⟨hP c ht hc, hcs⟩
      · exact List.forall_mem_cons.mpr ⟨hc, ih hcs⟩

/-- Only the end of the task itself changes how far it has come. -/
theorem Work.task_eq {immediate : Bool} {now : Timestamp} {c c' : Connection} {ns : List Notice}
    (h : c.Work immediate now c' ns) (hc : c.task ≠ .running) : c'.task = c.task := by
  cases h with
  | host => rfl
  | receive running | finish running => exact absurd running hc

/-- Every exchange on the connection is over. -/
def Over (c : Connection) : Prop :=
  ∀ e ∈ c.exchanges, e = .gone

/-- A host gets nothing out of exchanges that are over. -/
theorem Over.host {c : Connection} (hc : c.Over) {k : Nat} {e : Exchange}
    (he : c.exchanges[k]? = some e) (immediate : Bool) (now : Timestamp) (step : HostStep) :
    { c with exchanges := c.exchanges.set k (e.step immediate now step).exchange }.Over ∧
      (e.step immediate now step).notices = [] := by
  obtain rfl := hc e (List.mem_of_getElem? he)
  have hgone : (Exchange.gone.step immediate now step).exchange = .gone := by cases step <;> rfl
  refine ⟨fun e' hmem => ?_, by cases step <;> rfl⟩
  obtain hmem | rfl := List.mem_or_eq_of_mem_set hmem
  · exact hc e' hmem
  · exact hgone

end Connection

namespace Server

theorem peers_reap (s : Server) : s.reap.peers = s.peers :=
  Connection.map_reapFirst (fun _ _ => rfl) s.connections

theorem peers_logging {s : Server} {now : Timestamp} {i : Nat} {c c' : Connection}
    {ns : List Notice} (hc : s.connections[i]? = some c) (hw : c.Work s.log.immediate now c' ns) :
    (s.logging i c' ns).server.peers = s.peers := by
  have hp : s.peers[i]? = some c'.peer := by simp [peers, hc, hw.peer_eq]
  obtain ⟨hi, hpeer⟩ := List.getElem?_eq_some_iff.mp hp
  have hset : (s.logging i c' ns).server.peers = s.peers.set i c'.peer := List.map_set
  rw [hset, ← hpeer, List.set_getElem_self]

/-! ### What lasts -/

/-- What is true of every server that was started. -/
structure Sound (s : Server) : Prop where
  signalled : s.phase ≠ .accepting → s.signalled = true
  empty : s.phase = .stopped → s.inFlight = 0

variable {s s' : Server} {now : Timestamp} {h : Happening} {ns : List Notice} {es : List Effect}

theorem Sound.turn (hs : s.Sound) (ht : s.Turn s') : s'.Sound := by
  cases ht with
  | accepts accepting | reaps accepting =>
      exact ⟨hs.signalled, fun hp => absurd (accepting.symm.trans hp) (by decide)⟩
  | awaits draining =>
      exact ⟨hs.signalled, fun hp => absurd (draining.symm.trans hp) (by decide)⟩
  | passes => exact ⟨hs.signalled, hs.empty⟩
  | drains _ signalled => exact ⟨fun _ => signalled, Phase.noConfusion⟩
  | stops draining empty => exact ⟨fun _ => hs.signalled (by simp [draining]), fun _ => empty⟩
  | rests => exact hs

theorem Sound.move (hs : s.Sound) (hm : s.Moves now h s' ns es) : s'.Sound := by
  cases hm with
  | connect | fault => exact ⟨hs.signalled, hs.empty⟩
  | signal => exact ⟨fun _ => rfl, hs.empty⟩
  | turn turn => exact hs.turn turn
  | idle => exact hs
  | work _ found work =>
      refine ⟨hs.signalled, fun hp => inFlight_eq_zero_iff.mpr fun c hc => ?_⟩
      have hall := inFlight_eq_zero_iff.mp (hs.empty hp)
      obtain hc | rfl := List.mem_or_eq_of_mem_set hc
      · exact hall c hc
      · have hreaped := hall _ (List.mem_of_getElem? found)
        rw [work.task_eq (by simp [hreaped]), hreaped]

/-- Nothing is accepted once the signal has been given. -/
theorem Moves.of_signalled (hs : s.signalled = true) (hm : s.Moves now h s' ns es) :
    s'.signalled = true ∧ s'.peers = s.peers := by
  cases hm with
  | connect | fault => exact ⟨hs, rfl⟩
  | signal => exact ⟨rfl, rfl⟩
  | idle => exact ⟨hs, rfl⟩
  | work _ found work => exact ⟨hs, peers_logging found work⟩
  | turn turn =>
      cases turn with
      | accepts _ unsignalled | passes _ unsignalled | reaps _ unsignalled =>
          exact absurd (hs.symm.trans unsignalled) (by decide)
      | awaits => exact ⟨hs, s.peers_reap⟩
      | drains | stops | rests => exact ⟨hs, rfl⟩

/-- The connections that were accepted and those that wait are the ones that came, in order. -/
theorem Moves.peers_eq (hm : s.Moves now h s' ns es) :
    s'.peers ++ s'.waiting.filterMap id = s.peers ++ s.waiting.filterMap id ++ h.peer?.toList := by
  cases hm with
  | connect peer => simp [peers, Happening.peer?]
  | fault | signal => simp [peers, Happening.peer?]
  | idle inside => simp [inside]
  | work inside found work =>
      rw [inside, peers_logging found work]
      simp [logging]
  | turn turn =>
      cases turn with
      | accepts _ _ ready | passes _ _ ready => simp [peers, accept, ready, Happening.peer?]
      | reaps | awaits =>
          rw [peers_reap]
          exact (List.append_nil _).symm
      | drains | stops | rests => exact (List.append_nil _).symm

/-- What is seen of a server is what its log makes of the notices. -/
theorem Moves.effects_eq (hm : s.Moves now h s' ns es) :
    s'.log = s.log ∧ s.registry.Writes s'.registry ∧ es = (s.log.notifyAll s.registry ns).1 := by
  cases hm with
  | connect | fault | signal | idle => exact ⟨rfl, .refl, rfl⟩
  | work =>
      refine ⟨rfl, ?_, rfl⟩
      simpa [logging, AccessLog.notifyAll_eq] using s.log.writes_notedAll ns s.registry
  | turn turn => cases turn <;> exact ⟨rfl, .refl, rfl⟩

/-! ### Runs -/

theorem run_cons (s : Server) (now : Timestamp) (h : Happening)
    (script : List (Timestamp × Happening)) :
    s.run ((now, h) :: script) =
      (s.step now h :: ((s.step now h).server.run script).1,
        ((s.step now h).server.run script).2) := rfl

section Run
variable (script : List (Timestamp × Happening))

theorem Sound.run (hs : s.Sound) : (s.run script).2.Sound := by
  induction script generalizing s with
  | nil => exact hs
  | cons x script ih => exact ih (hs.move (s.step_spec x.1 x.2))

theorem log_run (s : Server) : (s.run script).2.log = s.log := by
  induction script generalizing s with
  | nil => rfl
  | cons x script ih => exact (ih _).trans (s.step_spec x.1 x.2).effects_eq.1

theorem run_of_signalled (hs : s.signalled = true) : (s.run script).2.peers = s.peers := by
  induction script generalizing s with
  | nil => rfl
  | cons x script ih =>
      obtain ⟨hsignalled, hpeers⟩ := (s.step_spec x.1 x.2).of_signalled hs
      exact (ih hsignalled).trans hpeers

theorem peers_run (s : Server) :
    (s.run script).2.peers ++ (s.run script).2.waiting.filterMap id =
      s.peers ++ s.waiting.filterMap id ++ script.filterMap (·.2.peer?) := by
  induction script generalizing s with
  | nil => simp [run]
  | cons x script ih =>
      rw [run_cons, ih, (s.step_spec x.1 x.2).peers_eq, List.append_assoc]
      cases hp : x.2.peer? <;> simp [hp]

theorem effects_run (s : Server) :
    (s.run script).1.flatMap (·.effects) =
      (s.log.notifyAll s.registry ((s.run script).1.flatMap (·.notices))).1 := by
  induction script generalizing s with
  | nil => rfl
  | cons x script ih =>
      obtain ⟨now, h⟩ := x
      obtain ⟨hlog, hwrites, heffects⟩ := (s.step_spec now h).effects_eq
      simp only [run_cons, List.flatMap_cons, ih, heffects, hlog, AccessLog.notifyAll_eq,
        List.flatMap_append, AccessLog.effects_congr _ hwrites.sameLines]

end Run

/-! ### Exchanges that are left behind -/

/-- No exchange is left of a connection whose task has finished. -/
def Settled (s : Server) : Prop :=
  ∀ c ∈ s.connections, c.task ≠ .running → c.Over

/-- A task that finishes leaves no exchange of its connection behind. -/
def FinishesOver (s : Server) : Happening → Prop
  | .finish i => ∀ c, s.running? i = some c → c.Over
  | _ => True

/-- The library that drives the exchanges is done with those on a connection when it lets the task
of the connection finish. -/
def TasksOutlive (s : Server) : List (Timestamp × Happening) → Prop
  | [] => True
  | (now, h) :: script => s.FinishesOver h ∧ (s.step now h).server.TasksOutlive script

theorem Settled.logging (hs : s.Settled) {c : Connection} (hc : c.task ≠ .running → c.Over)
    (i : Nat) (ns : List Notice) : (s.logging i c ns).server.Settled := by
  intro c' hmem
  obtain hmem | rfl := List.mem_or_eq_of_mem_set hmem
  · exact hs c' hmem
  · exact hc

theorem Settled.reap (hs : s.Settled) : s.reap.Settled :=
  Connection.forall_mem_reapFirst (fun _ ht hc _ => hc (by simp [ht])) hs

theorem Settled.turn (hs : s.Settled) (ht : s.Turn s') : s'.Settled := by
  cases ht with
  | accepts =>
      intro c hmem
      obtain hmem | hmem := List.mem_append.mp hmem
      · exact hs c hmem
      · obtain rfl := List.mem_singleton.mp hmem
        exact fun ht => absurd rfl ht
  | reaps | awaits => exact hs.reap
  | passes | drains | stops | rests => exact hs

theorem Settled.step (hs : s.Settled) (hf : s.FinishesOver h) (now : Timestamp) :
    (s.step now h).server.Settled := by
  cases h with
  | connect | fault | signal => exact hs
  | turn => exact hs.turn s.turn_spec
  | request i request handler =>
      rw [Server.step]
      cases hr : s.running? i with
      | none => exact hs
      | some c =>
          have ht := (running?_eq_some_iff.mp hr).2
          exact hs.logging (c := c.receive request handler) (absurd ht) i []
  | finish i =>
      rw [Server.step]
      cases hr : s.running? i with
      | none => exact hs
      | some c => exact hs.logging (c := c.finish) (fun _ => hf c hr) i []
  | host i k step =>
      rw [Server.step]
      cases hc : s.connections[i]? with
      | none => exact hs
      | some c =>
          simp only [stepHost]
          cases he : c.exchanges[k]? with
          | none => exact hs
          | some e =>
              refine Settled.logging hs (fun ht => ?_) i _
              exact ((hs c (List.mem_of_getElem? hc) ht).host he s.log.immediate now step).1

theorem Settled.run (hs : s.Settled) {script : List (Timestamp × Happening)}
    (ho : s.TasksOutlive script) : (s.run script).2.Settled := by
  induction script generalizing s with
  | nil => exact hs
  | cons x script ih => exact ih (hs.step ho.1 x.1) ho.2

/-- A server that has stopped does nothing if no exchange is left. -/
theorem Moves.of_stopped (hs : s.Sound) (hl : s.Settled) (hp : s.phase = .stopped)
    (hm : s.Moves now h s' ns es) : s'.phase = .stopped ∧ s'.Settled ∧ ns = [] ∧ es = [] := by
  cases hm with
  | connect | fault | signal | idle => exact ⟨hp, hl, rfl, rfl⟩
  | turn turn =>
      cases turn with
      | accepts phase | passes phase | reaps phase | awaits phase | drains phase | stops phase =>
          exact absurd (hp.symm.trans phase) (by decide)
      | rests => exact ⟨hp, hl, rfl, rfl⟩
  | @work _ i c _ _ _ found work =>
      have hreaped := inFlight_eq_zero_iff.mp (hs.empty hp) c (List.mem_of_getElem? found)
      have hrunning : c.task ≠ .running := by simp [hreaped]
      have hover := hl c (List.mem_of_getElem? found) hrunning
      cases work with
      | receive running | finish running => exact absurd running hrunning
      | host step he =>
          obtain ⟨hnext, hnone⟩ := hover.host he s.log.immediate now step
          rw [hnone]
          exact ⟨hp, hl.logging (fun _ => hnext) i [], rfl, rfl⟩

theorem run_of_stopped (script : List (Timestamp × Happening)) (hs : s.Sound) (hl : s.Settled)
    (hp : s.phase = .stopped) : ∀ o ∈ (s.run script).1, o.notices = [] ∧ o.effects = [] := by
  induction script generalizing s with
  | nil => exact List.forall_mem_nil _
  | cons x script ih =>
      have hm := s.step_spec x.1 x.2
      obtain ⟨hstopped, hsettled, hnone⟩ := hm.of_stopped hs hl hp
      exact List.forall_mem_cons.mpr ⟨hnone, ih (hs.move hm) hsettled hstopped⟩

/-! ### The way to the end -/

theorem inFlight_reap (hf : ∀ c ∈ s.connections, c.task ≠ .running) (hn : s.inFlight ≠ 0) :
    s.reap.inFlight + 1 = s.inFlight := by
  unfold inFlight reap at *
  generalize s.connections = cs at *
  induction cs with
  | nil => exact absurd rfl hn
  | cons c cs ih =>
      obtain ⟨hc, hcs⟩ := List.forall_mem_cons.mp hf
      dsimp only
      rw [Connection.reapFirst]
      split
      · rename_i ht
        simp [ht]
      · rename_i ht
        have hreaped : c.task = .reaped := by
          cases hct : c.task with
          | running => exact absurd hct hc
          | finished => exact absurd hct ht
          | reaped => rfl
        have hleft : List.countP (·.task ≠ .reaped) cs ≠ 0 := by
          simpa [List.countP_cons, hreaped] using hn
        simpa [List.countP_cons, hreaped] using ih hcs hleft

/-- The turns that the loop takes to its end once all tasks have finished: one to see the signal,
one for every task that is left, and one to find that there is none. -/
def turnsLeft (s : Server) : Nat :=
  match s.phase with
  | .accepting => s.inFlight + 2
  | .draining => s.inFlight + 1
  | .stopped => 0

theorem turnsLeft_eq_zero_iff : s.turnsLeft = 0 ↔ s.phase = .stopped := by
  unfold turnsLeft
  cases s.phase <;> simp

theorem Turn.turnsLeft_eq (ht : s.Turn s') (hs : s.signalled = true)
    (hf : ∀ c ∈ s.connections, c.task ≠ .running) :
    s'.turnsLeft = s.turnsLeft - 1 ∧ ∀ c ∈ s'.connections, c.task ≠ .running := by
  cases ht with
  | accepts _ unsignalled | passes _ unsignalled | reaps _ unsignalled =>
      exact absurd (hs.symm.trans unsignalled) (by decide)
  | drains accepting => exact ⟨by simp [turnsLeft, accepting, inFlight], hf⟩
  | awaits draining left =>
      refine ⟨?_, Connection.forall_mem_reapFirst (fun _ _ _ => TaskStatus.noConfusion) hf⟩
      have hreap : s.reap.phase = .draining := draining
      have hcount := inFlight_reap hf left
      simp only [turnsLeft, draining, hreap]
      omega
  | stops draining empty => exact ⟨by simp [turnsLeft, draining, empty], hf⟩
  | rests stopped => exact ⟨by simp [turnsLeft, stopped], hf⟩

/-- A server that was told to shut down stops when all its tasks have finished, as soon as the loop
has taken the turns that are left. -/
theorem stopped_of_turns (hs : s.signalled = true) (hf : ∀ c ∈ s.connections, c.task ≠ .running)
    (now : Timestamp) {n : Nat} (hn : s.turnsLeft ≤ n) :
    (s.run (List.replicate n (now, .turn))).2.phase = .stopped := by
  induction n generalizing s with
  | zero => exact turnsLeft_eq_zero_iff.mp (Nat.le_zero.mp hn)
  | succ n ih =>
      have hm := s.step_spec now .turn
      obtain ⟨hleft, hf⟩ := s.turn_spec.turnsLeft_eq hs hf
      exact ih (hm.of_signalled hs).1 hf (by rw [step, hleft]; omega)

end Server

end AccessLine
