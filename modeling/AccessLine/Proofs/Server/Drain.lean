import AccessLine.Proofs.Exchange.Settlement
import AccessLine.Proofs.Server.Ledger

/-!
# From the start of a server to its end

Whatever happens around a server, in whatever order, its books are complete, and it does not stop
before every task has finished. Whether its exchanges are over then is up to the library that drives
them. Where their task outlives them, as the server relies on, no line comes after the end.
-/
namespace AccessLine

open Net

/-- Once the exchange is gone its host can get nothing more out of it. -/
theorem Entry.notices_append {immediate : Bool} {peer : SocketAddress} {e : Entry}
    (h : e.exchange immediate peer = .gone) (more : Script) :
    { e with script := e.script ++ more }.notices immediate peer = e.notices immediate peer := by
  have hgone : (Exchange.run immediate (.waiting { e.request with peer := some peer } e.handler)
      e.script).2.1 = .gone := h
  simp only [notices, Exchange.run_append, hgone, (Exchange.run_gone immediate more).2,
    List.append_nil]

namespace Server

theorem eq_of_start {n : Network} {a : SocketAddress} {log : AccessLog} {registry : Registry}
    {s : Server} (h : start n a log registry = .ok s) : s = { log, registry } := by
  unfold start at h
  split at h
  · exact (Except.ok.inj h).symm
  · cases h

/-- The books of a server that was just started are empty. -/
theorem keeps_started (log : AccessLog) (registry : Registry) :
    ({ log, registry } : Server).Keeps [] [] :=
  ⟨rfl, .nil⟩

theorem sound_started (log : AccessLog) (registry : Registry) :
    ({ log, registry } : Server).Sound :=
  ⟨fun h => absurd rfl h, Phase.noConfusion⟩

theorem settled_started (log : AccessLog) (registry : Registry) :
    ({ log, registry } : Server).Settled :=
  List.forall_mem_nil _

/-- A connection with one request, which claims to come from elsewhere, and another connection that
is ready when the signal is given. -/
def lateVisitor : List (Timestamp × Happening) :=
  [.connect (.v4 .loopback 1), .turn,
    .request 0 { peer := some (.v4 .unspecified 9) }
      { delay _ := 0, reply _ := { head := { status := .ok }, body := .scripted [] .exact {} } },
    .host 0 0 .poll, .connect (.v4 .loopback 2), .signal, .turn, .turn, .host 0 0 .drop, .finish 0,
    .turn, .turn].map (⟨0, 0⟩, ·)

theorem tasksOutlive_lateVisitor :
    ({ log := { serial := 0, builder := 0 }, registry := {} } : Server).TasksOutlive
      lateVisitor := by
  -- nothing but the end of the task asks for anything
  iterate 9 refine And.intro trivial ?_
  refine And.intro (fun c hc => ?_) ⟨trivial, trivial, trivial⟩
  obtain rfl := Option.some.inj hc
  exact List.forall_mem_singleton.mpr rfl

-- Without its drop the exchange is left behind, and its line comes after the end.
example :
    let s := (({ log := { serial := 0, builder := 0 }, registry := {} } : Server).run
      (lateVisitor.eraseIdx 8)).2
    s.phase = .stopped ∧ (s.step ⟨1, 0⟩ (.host 0 0 .drop)).notices.length = 1 :=
  ⟨rfl, rfl⟩

end Server

end AccessLine
