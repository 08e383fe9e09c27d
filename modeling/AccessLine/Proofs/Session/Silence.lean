import AccessLine.Proofs.Exchange.Silence
import AccessLine.Proofs.Session.Binding

/-!
# After a line in a session

In the step in which a log emits nothing else is seen but the answer. If the host took that step
with an exchange, the exchange goes on without anything to be seen of it, until another is started
under its name.
-/
namespace AccessLine

/-- Of a host step with an emission nothing else is seen, and the exchange is silent after it. -/
theorem Flight.silent_of_emission {flight : Flight} {now : Timestamp} {k : HostStep} {r : Registry}
    {e : Emission} (h : .emission e ∈ (flight.told now k).2.flatMap (flight.log.effects r)) :
    (flight.told now k).2.flatMap (flight.log.effects r) = [.emission e] ∧
      (flight.after now k).exchange.Silent flight.log.immediate := by
  obtain ⟨notice, hnotice, he⟩ := List.mem_flatMap.mp h
  cases notice with
  | called => cases he
  | headReady | bodyFailed | droppedEarly => cases List.mem_singleton.mp he
  | emission request response =>
      obtain rfl := Effect.emission.inj (List.mem_singleton.mp he)
      obtain ⟨hsilent, hnotices⟩ := Exchange.silent_of_emission hnotice
      refine ⟨?_, hsilent⟩
      obtain hnotices | ⟨_, hnotices⟩ := hnotices <;>
        simp only [Flight.told, hnotices] <;> rfl

namespace Session

variable {s : Session} {x : SessionStep}

/-- The exchange of a name is there, and has nothing more to tell. -/
def SilentAt (a : String) (s : Session) : Prop :=
  ∃ flight, s.flights.get? a = some flight ∧ flight.exchange.Silent flight.log.immediate

variable {a : String}

/-- In the step of an emission nothing else is seen. -/
theorem effects_of_emission {now : Timestamp} {e : Emission}
    (h : .emission e ∈ (s.step now x).effects) : (s.step now x).effects = [.emission e] := by
  obtain ⟨name, flight, k, -, heffects⟩ := exists_flight_of_emission h
  rw [heffects] at h ⊢
  exact (Flight.silent_of_emission h).1

theorem silentAt_of_emission {now : Timestamp} {k : HostStep} {e : Emission}
    (h : .emission e ∈ (s.step now (.host a k)).effects) :
    (s.step now (.host a k)).session.SilentAt a := by
  rw [step_eq_turn rfl] at h ⊢
  cases hf : s.flights.get? a with
  | none => simp [turn, SessionStep.turn, hf, Turn.effects] at h
  | some flight =>
      simp only [turn, SessionStep.turn, hf, Turn.effects, Option.elim_some] at h ⊢
      refine ⟨flight.after now k, ?_, (Flight.silent_of_emission h).2⟩
      rw [take, Table.get?_put_self]

theorem SilentAt.step (h : s.SilentAt a) (hx : x.starts a = false) (now : Timestamp) :
    (s.step now x).session.SilentAt a ∧
      (x.exchange? = some a → ∃ answer, (s.step now x).seen = (.ok (.host answer false), [])) := by
  obtain ⟨flight, hflight, hsilent⟩ := h
  by_cases ha : x.exchange? = some a
  · cases x with
    | start name source request handler =>
        obtain rfl := Option.some.inj ha
        simp [SessionStep.starts] at hx
    | host name k =>
        obtain rfl := Option.some.inj ha
        obtain ⟨hnext, hnotices⟩ := hsilent.step now k
        rw [step_eq_turn ha]
        simp only [turn, SessionStep.turn, hflight, SessionOutcome.seen, Turn.effects, Flight.told,
          Option.elim_some, hnotices, List.flatMap_nil, hnext.owes]
        refine ⟨⟨flight.after now k, ?_, hnext⟩, fun _ => ⟨_, rfl⟩⟩
        rw [take, Table.get?_put_self]
    | _ => cases ha
  · refine ⟨⟨flight, ?_, hsilent⟩, fun h => absurd h ha⟩
    rw [get?_flights_of_ne ha, hflight]

/-- Nothing of an exchange that is silent is ever seen again. -/
theorem SilentAt.share {l : Schedule} (h : s.SilentAt a) (hl : ∀ y ∈ l, y.2.starts a = false) :
    ∀ seen ∈ s.share (some a) l, ∃ answer, seen = (.ok (.host answer false), []) := by
  induction l generalizing s with
  | nil => exact fun _ h => nomatch h
  | cons y l ih =>
      obtain ⟨hnext, hseen⟩ := h.step (hl y List.mem_cons_self) y.1
      have hrest := ih hnext fun z hz => hl z (List.mem_cons_of_mem _ hz)
      rw [share_cons]
      intro seen hmem
      obtain hmem | hmem := List.mem_append.mp hmem
      · split at hmem
        · rename_i ha
          rw [List.mem_singleton.mp hmem]
          exact hseen ha
        · cases hmem
      · exact hrest seen hmem

end Session

end AccessLine
