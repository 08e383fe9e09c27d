import AccessLine.Proofs.Session.Projection
import AccessLine.Proofs.Session.Turn
import Mathlib.Data.Set.Card

/-!
# The balance of lines

An exchange whose line is not written on arrival owes it from the moment when its head is ready. A
line that is owed is settled in one of three ways, so through any session the heads and the settled
lines differ by the lines that are owed.
-/
namespace AccessLine

/-- How a line that is owed is settled. A line that is left out counts as emitted. -/
inductive Settled
  | emitted
  | failed
  | cutShort
deriving DecidableEq

def Notice.settled? : Notice → Option Settled
  | .emission _ _ => some .emitted
  | .bodyFailed _ => some .failed
  | .droppedEarly _ => some .cutShort
  | .called _ | .headReady _ _ => none

def Effect.settled? : Effect → Option Settled
  | .emission _ => some .emitted
  | .event (.bodyFailed _ _) => some .failed
  | .event (.droppedEarly _ _) => some .cutShort
  | .event _ => none

theorem AccessLog.settled_effects (log : AccessLog) (r : Registry) (ns : List Notice) :
    (ns.flatMap (log.effects r)).filterMap Effect.settled? = ns.filterMap Notice.settled? := by
  induction ns with
  | nil => rfl
  | cons n ns ih =>
      rw [List.flatMap_cons, List.filterMap_append, ih]
      cases n <;> rfl

def HostAnswer.isHead : HostAnswer → Bool
  | .head _ _ => true
  | _ => false

namespace LoggedBody

variable (b : LoggedBody) (now : Timestamp)

theorem balance_poll :
    ((b.poll now).2.2.filterMap Notice.settled?).length + (b.poll now).2.1.isPending.toNat =
      b.isPending.toNat := by
  unfold poll
  split
  · cases ho : b.owed with
    | none => simp [isPending, ho]
    | some o => cases b.next <;> simp [isPending, ho, settle, Owed.complete, Notice.settled?]
  · simp [isPending]

theorem balance_drop : ((b.drop now).filterMap Notice.settled?).length = b.isPending.toNat := by
  unfold drop
  cases ho : b.owed with
  | none => simp [isPending, ho]
  | some o => cases hb : o.bodyless <;> simp [isPending, ho, hb, Owed.complete, Notice.settled?]

end LoggedBody

namespace Exchange

theorem balance_handle (request : RequestView) (reply : Reply) (delay : Nat) :
    let o := handle false request reply delay
    o.answer.isHead.toNat =
      (o.notices.filterMap Notice.settled?).length + o.exchange.owes.toNat := by
  cases delay <;> rfl

theorem balance_drop (e : Exchange) (now : Timestamp) :
    ((e.step false now .drop).notices.filterMap Notice.settled?).length = e.owes.toNat := by
  cases e with
  | answered b => exact b.balance_drop now
  | waiting | handling | gone => rfl

/-- A line is owed once the head is ready, until it is settled. -/
theorem balance_step (e : Exchange) (now : Timestamp) (h : HostStep) :
    let o := e.step false now h
    o.answer.isHead.toNat + e.owes.toNat =
      (o.notices.filterMap Notice.settled?).length + o.exchange.owes.toNat := by
  intro o
  cases e with
  | waiting request handler =>
      cases h with
      | poll => exact balance_handle _ _ _
      | frame | info | wait | drop => rfl
  | handling request reply delay =>
      cases h with
      | poll => exact balance_handle _ _ _
      | frame | info | wait | drop => rfl
  | answered b =>
      cases h with
      | frame => simpa [o, step, HostAnswer.isHead, owes] using (b.balance_poll now).symm
      | drop => simpa [o, step, HostAnswer.isHead, owes] using (b.balance_drop now).symm
      | poll | info => simp [o, step, HostAnswer.isHead]
      | wait => rfl
  | gone => cases h <;> rfl

theorem owes_step_immediate {e : Exchange} (he : e.owes = false) (now : Timestamp) (h : HostStep) :
    (e.step true now h).exchange.owes = false := by
  have hhandle (request : RequestView) (reply : Reply) (delay : Nat) :
      (handle true request reply delay).exchange.owes = false := by
    cases delay <;> rfl
  cases e with
  | waiting request handler =>
      cases h with
      | poll => exact hhandle _ _ _
      | frame | info | wait | drop => rfl
  | handling request reply delay =>
      cases h with
      | poll => exact hhandle _ _ _
      | frame | info | wait | drop => rfl
  | answered b =>
      cases h with
      | frame =>
          have hb : b.isPending = false := he
          exact (b.isPending_poll now).trans (by simp [hb])
      | drop => rfl
      | poll | info | wait => exact he
  | gone => cases h <;> rfl

end Exchange

namespace Flight

def owes (flight : Flight) : Bool :=
  flight.exchange.owes

/-- Whether the line is not written on arrival. -/
def defers (flight : Flight) : Bool :=
  !flight.log.immediate

/-- An exchange whose line is written on arrival never owes it. -/
theorem owes_after {flight : Flight} (hd : flight.defers = false) (ho : flight.owes = false)
    (now : Timestamp) (h : HostStep) : (flight.after now h).owes = false := by
  have hi : flight.log.immediate = true := by simpa [defers] using hd
  unfold owes after
  rw [hi]
  exact Exchange.owes_step_immediate ho now h

end Flight

def SessionAnswer.isHead : SessionAnswer → Bool
  | .host answer _ => answer.isHead
  | _ => false

namespace Turn

def isHead (t : Turn) : Bool :=
  t.answer.toOption.any SessionAnswer.isHead

def settled (t : Turn) : List Settled :=
  t.told.elim [] fun x => x.2.filterMap Notice.settled?

variable {logs : Table AccessLog} {flight : Flight} {now : Timestamp} {x : SessionStep}

theorem owes_turn {flight? : Option Flight}
    (hf : ∀ flight, flight? = some flight → flight.defers = false ∧ flight.owes = false) :
    (x.turn logs flight? now).flight?.any Flight.owes = false := by
  cases h : (x.turn logs flight? now).flight? with
  | none => rfl
  | some flight =>
      obtain he | ⟨_, _, _, -, -, hw⟩ | ⟨earlier, k, he, rfl⟩ := SessionStep.flight_of_turn h
      · exact (hf flight he).2
      · simp [Flight.owes, Exchange.owes, hw]
      · obtain ⟨hd, ho⟩ := hf earlier he
        exact Flight.owes_after hd ho now k

theorem balance_deferred (hd : flight.defers = true) :
    let t := x.turn logs (some flight) now
    t.isHead.toNat + flight.owes.toNat =
      t.settled.length + (t.flight?.any Flight.owes).toNat := by
  have hi : flight.log.immediate = false := by simpa [Flight.defers] using hd
  intro t
  cases x with
  | start name source request handler =>
      cases hl : logs.get? source with
      | none => simp [t, SessionStep.turn, hl, isHead, settled, Except.toOption]
      | some log =>
          have hdrop := flight.exchange.balance_drop now
          simpa [t, SessionStep.turn, hl, isHead, settled, Except.toOption, SessionAnswer.isHead,
            Flight.told, hi, Flight.owes, Exchange.owes] using hdrop.symm
  | host name h =>
      have hstep := flight.exchange.balance_step now h
      simpa [t, SessionStep.turn, isHead, settled, Except.toOption, SessionAnswer.isHead,
        Flight.told, Flight.after, hi, Flight.owes] using hstep
  | _ => simp [t, SessionStep.turn, isHead, settled, Except.toOption, SessionAnswer.isHead]

end Turn

namespace SessionOutcome

def isHead (o : SessionOutcome) : Bool :=
  o.answer.toOption.any SessionAnswer.isHead

def settled (o : SessionOutcome) : List Settled :=
  o.effects.filterMap Effect.settled?

end SessionOutcome

namespace Session

variable {s : Session} {x : SessionStep} {l : Schedule}

/-- Whether a step is taken with an exchange under way whose line is not written on arrival. -/
def defers (s : Session) (x : SessionStep) : Bool :=
  (x.exchange?.bind s.flights.get?).any Flight.defers

/-- The outcomes of the steps of such exchanges. A step that starts an exchange under a name in use
counts for the exchange that it drops. -/
def deferred (s : Session) : Schedule → List SessionOutcome
  | [] => []
  | (now, x) :: l =>
      let o := s.step now x
      (if s.defers x then [o] else []) ++ o.session.deferred l

/-- The exchanges that owe a line. -/
def owing (s : Session) : Set String :=
  {name | (s.flights.get? name).any Flight.owes = true}

/-- Exchanges whose line is written on arrival owe none, and only finitely many others do. -/
structure Sound (s : Session) : Prop where
  finite : s.owing.Finite
  immediate : ∀ name flight, s.flights.get? name = some flight → flight.defers = false →
    flight.owes = false

theorem settled_step {a : String} (hx : x.exchange? = some a) (now : Timestamp) :
    (s.step now x).settled = (s.turn a now x).settled := by
  rw [step_eq_turn hx]
  unfold SessionOutcome.settled Turn.settled Turn.effects
  cases (s.turn a now x).told with
  | none => rfl
  | some told => exact told.1.settled_effects s.registry told.2

/-- Only the exchange of a turn can begin or cease to owe a line. -/
theorem owing_take (hs : s.owing.Finite) (a : String) (t : Turn) :
    (s.take a t).owing.Finite ∧
      (s.take a t).owing.ncard + ((s.flights.get? a).any Flight.owes).toNat =
        s.owing.ncard + (t.flight?.any Flight.owes).toNat := by
  have hdiff : (s.take a t).owing \ {a} = s.owing \ {a} := by
    ext name
    by_cases hn : name = a
    · simp [hn]
    · simp [owing, take, Table.get?_put_of_ne hn, hn]
  have hsplit (r : Session) (hr : r.owing.Finite) :
      r.owing.ncard = (r.owing \ {a}).ncard + ((r.flights.get? a).any Flight.owes).toNat := by
    by_cases ha : (r.flights.get? a).any Flight.owes = true
    · have hmem : a ∈ r.owing := ha
      rw [← Set.ncard_sdiff_singleton_add_one hmem hr, ha]
      rfl
    · have hmem : a ∉ r.owing := ha
      rw [Set.sdiff_singleton_eq_self hmem, Bool.eq_false_of_not_eq_true ha]
      rfl
  have hfinite : (s.take a t).owing.Finite := by
    apply Set.Finite.of_sdiff _ (Set.finite_singleton a)
    rw [hdiff]
    exact hs.sdiff
  have hself : (s.take a t).flights.get? a = t.flight? := Table.get?_put_self
  refine ⟨hfinite, ?_⟩
  rw [hsplit s hs, hsplit _ hfinite, hdiff, hself]
  omega

theorem Sound.step (hs : s.Sound) (now : Timestamp) (x : SessionStep) :
    (s.step now x).session.Sound := by
  cases hx : x.exchange? with
  | none =>
      have hf := flights_step (s := s) hx now
      exact ⟨by simpa only [owing, hf] using hs.finite, hf ▸ hs.immediate⟩
  | some a =>
      rw [step_eq_turn hx]
      refine ⟨(owing_take hs.finite a _).1, ?_⟩
      intro name flight hf hd
      by_cases hn : name = a
      · subst hn
        rw [take, Table.get?_put_self] at hf
        obtain he | ⟨_, _, _, -, -, hw⟩ | ⟨earlier, k, he, rfl⟩ := SessionStep.flight_of_turn hf
        · exact hs.immediate name flight he hd
        · simp [Flight.owes, Exchange.owes, hw]
        · have hearlier : earlier.defers = false := hd
          exact Flight.owes_after hearlier (hs.immediate name earlier he hearlier) now k
      · rw [take, Table.get?_put_of_ne hn] at hf
        exact hs.immediate name flight hf hd

theorem ncard_owing_step (hs : s.Sound) (hd : s.defers x = false) (now : Timestamp) :
    (s.step now x).session.owing.ncard = s.owing.ncard := by
  cases hx : x.exchange? with
  | none => simp only [owing, flights_step hx]
  | some a =>
      have hnone : ∀ flight, s.flights.get? a = some flight →
          flight.defers = false ∧ flight.owes = false := by
        intro flight hf
        have hi : flight.defers = false := by simpa [defers, hx, hf] using hd
        exact ⟨hi, hs.immediate a flight hf hi⟩
      have hbefore : (s.flights.get? a).any Flight.owes = false := by
        cases hf : s.flights.get? a with
        | none => rfl
        | some flight => exact (hnone flight hf).2
      have hafter : (s.turn a now x).flight?.any Flight.owes = false := Turn.owes_turn hnone
      have hcount := (owing_take hs.finite a (s.turn a now x)).2
      rw [hbefore, hafter] at hcount
      rw [step_eq_turn hx]
      exact hcount

theorem balance_step (hs : s.Sound) (hd : s.defers x = true) (now : Timestamp) :
    (s.step now x).isHead.toNat + s.owing.ncard =
      (s.step now x).settled.length + (s.step now x).session.owing.ncard := by
  obtain ⟨flight, hbind, hfd⟩ := (Option.any_eq_true _ _).mp hd
  obtain ⟨a, hx, hf⟩ := Option.bind_eq_some_iff.mp hbind
  have hbalance : (s.turn a now x).isHead.toNat + flight.owes.toNat =
      (s.turn a now x).settled.length + ((s.turn a now x).flight?.any Flight.owes).toNat := by
    rw [turn, hf]
    exact Turn.balance_deferred hfd
  have hhead : (s.step now x).isHead = (s.turn a now x).isHead :=
    congrArg SessionOutcome.isHead (step_eq_turn hx now)
  have hsession : (s.step now x).session = s.take a (s.turn a now x) :=
    congrArg SessionOutcome.session (step_eq_turn hx now)
  have hcount := (owing_take hs.finite a (s.turn a now x)).2
  rw [hf, Option.any_some] at hcount
  rw [hhead, hsession, settled_step hx]
  omega

theorem balance_run (hs : s.Sound) (l : Schedule) :
    (s.run l).2.Sound ∧
      (s.deferred l).countP SessionOutcome.isHead + s.owing.ncard =
        ((s.deferred l).flatMap SessionOutcome.settled).length + (s.run l).2.owing.ncard := by
  induction l generalizing s with
  | nil => exact ⟨hs, by simp [deferred, run]⟩
  | cons x l ih =>
      obtain ⟨hsound, hrest⟩ := ih (hs.step x.1 x.2)
      refine ⟨hsound, ?_⟩
      have hrun : (s.run (x :: l)).2 = ((s.step x.1 x.2).session.run l).2 := rfl
      rw [hrun, deferred]
      cases hd : s.defers x.2 with
      | false =>
          rw [← ncard_owing_step hs hd x.1]
          exact hrest
      | true =>
          have hstep := balance_step hs hd x.1
          have hhead : [s.step x.1 x.2].countP SessionOutcome.isHead =
              (s.step x.1 x.2).isHead.toNat := by
            cases h : (s.step x.1 x.2).isHead <;> simp [h]
          rw [if_pos rfl, List.countP_append, hhead, List.flatMap_append, List.length_append,
            List.flatMap_singleton]
          omega

end Session

end AccessLine
