import AccessLine.Proofs.Exchange.Clock
import AccessLine.Proofs.Session.Interleaving

/-!
# Sessions without the clock

As long as the logs at work read no clock, a session with every reading set to the origin of the
clock goes through a schedule like the session itself. So two runs that differ in their readings
alone differ in no line, and interleavings need not keep the readings either.
-/
namespace AccessLine

def Flight.timeless (flight : Flight) : Flight :=
  { flight with exchange := flight.exchange.timeless }

theorem Flight.timeless_waiting {log : AccessLog} {request : Request} {handler : Handler} :
    Flight.timeless { log, exchange := .waiting request handler } =
      { log, exchange := .waiting request handler } := rfl

theorem Flight.after_timeless (flight : Flight) (now : Timestamp) (h : HostStep) :
    flight.timeless.after .origin h = (flight.after now h).timeless := by
  have hs := flight.exchange.step_timeless flight.log.immediate now h
  simp only [after, timeless, hs, Exchange.Outcome.timeless]

theorem Flight.told_timeless (flight : Flight) (now : Timestamp) (h : HostStep) :
    flight.timeless.told .origin h =
      ((flight.told now h).1, (flight.told now h).2.map Notice.timeless) := by
  have hs := flight.exchange.step_timeless flight.log.immediate now h
  simp only [told, timeless, hs, Exchange.Outcome.timeless]

def Turn.timeless (t : Turn) : Turn :=
  { t with
    flight? := t.flight?.map Flight.timeless
    told := t.told.map fun x => (x.1, x.2.map Notice.timeless) }

namespace Turn

variable {t : Turn} {r : Registry}

theorem effects_timeless (h : ∀ told, t.told = some told → told.1.ReadsNoClock r) :
    t.timeless.effects r = (t.effects r).map Effect.timeless := by
  unfold effects timeless
  cases ht : t.told with
  | none => rfl
  | some told =>
      simp [List.flatMap_map, List.map_flatMap, AccessLog.effects_timeless (h told ht)]

theorem noted_timeless (h : ∀ told, t.told = some told → told.1.ReadsNoClock r) :
    t.timeless.noted = t.noted := by
  unfold noted timeless
  cases ht : t.told with
  | none => rfl
  | some told => exact AccessLog.notedAll_timeless (h told ht) told.2

end Turn

def Seen.timeless (seen : Seen) : Seen :=
  (seen.1, seen.2.map Effect.timeless)

def Session.timeless (s : Session) : Session :=
  { s with flights := ⟨fun name => (s.flights.get? name).map Flight.timeless⟩ }

def SessionOutcome.timeless (o : SessionOutcome) : SessionOutcome :=
  { o with session := o.session.timeless, effects := o.effects.map Effect.timeless }

def Schedule.timeless (l : Schedule) : Schedule :=
  l.map fun x => (.origin, x.2)

theorem SessionStep.turn_timeless (logs : Table AccessLog) (flight? : Option Flight)
    (now : Timestamp) (x : SessionStep) :
    x.turn logs (flight?.map Flight.timeless) .origin = (x.turn logs flight? now).timeless := by
  cases x with
  | start name source request handler =>
      cases hl : logs.get? source with
      | none => simp [turn, hl, Turn.timeless]
      | some log =>
          cases flight? with
          | none => simp [turn, hl, Turn.timeless, Flight.timeless_waiting]
          | some flight =>
              have ht := flight.told_timeless now .drop
              simp [turn, hl, ht, Turn.timeless, Flight.timeless_waiting]
  | host name h =>
      cases flight? with
      | none => rfl
      | some flight =>
          have ht := flight.told_timeless now h
          have hs : flight.timeless.exchange.step flight.timeless.log.immediate .origin h =
              (flight.exchange.step flight.log.immediate now h).timeless :=
            flight.exchange.step_timeless flight.log.immediate now h
          simp only [turn, Turn.timeless, Option.map_some, flight.after_timeless now, ht, hs,
            Exchange.Outcome.timeless, Exchange.owes_timeless]
  | _ => rfl

namespace Session

variable {s : Session} {x : SessionStep} {l m : Schedule}

/-- No log reads the clock, be it one to be used or one in use. -/
structure ReadsNoClock (s : Session) : Prop where
  logs : ∀ name log, s.logs.get? name = some log → log.ReadsNoClock s.registry
  flights : ∀ name flight, s.flights.get? name = some flight → flight.log.ReadsNoClock s.registry

theorem readsNoClock_timeless : s.timeless.ReadsNoClock ↔ s.ReadsNoClock := by
  constructor
  · intro h
    refine ⟨h.logs, fun name flight hf => ?_⟩
    exact h.flights name flight.timeless (by simp [timeless, hf])
  · intro h
    refine ⟨h.logs, fun name flight hf => ?_⟩
    obtain ⟨earlier, he, rfl⟩ := Option.map_eq_some_iff.mp hf
    exact h.flights name earlier he

theorem ReadsNoClock.step (hs : s.ReadsNoClock) {a : String} (hx : x.exchange? = some a)
    (now : Timestamp) : (s.step now x).session.ReadsNoClock := by
  rw [step_eq_turn hx]
  have hr := (s.turn a now x).sameLines_noted s.registry
  constructor
  · exact fun name log hl => (hs.logs name log hl).sameLines hr
  · intro name flight hf
    by_cases hn : name = a
    · subst hn
      rw [take, Table.get?_put_self] at hf
      obtain he | ⟨source, _, _, -, hl, -⟩ | ⟨earlier, k, he, rfl⟩ := SessionStep.flight_of_turn hf
      · exact (hs.flights name flight he).sameLines hr
      · exact (hs.logs source _ hl).sameLines hr
      · exact (hs.flights name earlier he).sameLines hr
    · rw [take, Table.get?_put_of_ne hn] at hf
      exact (hs.flights name flight hf).sameLines hr

theorem turn_timeless (name : String) (now : Timestamp) :
    s.timeless.turn name .origin x = (s.turn name now x).timeless :=
  SessionStep.turn_timeless _ _ _ _

/-- The notices of a turn make the same lines and the same registry without their readings. -/
theorem told_timeless (hs : s.ReadsNoClock) (name : String) (now : Timestamp) (x : SessionStep) :
    (s.turn name now x).timeless.effects s.registry =
        ((s.turn name now x).effects s.registry).map Effect.timeless ∧
      (s.turn name now x).timeless.noted = (s.turn name now x).noted := by
  have hlog : ∀ told, (s.turn name now x).told = some told → told.1.ReadsNoClock s.registry := by
    intro told ht
    obtain ⟨flight, k, hf, rfl⟩ := SessionStep.exists_of_told ht
    exact hs.flights name flight hf
  exact ⟨Turn.effects_timeless hlog, Turn.noted_timeless hlog⟩

theorem take_timeless (t : Turn) (name : String) (h : t.timeless.noted = t.noted) :
    s.timeless.take name t.timeless = (s.take name t).timeless := by
  have hf : s.timeless.flights.put name t.timeless.flight? =
      (s.take name t).timeless.flights := by
    ext1
    funext n
    by_cases hn : n = name <;> simp [take, timeless, Turn.timeless, Table.put, hn]
  simp only [take, h, hf]
  rfl

theorem register_timeless {α : Type} (s : Session) (result : Except FormatError (Registered α))
    (f : Session → α → SessionAnswer × Session)
    (hf : ∀ (s : Session) a, f s.timeless a = ((f s a).1, (f s a).2.timeless)) :
    s.timeless.register result f = (s.register result f).timeless := by
  unfold register
  cases result with
  | error e => rfl
  | ok r =>
      have hr : { s.timeless with registry := r.registry } =
          { s with registry := r.registry : Session }.timeless := rfl
      simp only [hr, hf, SessionOutcome.timeless, List.map_map]
      rfl

/-- A step without the clock. -/
theorem step_timeless (hs : s.ReadsNoClock) (now : Timestamp) (x : SessionStep) :
    s.timeless.step .origin x = (s.step now x).timeless := by
  cases he : x.exchange? with
  | some a =>
      obtain ⟨heffects, hnoted⟩ := s.told_timeless hs a now x
      rw [step_eq_turn he, step_eq_turn he, turn_timeless a now]
      simp only [SessionOutcome.timeless, ← take_timeless _ a hnoted, ← heffects]
      rfl
  | none =>
      cases x with
      | token | format | resolve | renderFormat | log =>
          simp only [Session.step]
          apply register_timeless
          exact fun _ _ => rfl
      | hasFormat | hasToken => rfl
      | renderBuilder n request response =>
          have hshown : s.timeless.shown = s.shown := rfl
          simp only [Session.step, hshown]
          cases s.shown[n]? <;> rfl
      | clone name source =>
          have hlogs : s.timeless.logs = s.logs := rfl
          simp only [Session.step, hlogs]
          cases s.logs.get? source <;> rfl
      | start | host => cases he

/-- Two steps of different exchanges in both orders, each order at its own moments. -/
theorem step_swap_timeless {y : SessionStep} (hs : s.ReadsNoClock) (hxy : x.Apart y)
    (t u t' u' : Timestamp) :
    ((s.step u' y).session.step t' x).seen.timeless = (s.step t x).seen.timeless ∧
      (s.step u' y).seen.timeless = ((s.step t x).session.step u y).seen.timeless ∧
      ((s.step u' y).session.step t' x).session.timeless =
        ((s.step t x).session.step u y).session.timeless := by
  obtain ⟨a, b, ha, hb, hab⟩ := hxy
  have hx := s.step_timeless hs t x
  have hy := s.step_timeless hs u' y
  have hxy : (s.step t x).timeless.session.step .origin y = _ := step_timeless (hs.step ha t) u y
  have hyx : (s.step u' y).timeless.session.step .origin x = _ := step_timeless (hs.step hb u') t' x
  have hswap := s.timeless.step_swap ha hb hab .origin .origin
  rw [hx, hy, hxy, hyx] at hswap
  exact hswap

/-- No log reads the clock at any moment of a run. -/
def ClockFree (s : Session) : Schedule → Prop
  | [] => s.ReadsNoClock
  | (now, x) :: l => s.ReadsNoClock ∧ (s.step now x).session.ClockFree l

theorem ClockFree.readsNoClock (h : s.ClockFree l) : s.ReadsNoClock := by
  cases l with
  | nil => exact h
  | cons => exact h.1

/-- Exchanges by themselves do not bring in a log that reads the clock. -/
theorem ReadsNoClock.clockFree (hs : s.ReadsNoClock) (hl : ∀ x ∈ l, x.2.exchange?.isSome = true) :
    s.ClockFree l := by
  induction l generalizing s with
  | nil => exact hs
  | cons x l ih =>
      obtain ⟨a, ha⟩ := Option.isSome_iff_exists.mp (hl x List.mem_cons_self)
      have htail : ∀ y ∈ l, y.2.exchange?.isSome = true :=
        fun y hy => hl y (List.mem_cons_of_mem x hy)
      exact ⟨hs, ih (hs.step ha x.1) htail⟩

theorem clockFree_timeless : s.timeless.ClockFree l.timeless ↔ s.ClockFree l := by
  induction l generalizing s with
  | nil => exact readsNoClock_timeless
  | cons x l ih =>
      have hstep (hs : s.ReadsNoClock) :
          (s.timeless.step .origin x.2).session = (s.step x.1 x.2).session.timeless :=
        congrArg SessionOutcome.session (s.step_timeless hs x.1 x.2)
      constructor
      · rintro ⟨hs, hl⟩
        rw [readsNoClock_timeless] at hs
        exact ⟨hs, ih.mp (hstep hs ▸ hl)⟩
      · rintro ⟨hs, hl⟩
        exact ⟨readsNoClock_timeless.mpr hs, hstep hs ▸ ih.mpr hl⟩

theorem ClockFree.reordered (hr : Schedule.Reordered l m) (h : s.ClockFree l) : s.ClockFree m := by
  induction hr generalizing s with
  | refl => exact h
  | cons x _ ih => exact ⟨h.1, ih h.2⟩
  | @swap x y l hxy =>
      obtain ⟨a, b, ha, hb, hab⟩ := hxy
      obtain ⟨hs, -, hl⟩ := h
      obtain ⟨-, -, hswap⟩ := s.step_swap ha hb hab x.1 y.1
      exact ⟨hs, hs.step hb y.1, hswap ▸ hl⟩
  | trans _ _ ih ih' => exact ih' (ih h)

/-- A run without the clock. -/
theorem run_timeless (h : s.ClockFree l) :
    (∀ e, s.timeless.share e l.timeless = (s.share e l).map Seen.timeless) ∧
      (s.timeless.run l.timeless).2 = (s.run l).2.timeless := by
  induction l generalizing s with
  | nil => exact ⟨fun _ => rfl, rfl⟩
  | cons x l ih =>
      have hstep := s.step_timeless (x := x.2) h.readsNoClock x.1
      obtain ⟨hshare, hrun⟩ := ih h.2
      constructor
      · intro e
        have hcons : Schedule.timeless (x :: l) = (.origin, x.2) :: Schedule.timeless l := rfl
        have htail : (s.step x.1 x.2).timeless.session.share e (Schedule.timeless l) = _ := hshare e
        rw [hcons, share_cons, share_cons, hstep, htail, List.map_append]
        by_cases he : x.2.exchange? = e
        · simp only [he, if_true]
          rfl
        · simp [he]
      · refine Eq.trans ?_ hrun
        exact congrArg (fun o : SessionOutcome => (o.session.run (Schedule.timeless l)).2) hstep

end Session

theorem Schedule.timeless_eq (l : Schedule) :
    l.timeless = (l.map Prod.snd).map fun x => (.origin, x) :=
  (List.map_map).symm

theorem Schedule.view_timeless (l : Schedule) (name : String) :
    l.timeless.view name = (l.view name).timeless := by
  simp only [view, timeless, List.filter_map]
  rfl

/-- Interleavings of the same steps at other moments. -/
theorem Session.run_of_view {s : Session} {l m : Schedule} (h : s.ClockFree l)
    (hv : ∀ name, (l.view name).map Prod.snd = (m.view name).map Prod.snd) :
    (∀ e, (s.share e m).map Seen.timeless = (s.share e l).map Seen.timeless) ∧
      (s.run m).2.timeless = (s.run l).2.timeless := by
  have hview : ∀ name, l.timeless.view name = m.timeless.view name := by
    intro name
    rw [Schedule.view_timeless, Schedule.view_timeless, Schedule.timeless_eq, hv name,
      Schedule.timeless_eq]
  have hr := Schedule.reordered_of_view hview
  have hm : s.ClockFree m := clockFree_timeless.mp ((clockFree_timeless.mpr h).reordered hr)
  obtain ⟨hshare, hrun⟩ := s.timeless.run_reordered hr
  obtain ⟨hl, hl'⟩ := run_timeless h
  obtain ⟨hm, hm'⟩ := run_timeless hm
  constructor
  · intro e
    rw [← hl, ← hm, hshare]
  · rw [← hl', ← hm', hrun]

end AccessLine
