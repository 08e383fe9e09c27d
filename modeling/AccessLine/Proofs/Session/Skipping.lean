import AccessLine.Proofs.Registry.Likeness
import AccessLine.Proofs.Session.Questions
import AccessLine.Proofs.Session.Silence
import Mathlib.Data.List.Basic

/-!
# Skipping is filtering

A session with a predicate at one of its logs goes through a schedule side by side with the session
without that predicate. The two have the same exchanges, answer the same and emit for the same
exchanges, and the predicate does nothing but leave out lines of its own log.
-/
namespace AccessLine

/-- The log with a serial number without its predicate. -/
def AccessLog.unskipped (n : Nat) (log : AccessLog) : AccessLog :=
  { log with skip := if log.serial = n then none else log.skip }

theorem AccessLog.unskipped_of_ne {n : Nat} {log : AccessLog} (h : log.serial ≠ n) :
    log.unskipped n = log := by
  simp [unskipped, h]

/-- What a predicate at the log with a serial number makes of an emission. -/
def Emission.withheld (n : Nat) (p : Skip) (e : Emission) : Emission :=
  { e with line := if e.log = n ∧ p e.request e.response then none else e.line }

def Effect.withheld (n : Nat) (p : Skip) : Effect → Effect
  | .emission e => .emission (e.withheld n p)
  | .event e => .event e

def Seen.withheld (n : Nat) (p : Skip) (seen : Seen) : Seen :=
  (seen.1, seen.2.map (Effect.withheld n p))

theorem Effect.withheld_events (n : Nat) (p : Skip) (events : List Event) :
    (events.map Effect.event).map (Effect.withheld n p) = events.map Effect.event := by
  simp only [List.map_map]
  rfl

theorem AccessLog.effects_withheld {n : Nat} {p : Skip} {log : AccessLog} {r r' : Registry}
    (h : log.Follows n (some p)) (hr : r.SameLines r') (notice : Notice) :
    log.effects r notice =
      ((log.unskipped n).effects r' notice).map (Effect.withheld n p) := by
  rw [(log.unskipped n).effects_congr hr]
  cases notice with
  | called | headReady | bodyFailed | droppedEarly => rfl
  | emission request response =>
      by_cases hn : log.serial = n
      · simp [effects, emission, unskipped, Effect.withheld, Emission.withheld, skips, h hn, hn]
      · rw [unskipped_of_ne hn]
        simp [effects, emission, Effect.withheld, Emission.withheld, hn]

def Flight.unskipped (n : Nat) (flight : Flight) : Flight :=
  { flight with log := flight.log.unskipped n }

namespace Turn

def unskipped (n : Nat) (t : Turn) : Turn :=
  { t with
    flight? := t.flight?.map (Flight.unskipped n)
    told := t.told.map fun told => (told.1.unskipped n, told.2) }

theorem effects_withheld {n : Nat} {p : Skip} {t : Turn} {r r' : Registry}
    (h : ∀ told, t.told = some told → told.1.Follows n (some p)) (hr : r.SameLines r') :
    t.effects r = ((t.unskipped n).effects r').map (Effect.withheld n p) := by
  unfold effects unskipped
  cases ht : t.told with
  | none => rfl
  | some told =>
      simp only [Option.elim_some, Option.map_some, List.map_flatMap,
        ← AccessLog.effects_withheld (h told ht) hr]

end Turn

/-- An exchange does not see whom its log skips. -/
theorem SessionStep.turn_unskipped {n : Nat} {logs logs' : Table AccessLog}
    (h : ∀ name, logs'.get? name = (logs.get? name).map (AccessLog.unskipped n))
    (flight? : Option Flight) (now : Timestamp) (x : SessionStep) :
    x.turn logs' (flight?.map (Flight.unskipped n)) now =
      (x.turn logs flight? now).unskipped n := by
  cases x with
  | start name source request handler =>
      cases hl : logs.get? source with
      | none => simp [turn, h, hl, Turn.unskipped]
      | some log =>
          simp only [turn, h, hl, Option.map_some, Option.map_map, Turn.unskipped]
          rfl
  | host name k => cases flight? <;> rfl
  | _ => rfl

namespace Session

/-- The second session is the first without the predicate of the log with a serial number. -/
structure Unskips (n : Nat) (s s' : Session) : Prop where
  registry : s.registry.SameLines s'.registry
  logs : ∀ name, s'.logs.get? name = (s.logs.get? name).map (AccessLog.unskipped n)
  built : s'.built = s.built
  flights : ∀ name, s'.flights.get? name = (s.flights.get? name).map (Flight.unskipped n)
  shown : s'.shown = s.shown

end Session

/-- The first outcome is the second with the lines withheld that a predicate leaves out. -/
structure SessionOutcome.Filters (n : Nat) (p : Skip) (o o' : SessionOutcome) : Prop where
  seen : o.seen = o'.seen.withheld n p
  session : o.session.Unskips n o'.session

namespace Session

variable {n : Nat} {p : Skip} {s s' : Session} {x : SessionStep}

/-- A session in which the number is still free. -/
theorem Unskips.refl (hs : s.HoldsOnly fun log => log.serial ≠ n) : s.Unskips n s where
  registry := .rfl
  logs name := by
    cases hl : s.logs.get? name with
    | none => rfl
    | some log => rw [Option.map_some, AccessLog.unskipped_of_ne (hs _ (.named hl))]
  built := rfl
  flights name := by
    cases hf : s.flights.get? name with
    | none => rfl
    | some flight =>
        rw [Option.map_some, Flight.unskipped, AccessLog.unskipped_of_ne (hs _ (.used hf rfl))]
  shown := rfl

namespace Unskips

theorem showBuilder (h : s.Unskips n s') (id : BuilderId) :
    (s'.showBuilder id).1 = (s.showBuilder id).1 ∧
      (s.showBuilder id).2.Unskips n (s'.showBuilder id).2 := by
  simp only [Session.showBuilder, h.shown, true_and]
  exact ⟨h.registry, h.logs, h.built, h.flights, rfl⟩

theorem renderWith (h : s.Unskips n s') (id : BuilderId) (request : RequestView)
    (response : ResponseView) :
    (s'.renderWith id request response).1 = (s.renderWith id request response).1 ∧
      (s.renderWith id request response).2.Unskips n (s'.renderWith id request response).2 := by
  obtain ⟨hline, hregistry⟩ := h.registry.render id request response
  simp only [Session.renderWith, hline, true_and]
  exact ⟨hregistry, h.logs, h.built, h.flights, h.shown⟩

theorem insertLog (h : s.Unskips n s') (name : String) (log : AccessLog) {built built' : Nat}
    (hbuilt : built' = built) :
    Unskips n { s with logs := s.logs.insert name log, built }
      { s' with logs := s'.logs.insert name (log.unskipped n), built := built' } where
  registry := h.registry
  logs m := by
    by_cases hm : m = name <;> simp [Table.get?_insert, hm, h.logs]
  built := hbuilt
  flights := h.flights
  shown := h.shown

theorem fail (h : s.Unskips n s') (p : Skip) (e : SessionError) :
    (s.fail e).Filters n p (s'.fail e) :=
  ⟨rfl, h⟩

theorem reply (h : s.Unskips n s') (p : Skip) (a : SessionAnswer) :
    (s.reply a).Filters n p (s'.reply a) :=
  ⟨rfl, h⟩

theorem register {α β : Type} {result : Except FormatError (Registered α)}
    {result' : Except FormatError (Registered β)} {g : α → β}
    {f : Session → α → SessionAnswer × Session} {f' : Session → β → SessionAnswer × Session}
    (h : s.Unskips n s') (p : Skip) (hresult : Registry.Alike g result result')
    (hf : ∀ (t t' : Session) a, t.Unskips n t' →
      (f' t' (g a)).1 = (f t a).1 ∧ (f t a).2.Unskips n (f' t' (g a)).2) :
    (s.register result f).Filters n p (s'.register result' f') := by
  cases hresult with
  | error e => exact h.fail p _
  | @ok value r r' events hr =>
      obtain ⟨hanswer, hsession⟩ := hf { s with registry := r } { s' with registry := r' } value
        ⟨hr, h.logs, h.built, h.flights, h.shown⟩
      refine ⟨?seen, hsession⟩
      case seen =>
        simp only [Session.register, SessionOutcome.seen, Seen.withheld, hanswer,
          Effect.withheld_events]

/-- A log that is built with a predicate, and without it if it gets the number. -/
theorem step_log (h : s.Unskips n s') (p : Skip) (now : Timestamp) (name : String)
    (settings : LogSettings) (skip : Option Skip)
    (hskip : skip = if s.built = n then none else settings.skip) :
    (s.step now (.log name settings)).Filters n p
      (s'.step now (.log name { settings with skip })) := by
  have hbuild : Registry.Alike (AccessLog.unskipped n)
      (AccessLog.build settings s.built s.registry)
      (AccessLog.build { settings with skip } s'.built s'.registry) := by
    rw [h.built]
    apply h.registry.build settings skip
    intro builder
    rw [hskip]
    rfl
  simp only [Session.step]
  apply h.register p hbuild
  intro t t' log ht
  exact (ht.insertLog name log (by rw [ht.built])).showBuilder log.builder

/-- A step that is taken with an exchange. The exchange is the same in both sessions, and so is what
it tells its log. -/
theorem step_turn {a : String} (h : s.Unskips n s')
    (hs : s.HoldsOnly (AccessLog.Follows n (some p))) (hx : x.exchange? = some a)
    (now : Timestamp) : (s.step now x).Filters n p (s'.step now x) := by
  have hturn : s'.turn a now x = (s.turn a now x).unskipped n := by
    rw [turn, h.flights, SessionStep.turn_unskipped h.logs]
    rfl
  rw [step_eq_turn hx, step_eq_turn hx, hturn]
  constructor
  · exact congrArg (Prod.mk _) (Turn.effects_withheld (fun _ => hs.of_told) h.registry)
  · refine ⟨?registry, h.logs, h.built, ?flights, h.shown⟩
    case registry =>
      exact (Turn.sameLines_noted _ _).symm.trans (h.registry.trans (Turn.sameLines_noted _ _))
    case flights =>
      intro name
      by_cases hname : name = a
      · simp [take, hname, Turn.unskipped]
      · simp only [take, Table.get?_put_of_ne hname, h.flights]

/-- One step of both sessions. A log that is built now gets another number. -/
theorem step (h : s.Unskips n s') (hs : s.HoldsOnly (AccessLog.Follows n (some p)))
    (hn : n < s.built) (now : Timestamp) (x : SessionStep) :
    (s.step now x).Filters n p (s'.step now x) := by
  cases hx : x.exchange? with
  | some a => exact h.step_turn hs hx now
  | none =>
      cases x with
      | token name t =>
          simp only [Session.step]
          exact h.register p (h.registry.token name t) fun _ _ _ ht => ⟨rfl, ht⟩
      | format name d =>
          simp only [Session.step]
          exact h.register p (h.registry.format name d) fun _ _ _ ht => ⟨rfl, ht⟩
      | resolve text =>
          simp only [Session.step]
          exact h.register p (h.registry.resolve text) fun _ _ id ht => ht.showBuilder id
      | renderFormat text request response =>
          simp only [Session.step]
          exact h.register p (h.registry.resolve text) fun _ _ id ht =>
            ht.renderWith id request response
      | log name settings =>
          exact h.step_log p now name settings settings.skip (by simp [Nat.ne_of_gt hn])
      | hasFormat name =>
          have hflag : s'.registry.hasFormat name = s.registry.hasFormat name := by
            simp only [Registry.hasFormat, h.registry.formats]
          simp only [Session.step, hflag]
          exact h.reply p _
      | hasToken name =>
          have hflag : s'.registry.hasToken name = s.registry.hasToken name := by
            simp only [Registry.hasToken, h.registry.tokens]
          simp only [Session.step, hflag]
          exact h.reply p _
      | renderBuilder shown request response =>
          simp only [Session.step, h.shown]
          cases s.shown[shown]? with
          | none => exact h.fail p _
          | some id =>
              obtain ⟨hanswer, hsession⟩ := h.renderWith id request response
              simp only [hanswer]
              exact hsession.reply p _
      | clone name source =>
          simp only [Session.step, h.logs]
          cases s.logs.get? source with
          | none => exact h.fail p _
          | some log =>
              obtain ⟨hanswer, hsession⟩ :=
                (h.insertLog name log h.built).showBuilder log.builder
              simp only [Option.map_some]
              rw [← hanswer]
              exact hsession.reply p _
      | start | host => cases hx

/-- A run of both sessions. -/
theorem run (h : s.Unskips n s') (hs : s.HoldsOnly (AccessLog.Follows n (some p)))
    (hn : n < s.built) (l : Schedule) :
    (s.run l).1.map SessionOutcome.seen =
      (s'.run l).1.map fun o => o.seen.withheld n p := by
  induction l generalizing s s' with
  | nil => rfl
  | cons x l ih =>
      obtain ⟨hseen, hsession⟩ := h.step hs hn x.1 x.2
      have hnext : n < (s.step x.1 x.2).session.built := by
        rw [built_step]
        exact Nat.lt_add_right _ hn
      have hholds : (s.step x.1 x.2).session.HoldsOnly (AccessLog.Follows n (some p)) := by
        apply hs.step
        intro log hlog he
        rw [(obtained_of_builds hlog).1] at he
        omega
      exact congrArg₂ List.cons hseen (ih hsession hholds hnext)

end Unskips

/-! ### The lines that are left -/

/-- Each outcome of a run is that of one of its steps. -/
theorem exists_step_of_mem_run {l : Schedule} {o : SessionOutcome} (h : o ∈ (s.run l).1) :
    ∃ front back now x, l = front ++ (now, x) :: back ∧ o = (s.run front).2.step now x := by
  induction l generalizing s with
  | nil => cases h
  | cons y l ih =>
      obtain rfl | h := List.mem_cons.mp h
      · exact ⟨[], l, y.1, y.2, rfl, rfl⟩
      · obtain ⟨front, back, now, x, rfl, rfl⟩ := ih h
        exact ⟨y :: front, back, now, x, rfl, rfl⟩

/-- What a session of some logs emits, one of them emits. -/
theorem HoldsOnly.of_emission {P : AccessLog → Prop} {l : Schedule} (hs : s.HoldsOnly P)
    (hl : s.BuildsOnly P l) {o : SessionOutcome} (ho : o ∈ (s.run l).1) {e : Emission}
    (he : .emission e ∈ o.effects) :
    ∃ log r, P log ∧ e = log.emission r e.request e.response := by
  obtain ⟨front, back, now, x, rfl, rfl⟩ := exists_step_of_mem_run ho
  obtain ⟨log, hlog, hemission⟩ := exists_holds_of_emission he
  exact ⟨log, _, hs.run hl.of_append log hlog, hemission⟩

/-- The predicate of a log that is not there leaves nothing out. -/
theorem HoldsOnly.seen_withheld {l : Schedule} (hs : s.HoldsOnly fun log => log.serial ≠ n)
    (hl : s.BuildsOnly (fun log => log.serial ≠ n) l) (p : Skip) {o : SessionOutcome}
    (ho : o ∈ (s.run l).1) : o.seen.withheld n p = o.seen := by
  have heffect : ∀ f ∈ o.effects, f.withheld n p = f := by
    intro f hf
    cases f with
    | event e => rfl
    | emission e =>
        obtain ⟨log, r, hlog, he⟩ := hs.of_emission hl ho hf
        have hne : e.log ≠ n := by
          rw [he]
          exact hlog
        simp [Effect.withheld, Emission.withheld, hne]
  exact congrArg (Prod.mk _) ((List.map_congr_left heffect).trans (List.map_id _))

/-- The predicate changes no emission but in its line. -/
theorem emissionsOf_withheld {outcomes outcomes' : List SessionOutcome}
    (h : outcomes.map SessionOutcome.seen = outcomes'.map fun o => o.seen.withheld n p) :
    emissionsOf n outcomes = (emissionsOf n outcomes').map (Emission.withheld n p) := by
  have heffect (f : Effect) :
      Effect.emissionOf? n (f.withheld n p) =
        (Effect.emissionOf? n f).map (Emission.withheld n p) := by
    cases f with
    | event e => rfl
    | emission e =>
        by_cases hn : e.log = n <;>
          simp [Effect.withheld, Effect.emissionOf?, Emission.withheld, hn]
  calc emissionsOf n outcomes
      = (outcomes.map SessionOutcome.seen).flatMap fun seen =>
          seen.2.filterMap (Effect.emissionOf? n) := by
        rw [List.flatMap_map]
        rfl
    _ = (emissionsOf n outcomes').map (Emission.withheld n p) := by
        rw [h]
        simp only [emissionsOf, SessionOutcome.emissionsOf, List.flatMap_map, List.map_flatMap,
          List.map_filterMap, Seen.withheld, SessionOutcome.seen, List.filterMap_map,
          Function.comp_def, heffect]

/-- What a predicate says of other exchanges makes no difference. -/
theorem withheld_congr {q : Skip} {outcomes : List SessionOutcome}
    (h : ∀ e ∈ emissionsOf n outcomes, q e.request e.response = p e.request e.response) :
    (outcomes.map fun o => o.seen.withheld n q) = outcomes.map fun o => o.seen.withheld n p := by
  apply List.map_congr_left
  intro o ho
  apply congrArg (Prod.mk _)
  apply List.map_congr_left
  intro f hf
  cases f with
  | event e => rfl
  | emission e =>
      by_cases hn : e.log = n
      · have hq := h e (mem_emissionsOf.mpr ⟨hn, o, ho, hf⟩)
        simp only [Effect.withheld, Emission.withheld, hq]
      · simp [Effect.withheld, Emission.withheld, hn]

/-- The lines that are left are those of the emissions that the predicate lets pass. -/
theorem lines_withheld {es : List Emission} (h : ∀ e ∈ es, e.log = n) :
    (es.map (Emission.withheld n p)).filterMap Emission.line =
      (es.filter fun e => !p e.request e.response).filterMap Emission.line := by
  rw [List.filterMap_map, List.filterMap_filter]
  apply List.filterMap_congr
  intro e he
  cases hp : p e.request e.response <;> simp [Emission.withheld, h e he, hp]

/-! ### Both runs -/

/-- The same log is built with every predicate. -/
theorem builds?_skip {name : String} {settings : LogSettings} {skip : Option Skip}
    {log : AccessLog} (h : s.builds? (.log name { settings with skip }) = some log) :
    log.skip = skip ∧ ∀ skip', s.builds? (.log name { settings with skip := skip' }) =
      some { log with skip := skip' } := by
  simp only [builds?_log] at h ⊢
  obtain ⟨found, hfound, rfl⟩ := Option.map_eq_some_iff.mp h
  exact ⟨rfl, fun skip' => by rw [hfound, Option.map_some]⟩

/-- What is seen of a whole run, from the build of the log on with the predicate and without. -/
theorem seen_run_log (before after : Schedule) (now : Timestamp) (name : String)
    (settings : LogSettings) {log : AccessLog}
    (hlog : (run {} before).2.builds? (.log name { settings with skip := some p }) = some log) :
    (run {} (before ++ (now, .log name { settings with skip := some p }) :: after)).1.map
        SessionOutcome.seen =
      (run {} (before ++ (now, .log name { settings with skip := none }) :: after)).1.map
        fun o => o.seen.withheld log.serial p := by
  have hserial := (obtained_of_builds hlog).1
  have hbefore : ({} : Session).BuildsOnly (fun l => l.serial ≠ log.serial) before :=
    (buildsOnly_serial before {}).mono fun l hl he => by omega
  have hfree := holdsOnly_empty.run hbefore
  obtain ⟨hstep, hsession⟩ := (Unskips.refl hfree).step_log p now name
    { settings with skip := some p } none (by simp [hserial])
  have hbuilt := built_step (run {} before).2 now (.log name { settings with skip := some p })
  simp only [hlog, Option.toList_some, List.length_singleton] at hbuilt
  -- From here on the two sessions differ in the predicate alone.
  have hfollows := HoldsOnly.step (P := AccessLog.Follows log.serial (some p))
    (fun l hl he => absurd he (hfree l hl))
    (fun l hl _ => Option.some.inj (hl.symm.trans hlog) ▸ (builds?_skip hlog).1) now
  have hafter := hsession.run hfollows (by omega) after
  simp only [run_append, run_cons, List.map_append, List.map_cons, hstep, hafter]
  congr 1
  -- Before the log is built nothing is emitted under its number.
  exact List.map_congr_left fun o ho => (holdsOnly_empty.seen_withheld hbefore p ho).symm

/-- A predicate is a filter on the lines of its log. A run in which the log is built with it is
compared with the run in which the log is built without.

Every step answers the same and shows the same, but for the lines of this log. These are, in order,
the ones for which the predicate does not hold of the two sides of the exchange at the emission.

The predicate is asked once for each emission of its log, about the two sides that the line is
written from, and a predicate that answers these questions alike makes the same run.

An exchange with a line that was due, left out or not, is settled. Nothing else is seen in that
step. If it was a step of the host with the exchange, no line of it is owed, written or given up
later on. -/
theorem skip_filters (before after : Schedule) (now : Timestamp) (name : String)
    (settings : LogSettings) (p : Skip) {log : AccessLog}
    (hlog : (run {} before).2.builds? (.log name { settings with skip := some p }) = some log) :
    let schedule (skip : Option Skip) : Schedule :=
      before ++ (now, .log name { settings with skip }) :: after
    let skipping := run {} (schedule (some p))
    let plain := run {} (schedule none)
    let n := log.serial
    (skipping.1.map SessionOutcome.seen = plain.1.map fun o => o.seen.withheld n p) ∧
      ((emissionsOf n skipping.1).filterMap Emission.line =
          ((emissionsOf n plain.1).filter fun e => !p e.request e.response).filterMap
            Emission.line ∧
        ∀ e ∈ emissionsOf n plain.1, e.line.isSome) ∧
      (∃ asked, (runBy record {} (schedule (some p))).run [] = (skipping, asked) ∧
        asked.filter (·.log = n) = (emissionsOf n skipping.1).map Emission.question) ∧
      (∀ q : Skip,
        (∀ e ∈ emissionsOf n plain.1, q e.request e.response = p e.request e.response) →
          (run {} (schedule (some q))).1.map SessionOutcome.seen =
            skipping.1.map SessionOutcome.seen) ∧
      ∀ now' x e, .emission e ∈ (skipping.2.step now' x).effects →
        (e.log = n → e.line =
          if p e.request e.response then none
          else some (skipping.2.registry.render log.builder e.request e.response).1) ∧
        (skipping.2.step now' x).effects = [.emission e] ∧
        ∀ a k, x = .host a k → ∀ later : Schedule, (∀ y ∈ later, y.2.starts a = false) →
          ∀ seen ∈ (skipping.2.step now' x).session.share (some a) later,
            ∃ answer, seen = (.ok (.host answer false), []) := by
  intro schedule skipping plain n
  obtain ⟨hskip, hother⟩ := builds?_skip hlog
  have hbuilds := buildsOnly_of_builds hlog now after
  have hseen := seen_run_log before after now name settings hlog
  refine ⟨hseen, ⟨?lines, ?written⟩, ⟨_, runBy_record _ _ _, ?asked⟩, fun q hq => ?alike,
    fun now' x e he => ⟨fun hn => ?line, effects_of_emission he, ?settled⟩⟩
  case lines =>
    rw [emissionsOf_withheld hseen]
    exact lines_withheld fun e he => (mem_emissionsOf.mp he).1
  case written =>
    intro e he
    obtain ⟨hn, o, ho, he⟩ := mem_emissionsOf.mp he
    obtain ⟨l, r, hl, hemission⟩ :=
      holdsOnly_empty.of_emission (buildsOnly_of_builds (hother none) now after) ho he
    have hl : l = { log with skip := none } :=
      hl ((congrArg Emission.log hemission).symm.trans hn)
    rw [hemission, hl]
    rfl
  case asked =>
    exact filter_questions holdsOnly_empty (hbuilds.mono fun l hl he => hl he ▸ hskip)
  case alike =>
    have hseen' := seen_run_log before after now name settings (hother (some q))
    exact hseen'.trans ((withheld_congr hq).trans hseen.symm)
  case line =>
    obtain ⟨l, hl, hemission⟩ := exists_holds_of_emission he
    obtain rfl : l = log :=
      holdsOnly_empty.run hbuilds l hl ((congrArg Emission.log hemission).symm.trans hn)
    calc e.line
        = (l.emission skipping.2.registry e.request e.response).line := by rw [← hemission]
      _ = _ := by simp only [AccessLog.emission, AccessLog.skips, hskip, Option.any_some]
  case settled =>
    rintro a k rfl later hlater
    exact (silentAt_of_emission he).share hlater

/-- The line of a successful exchange is left out of the colored log. -/
theorem skip_filters_dev :
    let settings : LogSettings := { format := "dev", skip := some (.statusBelow 400) }
    let after : Schedule :=
      [.start "a" "l" {} trailing, .host "a" .poll, .host "a" .frame, .host "a" .frame,
        .host "a" .frame].map (⟨1, 0⟩, ·)
    (run {} []).2.builds? (.log "l" settings) =
        some { serial := 0, builder := 0, skip := some (.statusBelow 400) } ∧
      (run {} ((⟨0, 0⟩, .log "l" settings) :: after)).1.map SessionOutcome.seen =
        (run {} ((⟨0, 0⟩, .log "l" { format := "dev" }) :: after)).1.map
          fun o => o.seen.withheld 0 (.statusBelow 400) := by
  intro settings after
  have hlog : (run {} []).2.builds? (.log "l" settings) =
      some { serial := 0, builder := 0, skip := some (.statusBelow 400) } := rfl
  exact ⟨hlog, (skip_filters [] after ⟨0, 0⟩ "l" settings (.statusBelow 400) hlog).1⟩

end Session

end AccessLine
