import AccessLine.Proofs.Registry.Lookups
import AccessLine.Proofs.Session.Clock
import AccessLine.Proofs.Session.Holding

/-!
# Early formats and late tokens

A log keeps the line builder that it was built with, and its line builder looks up tokens when a
line is due. So what happens to formats after a log was built is nothing to its exchanges, and what
happens to tokens is something to them only through the names that the line builder looks up.
-/
namespace AccessLine

/-- What the clock has no part in: that a line was due at a log, and for which exchange. -/
def Emission.outline (e : Emission) : Emission :=
  { e.timeless with line := none }

def Effect.outline : Effect → Effect
  | .emission e => .emission e.outline
  | .event e => .event e

def Seen.outline (seen : Seen) : Seen :=
  (seen.1, seen.2.map Effect.outline)

theorem AccessLog.effects_outline (log : AccessLog) (r r' : Registry) (n : Notice) :
    (log.effects r' n.timeless).map Effect.outline = (log.effects r n).map Effect.outline := by
  cases n with
  | called | headReady | bodyFailed | droppedEarly => rfl
  | emission request response =>
      simp [effects, Notice.timeless, Effect.outline, Emission.outline, Emission.timeless, emission,
        RequestView.timeless, ResponseView.timeless, Function.comp_def]

theorem Turn.effects_outline (t : Turn) (r r' : Registry) :
    (t.timeless.effects r').map Effect.outline = (t.effects r).map Effect.outline := by
  unfold Turn.effects timeless
  cases t.told with
  | none => rfl
  | some told =>
      simp only [Option.map_some, Option.elim_some, List.flatMap_map, List.map_flatMap,
        told.1.effects_outline r r']

/-- What an exchange can be reached by: its name, the names of the logs that it is started with, and
the names of the tokens that its lines look up. -/
structure Scope where
  exchange : String
  logs : Set String
  tokens : Set String := Set.univ

namespace SessionStep

/-- A step that leaves a scope alone. It is taken with another exchange or with none, gives its
names to no log, and registers none of its tokens. Formats it can define and ask for as it likes. -/
structure Outside (c : Scope) (x : SessionStep) : Prop where
  exchange : x.exchange? ≠ some c.exchange
  log : ∀ name ∈ c.logs, x.logName? ≠ some name
  token : ∀ name ∈ c.tokens, ∀ t, x ≠ .token name t

/-- A step that keeps to the logs of a scope. It starts the exchange with no other log, and gives
their names to no other. -/
structure Within (c : Scope) (x : SessionStep) : Prop where
  start : x.exchange? = some c.exchange → ∀ source, x.source? = some source → source ∈ c.logs
  log : ∀ name ∈ c.logs, x.logName? = some name → ∃ source ∈ c.logs, x = .clone name source

end SessionStep

namespace Scope

/-- The second schedule is the first with steps put in that leave the scope alone. -/
inductive Widened (c : Scope) : Schedule → Schedule → Prop
  | nil : Widened c [] []
  | within {x : Timestamp × SessionStep} {l m : Schedule} (hx : x.2.Within c)
      (h : Widened c l m) : Widened c (x :: l) (x :: m)
  | outside {x : Timestamp × SessionStep} {l m : Schedule} (hx : x.2.Outside c)
      (h : Widened c l m) : Widened c l (x :: m)

/-- The logs that the exchange uses or can be started with. -/
inductive Uses (c : Scope) (s : Session) (log : AccessLog) : Prop
  | named {name : String} (hn : name ∈ c.logs) (h : s.logs.get? name = some log)
  | used {flight : Flight} (h : s.flights.get? c.exchange = some flight) (hl : flight.log = log)

/-- None of these logs reads the clock at any moment of a run. -/
def ClockFree (c : Scope) (s : Session) : Schedule → Prop
  | [] => True
  | (now, x) :: l =>
      (∀ log, c.Uses s log → log.ReadsNoClock s.registry) ∧ c.ClockFree (s.step now x).session l

/-- Two sessions with the same in a scope: the tokens, the names of the logs, and the lines of these
logs, which depend on the tokens of the scope alone. -/
structure Agrees (c : Scope) (s s' : Session) : Prop where
  tokens : ∀ name ∈ c.tokens, s'.registry.tokens.get? name = s.registry.tokens.get? name
  logs : ∀ name ∈ c.logs, s'.logs.get? name = s.logs.get? name
  lines : ∀ log, c.Uses s log → ∃ line, s.registry.lines[log.builder]? = some line ∧
    s'.registry.lines[log.builder]? = some line ∧ line.DependsOn c.tokens

variable {c : Scope} {s s' : Session} {x : SessionStep} {log : AccessLog} {l m : Schedule}

theorem Uses.holds (h : c.Uses s log) : s.Holds log := by
  cases h with
  | named _ h => exact .named h
  | used h hl => exact .used h hl

/-- No step of the scope brings in a log that it did not have. -/
theorem Uses.of_step (hx : x.Within c) {now : Timestamp} (h : c.Uses (s.step now x).session log) :
    c.Uses s log := by
  obtain @⟨name, hn, h⟩ | @⟨flight, h, rfl⟩ := h
  · by_cases hl : x.logName? = some name
    · obtain ⟨source, hsource, rfl⟩ := hx.log name hn hl
      rw [Session.get?_logs_clone] at h
      obtain h | ⟨-, h⟩ := Option.or_eq_some_iff.mp h
      · exact .named hsource h
      · exact .named hn h
    · rw [Session.get?_logs_step_of_ne hl] at h
      exact .named hn h
  · by_cases he : x.exchange? = some c.exchange
    · rw [Session.step_eq_turn he, Session.take, Table.get?_put_self] at h
      obtain h | ⟨source, _, _, hs, hl, -⟩ | ⟨earlier, k, hf, rfl⟩ := SessionStep.flight_of_turn h
      · exact .used h rfl
      · exact .named (hx.start he source hs) hl
      · exact .used hf rfl
    · rw [Session.get?_flights_of_ne he] at h
      exact .used h rfl

/-- A session agrees with itself in a scope that has the tokens of its lines. -/
theorem Agrees.refl (hs : s.Numbered) (hd : ∀ log line, c.Uses s log →
    s.registry.lines[log.builder]? = some line → line.DependsOn c.tokens) : c.Agrees s s where
  tokens _ _ := rfl
  logs _ _ := rfl
  lines log hu := by
    have hlt : log.builder < s.registry.lines.length := by simpa using hs.builder hu.holds
    have hline := List.getElem?_eq_getElem hlt
    exact ⟨_, hline, hline, hd log _ hu hline⟩

theorem Agrees.outside (h : c.Agrees s s') (hx : x.Outside c) (now : Timestamp) :
    c.Agrees s (s'.step now x).session where
  tokens name hn := by
    rw [← h.tokens name hn, Session.tokens_step]
    cases x with
    | token n t =>
        have hne : name ≠ n := fun e => hx.token name hn t (e ▸ rfl)
        by_cases he : n = ""
        · simp [SessionStep.act?, RegistryAct.registered?, he]
        · simp [SessionStep.act?, RegistryAct.registered?, he, Table.get?_insert_of_ne hne]
    | _ => rfl
  logs name hn := by rw [Session.get?_logs_step_of_ne (hx.log name hn), h.logs name hn]
  lines log hu := by
    obtain ⟨line, hl, hl', hd⟩ := h.lines log hu
    exact ⟨line, hl, Session.getElem?_lines_run [(now, x)] hl', hd⟩

theorem Agrees.within (h : c.Agrees s s') (hx : x.Within c) (now now' : Timestamp) :
    c.Agrees (s.step now x).session (s'.step now' x).session where
  tokens name hn := by
    rw [Session.tokens_step, Session.tokens_step]
    cases x.act?.bind RegistryAct.registered? with
    | none => exact h.tokens name hn
    | some e => simp only [Option.elim_some, Table.get?_insert, h.tokens name hn]
  logs name hn := by
    by_cases hl : x.logName? = some name
    · obtain ⟨source, hsource, rfl⟩ := hx.log name hn hl
      rw [Session.get?_logs_clone, Session.get?_logs_clone, h.logs source hsource, h.logs name hn]
    · rw [Session.get?_logs_step_of_ne hl, Session.get?_logs_step_of_ne hl, h.logs name hn]
  lines log hu := by
    obtain ⟨line, hl, hl', hd⟩ := h.lines log (hu.of_step hx)
    exact ⟨line, Session.getElem?_lines_run [(now, x)] hl,
      Session.getElem?_lines_run [(now', x)] hl', hd⟩

theorem Agrees.render (h : c.Agrees s s') (hu : c.Uses s log) (request : RequestView)
    (response : ResponseView) :
    (s'.registry.render log.builder request response).1 =
      (s.registry.render log.builder request response).1 := by
  obtain ⟨line, hl, hl', hd⟩ := h.lines log hu
  have hline : line s'.registry.tokens = line s.registry.tokens := hd _ _ h.tokens
  simp only [Registry.render_eq, hl, hl', Option.map_some, hline]

theorem Agrees.readsNoClock (h : c.Agrees s s') (hu : c.Uses s log)
    (hr : log.ReadsNoClock s.registry) : log.ReadsNoClock s'.registry where
  skips := hr.skips
  line request response := by rw [h.render hu, h.render hu, hr.line]

/-- What a turn tells a log of the scope is seen in the same way. -/
theorem Agrees.effects (h : c.Agrees s s') {t : Turn}
    (ht : ∀ told, t.told = some told → c.Uses s told.1) :
    t.effects s'.registry = t.effects s.registry := by
  unfold Turn.effects
  cases he : t.told with
  | none => rfl
  | some told =>
      have heffects : told.1.effects s'.registry = told.1.effects s.registry := by
        funext n
        cases n with
        | emission request response =>
            simp only [AccessLog.effects, AccessLog.emission, h.render (ht told he)]
        | _ => rfl
      simp only [Option.elim_some, heffects]

theorem uses_of_told {now : Timestamp} {told : AccessLog × List Notice}
    (h : (s.turn c.exchange now x).told = some told) : c.Uses s told.1 := by
  obtain ⟨flight, k, hf, rfl⟩ := SessionStep.exists_of_told h
  exact .used hf rfl

theorem Agrees.turn_eq (h : c.Agrees s s') (hx : x.Within c) (he : x.exchange? = some c.exchange)
    (now : Timestamp) :
    s'.turn c.exchange now x =
      x.turn s.logs (s'.flights.get? c.exchange) now :=
  SessionStep.turn_congr fun source hs => h.logs source (hx.start he source hs)

/-- Steps that are put in outside of a scope are not noticed by its exchange. -/
theorem Agrees.share_eq (hw : c.Widened l m) (h : c.Agrees s s')
    (hf : s'.flights.get? c.exchange = s.flights.get? c.exchange) :
    s'.share (some c.exchange) m = s.share (some c.exchange) l := by
  induction hw generalizing s s' with
  | nil => rfl
  | @outside x l m hx _ ih =>
      rw [Session.share_cons, if_neg hx.exchange, List.nil_append]
      apply ih (h.outside hx x.1)
      rw [Session.get?_flights_of_ne hx.exchange, hf]
  | @within x l m hx _ ih =>
      have htail := ih (h.within hx x.1 x.1)
      rw [Session.share_cons, Session.share_cons]
      by_cases he : x.2.exchange? = some c.exchange
      · have hturn : s'.turn c.exchange x.1 x.2 = s.turn c.exchange x.1 x.2 := by
          rw [h.turn_eq hx he, hf]
          rfl
        have hseen : (s'.step x.1 x.2).seen = (s.step x.1 x.2).seen := by
          rw [Session.step_eq_turn he, Session.step_eq_turn he, hturn]
          simp only [SessionOutcome.seen, h.effects fun _ => uses_of_told]
        rw [hseen, htail]
        rw [Session.step_eq_turn he, Session.step_eq_turn he, hturn, Session.take, Session.take,
          Table.get?_put_self, Table.get?_put_self]
      · rw [if_neg he, if_neg he, htail]
        rw [Session.get?_flights_of_ne he, Session.get?_flights_of_ne he, hf]

theorem Agrees.turn_timeless (h : c.Agrees s s') (hx : x.Within c)
    (he : x.exchange? = some c.exchange) (hf : (s'.flights.get? c.exchange).map Flight.timeless =
      (s.flights.get? c.exchange).map Flight.timeless) (now now' : Timestamp) :
    (s'.turn c.exchange now' x).timeless = (s.turn c.exchange now x).timeless := by
  rw [h.turn_eq hx he, ← SessionStep.turn_timeless, hf, SessionStep.turn_timeless]
  rfl

/-- A turn at other moments is seen in the same way but for the readings. -/
theorem Agrees.seen_timeless (h : c.Agrees s s') (he : x.exchange? = some c.exchange)
    {now now' : Timestamp}
    (ht : (s'.turn c.exchange now' x).timeless = (s.turn c.exchange now x).timeless)
    (hr : ∀ log, c.Uses s log → log.ReadsNoClock s.registry) :
    (s'.step now' x).seen.timeless = (s.step now x).seen.timeless := by
  have htold : ∀ told, (s.turn c.exchange now x).told = some told →
      told.1.ReadsNoClock s'.registry :=
    fun told h' => h.readsNoClock (uses_of_told h') (hr _ (uses_of_told h'))
  have htold' : ∀ told, (s'.turn c.exchange now' x).told = some told →
      told.1.ReadsNoClock s'.registry := by
    intro told h'
    have hmap := congrArg Turn.told ht
    simp only [Turn.timeless, h', Option.map_some] at hmap
    obtain ⟨told', h'', hlog⟩ := Option.map_eq_some_iff.mp hmap.symm
    have hsame : told'.1 = told.1 := (Prod.mk.inj hlog).1
    exact hsame ▸ htold told' h''
  have heffects : ((s'.turn c.exchange now' x).effects s'.registry).map Effect.timeless =
      ((s.turn c.exchange now x).effects s.registry).map Effect.timeless := by
    calc ((s'.turn c.exchange now' x).effects s'.registry).map Effect.timeless
        = (s'.turn c.exchange now' x).timeless.effects s'.registry :=
          (Turn.effects_timeless htold').symm
      _ = (s.turn c.exchange now x).timeless.effects s'.registry := by rw [ht]
      _ = ((s.turn c.exchange now x).effects s'.registry).map Effect.timeless :=
          Turn.effects_timeless htold
      _ = ((s.turn c.exchange now x).effects s.registry).map Effect.timeless := by
          rw [h.effects fun _ => uses_of_told]
  have hanswer : (s'.turn c.exchange now' x).answer = (s.turn c.exchange now x).answer :=
    (Turn.mk.inj ht).1
  rw [Session.step_eq_turn he, Session.step_eq_turn he]
  exact Prod.ext hanswer heffects

theorem seen_outline (he : x.exchange? = some c.exchange) {now now' : Timestamp}
    (ht : (s'.turn c.exchange now' x).timeless = (s.turn c.exchange now x).timeless) :
    (s'.step now' x).seen.outline = (s.step now x).seen.outline := by
  have heffects : ((s'.turn c.exchange now' x).effects s'.registry).map Effect.outline =
      ((s.turn c.exchange now x).effects s.registry).map Effect.outline := by
    rw [← Turn.effects_outline _ _ s.registry, ht, Turn.effects_outline]
  have hanswer : (s'.turn c.exchange now' x).answer = (s.turn c.exchange now x).answer :=
    (Turn.mk.inj ht).1
  rw [Session.step_eq_turn he, Session.step_eq_turn he]
  exact Prod.ext hanswer heffects

/-- Nor are the moments of the steps, but in what the lines have from the clock. -/
theorem Agrees.share_timeless (hw : c.Widened l m) (h : c.Agrees s s')
    (hf : (s'.flights.get? c.exchange).map Flight.timeless =
      (s.flights.get? c.exchange).map Flight.timeless) {m' : Schedule}
    (hm : m'.map Prod.snd = m.map Prod.snd) :
    (s'.share (some c.exchange) m').map Seen.outline =
        (s.share (some c.exchange) l).map Seen.outline ∧
      (c.ClockFree s l → (s'.share (some c.exchange) m').map Seen.timeless =
        (s.share (some c.exchange) l).map Seen.timeless) := by
  induction hw generalizing s s' m' with
  | nil =>
      obtain rfl := List.map_eq_nil_iff.mp hm
      exact ⟨rfl, fun _ => rfl⟩
  | @outside x l m hx _ ih =>
      obtain ⟨⟨now', _⟩, m', rfl, rfl, hrest⟩ := List.map_eq_cons_iff.mp hm
      rw [Session.share_cons, if_neg hx.exchange, List.nil_append]
      apply ih (h.outside hx now') _ hrest
      rw [Session.get?_flights_of_ne hx.exchange, hf]
  | @within x l m hx _ ih =>
      obtain ⟨⟨now', _⟩, m', rfl, rfl, hrest⟩ := List.map_eq_cons_iff.mp hm
      have hwithin : c.Agrees (s.step x.1 x.2).session (s'.step now' x.2).session :=
        h.within hx x.1 now'
      rw [Session.share_cons, Session.share_cons]
      by_cases he : x.2.exchange? = some c.exchange
      · have hturn := h.turn_timeless hx he hf x.1 now'
        have hflight : ((s'.step now' x.2).session.flights.get? c.exchange).map Flight.timeless =
            ((s.step x.1 x.2).session.flights.get? c.exchange).map Flight.timeless := by
          rw [Session.step_eq_turn he, Session.step_eq_turn he, Session.take, Session.take,
            Table.get?_put_self, Table.get?_put_self]
          exact congrArg Turn.flight? hturn
        obtain ⟨houtline, htimeless⟩ := ih hwithin hflight hrest
        rw [if_pos he, if_pos he]
        simp only [List.map_append, List.map_cons, List.map_nil]
        constructor
        · rw [houtline, seen_outline he hturn]
        · exact fun hc => by rw [htimeless hc.2, h.seen_timeless he hturn hc.1]
      · rw [if_neg he, if_neg he]
        have hflight : ((s'.step now' x.2).session.flights.get? c.exchange).map Flight.timeless =
            ((s.step x.1 x.2).session.flights.get? c.exchange).map Flight.timeless := by
          rw [Session.get?_flights_of_ne he, Session.get?_flights_of_ne he, hf]
        obtain ⟨houtline, htimeless⟩ := ih hwithin hflight hrest
        exact ⟨houtline, fun hc => htimeless hc.2⟩

end Scope

theorem AccessLog.emission_of_mem {log : AccessLog} {r : Registry} {n : Notice} {e : Emission}
    (h : .emission e ∈ log.effects r n) : e = log.emission r e.request e.response := by
  cases n with
  | emission request response =>
      obtain rfl := Effect.emission.inj (List.mem_singleton.mp h)
      rfl
  | called => cases h
  | headReady | bodyFailed | droppedEarly => cases List.mem_singleton.mp h

namespace Session

variable {s : Session} {x : SessionStep} {log : AccessLog}

theorem emission_not_mem_register {α : Type} {result : Except FormatError (Registered α)}
    {f : Session → α → SessionAnswer × Session} (e : Emission) :
    .emission e ∉ (s.register result f).effects := by
  unfold register
  cases result with
  | error => exact List.not_mem_nil
  | ok r =>
      intro h
      obtain ⟨_, -, h⟩ := List.mem_map.mp h
      cases h

/-- A step that is taken with no exchange emits nothing. -/
theorem emission_not_mem_step (hx : x.exchange? = none) (now : Timestamp) (e : Emission) :
    .emission e ∉ (s.step now x).effects := by
  cases x with
  | token | format | resolve | renderFormat | log => exact emission_not_mem_register e
  | hasFormat | hasToken => exact List.not_mem_nil
  | renderBuilder n request response =>
      simp only [Session.step]
      split <;> exact List.not_mem_nil
  | clone name source =>
      simp only [Session.step]
      split <;> exact List.not_mem_nil
  | start | host => cases hx

/-- What is seen of a step that emits is what an exchange tells its log. -/
theorem exists_flight_of_emission {now : Timestamp} {e : Emission}
    (h : .emission e ∈ (s.step now x).effects) :
    ∃ name flight k, s.flights.get? name = some flight ∧
      (s.step now x).effects = (flight.told now k).2.flatMap (flight.log.effects s.registry) := by
  cases he : x.exchange? with
  | none => exact absurd h (emission_not_mem_step he now e)
  | some a =>
      rw [step_eq_turn he] at h ⊢
      simp only [Turn.effects] at h ⊢
      cases ht : (s.turn a now x).told with
      | none => simp [ht] at h
      | some told =>
          obtain ⟨flight, k, hf, rfl⟩ := SessionStep.exists_of_told ht
          exact ⟨a, flight, k, hf, rfl⟩

/-- What a step emits, a log of the session emits with the tokens that there are. -/
theorem exists_holds_of_emission {now : Timestamp} {e : Emission}
    (h : .emission e ∈ (s.step now x).effects) :
    ∃ log, s.Holds log ∧ e = log.emission s.registry e.request e.response := by
  obtain ⟨name, flight, k, hf, heffects⟩ := exists_flight_of_emission h
  rw [heffects] at h
  obtain ⟨n, -, hn⟩ := List.mem_flatMap.mp h
  exact ⟨flight.log, .used hf rfl, AccessLog.emission_of_mem hn⟩

/-- Whenever a log emits a line, this is what its line builder writes with the tokens of that
moment. -/
theorem Numbered.line_of_emission (hs : s.Numbered) (hl : s.Holds log) {line : LineFunction}
    (hb : s.registry.lines[log.builder]? = some line) (l : Schedule) (now : Timestamp)
    {e : Emission} (h : .emission e ∈ ((s.run l).2.step now x).effects) (he : e.log = log.serial) :
    e.sink = log.sink ∧ e.line =
      if log.skips e.request e.response then none
      else some (line (s.run l).2.registry.tokens e.request e.response) := by
  obtain ⟨log', hl', hem⟩ := exists_holds_of_emission h
  have hserial : log'.serial = log.serial := by
    rw [← he, hem]
    rfl
  obtain rfl := hs.eq_of_serial hl hl' hserial
  have hline := getElem?_lines_run l hb
  constructor
  · rw [hem]
    rfl
  · rw [hem]
    simp only [AccessLog.emission, Registry.render_eq, hline, Option.map_some, Option.getD_some]

/-- A log binds its format when it is built and its tokens when a line is due.

Whatever else is put into a session after its logs were built, an exchange with these logs answers
and shows the same in every step, as long as none of it registers a token that the lines of the logs
depend on. If the steps take place at other moments, they still answer the same and the same lines
are due; and if the logs read no clock, these lines are the same.

Every line of a log is what its line builder, as it was when the log was built, writes with the
tokens that are registered at the step that emits it. If the line builder is made of templates, it
depends on the tokens that these name and on no others.

What has been seen is not changed by anything that comes later. -/
theorem formats_early_tokens_late (before : Schedule) :
    let s := (run {} before).2
    (∀ (c : Scope) (l m : Schedule), c.Widened l m →
      (∀ log line, c.Uses s log → s.registry.lines[log.builder]? = some line →
        line.DependsOn c.tokens) →
      s.share (some c.exchange) m = s.share (some c.exchange) l ∧
        ∀ m' : Schedule, m'.map Prod.snd = m.map Prod.snd →
          (s.share (some c.exchange) m').map Seen.outline =
              (s.share (some c.exchange) l).map Seen.outline ∧
            (c.ClockFree s l → (s.share (some c.exchange) m').map Seen.timeless =
              (s.share (some c.exchange) l).map Seen.timeless)) ∧
      (∀ log, s.Holds log → ∃ b, s.registry.builders[log.builder]? = some b ∧
        (b.templates?.isSome = true → b.line.DependsOn {name | name ∈ b.tokenNames}) ∧
        ∀ (l : Schedule) (now : Timestamp) (x : SessionStep) (e : Emission),
          let s' := (s.run l).2
          .emission e ∈ (s'.step now x).effects → e.log = log.serial →
            e.sink = log.sink ∧ e.line =
              if log.skips e.request e.response then none
              else some (b.line s'.registry.tokens e.request e.response)) ∧
      ∀ l later : Schedule, (s.run l).1 <+: (s.run (l ++ later)).1 := by
  intro s
  have hs : s.Numbered := numbered_run before
  refine ⟨?widened, ?lines, ?seen⟩
  case widened =>
    intro c l m hw hd
    have h : c.Agrees s s := .refl hs hd
    exact ⟨h.share_eq hw rfl, fun m' hm => h.share_timeless hw rfl hm⟩
  case lines =>
    intro log hl
    obtain ⟨b, hb⟩ : ∃ b, s.registry.builders[log.builder]? = some b :=
      ⟨_, List.getElem?_eq_getElem (hs.builder hl)⟩
    have hline : s.registry.lines[log.builder]? = some b.line := by
      rw [Registry.lines, List.getElem?_map, hb, Option.map_some]
    refine ⟨b, hb, LineBuilder.dependsOn_tokenNames, ?_⟩
    intro l now x e s' he hlog
    exact hs.line_of_emission hl hline l now he hlog
  case seen =>
    intro l later
    rw [run_append]
    exact List.prefix_append _ _

/-- An exchange goes on while the format of its log gets another meaning. -/
theorem formats_early_tokens_late_redefined :
    let s := (run {} [(⟨0, 0⟩, .log "l" { format := "tiny" })]).2
    let begun : SessionStep := .start "a" "l" {} trailing
    s.share (some "a") ([.format "tiny" (.template ":url"), begun, .log "m" { format := "tiny" },
        .host "a" .poll, .resolve ":nope", .host "a" .drop].map (⟨1, 0⟩, ·)) =
      s.share (some "a") ([begun, .host "a" .poll, .host "a" .drop].map (⟨1, 0⟩, ·)) := by
  intro s begun
  let c : Scope := { exchange := "a", logs := {"l"} }
  have hwithin {x : SessionStep} (hl : x.logName? = none)
      (hs : ∀ source, x.source? = some source → source = "l") : x.Within c :=
    ⟨fun _ => hs, fun _ _ h => absurd (hl.symm.trans h) (by simp)⟩
  have houtside {x : SessionStep} (he : x.exchange? = none) (hl : x.logName? ≠ some "l")
      (ht : ∀ name t, x ≠ .token name t) : x.Outside c := by
    refine ⟨by simp [he], ?_, fun name _ => ht name⟩
    rintro _ rfl
    exact hl
  refine ((formats_early_tokens_late _).1 c _ _ ?_ fun _ line _ _ => line.dependsOn_univ).1
  exact .outside (houtside rfl (by decide) (by simp)) <|
    .within (hwithin rfl (by simp [begun, SessionStep.source?])) <|
    .outside (houtside rfl (by decide) (by simp)) <|
    .within (hwithin rfl (by simp [SessionStep.source?])) <|
    .outside (houtside rfl (by decide) (by simp)) <|
    .within (hwithin rfl (by simp [SessionStep.source?])) .nil

end Session

end AccessLine
