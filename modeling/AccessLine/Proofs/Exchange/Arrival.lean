import AccessLine.Proofs.Registry.Lines

/-!
# Lines on arrival

In immediate mode the line of an exchange is due at the first poll, before the handler is called.
Nothing is known of the response then, so nothing the handler does can show in the line, and its
body owes nothing from the start.
-/
namespace AccessLine

open Http

namespace Script

variable (now : Timestamp) (s : Script)

theorem arrival?_cons_poll : arrival? ((now, .poll) :: s) = some now := by
  simp [arrival?, times_cons_self]

theorem arrival?_cons_of_ne {h : HostStep} (hd : h ≠ .drop) (hp : h ≠ .poll) :
    arrival? ((now, h) :: s) = arrival? s := by
  rw [arrival?, times_cons_of_ne _ _ _ _ hd hp, arrival?]

/-- A step is the first poll of a script, or the request has come before or not at all. -/
theorem arrival?_append_singleton (h : HostStep) :
    arrival? (s ++ [(now, h)]) =
      if s.arrival? = none ∧ s.dropTime? = none ∧ h = .poll then some now else s.arrival? := by
  induction s with
  | nil => cases h <;> simp [arrival?, dropTime?, times]
  | cons x s ih =>
      obtain ⟨t, step⟩ := x
      rw [List.cons_append]
      cases step with
      | poll => simp [arrival?_cons_poll]
      | drop => simp [arrival?, dropTime?]
      | frame | info | wait =>
          rw [arrival?_cons_of_ne _ _ (by decide) (by decide),
            arrival?_cons_of_ne _ _ (by decide) (by decide), dropTime?_cons _ _ _ (by decide), ih]

end Script

namespace Exchange

/-- A handler at work owes nothing in immediate mode, and neither does its body. -/
theorem run_handling_immediate (s : Script) (view : RequestView) (reply : Reply) (delay : Nat) :
    (run true (.handling view reply delay) s).2.1.owes = false ∧
      (run true (.handling view reply delay) s).2.2 = [] := by
  induction s generalizing delay with
  | nil => exact ⟨rfl, rfl⟩
  | cons x s ih =>
      obtain ⟨now, h⟩ := x
      cases h with
      | frame | info | wait => exact ih delay
      | drop =>
          have hr := run_gone true s
          rw [run_cons]
          simp [step, hr.1, hr.2, owes]
      | poll =>
          cases delay with
          | zero => exact run_answered_of_owed_none true s (b := .passing reply) rfl
          | succ delay => exact ih delay

/-- The notices of an exchange whose line is written on arrival. -/
def arrivals (request : Request) (s : Script) : List Notice :=
  match s.arrival? with
  | none => []
  | some start => [.emission { request with received := some start } {}, .called request]

theorem run_immediate (request : Request) (handler : Handler) (s : Script) :
    (run true (.waiting request handler) s).2.1.owes = false ∧
      (run true (.waiting request handler) s).2.2 = arrivals request s := by
  induction s with
  | nil => exact ⟨rfl, rfl⟩
  | cons x s ih =>
      obtain ⟨now, h⟩ := x
      cases h with
      | frame | info | wait =>
          simp only [arrivals] at ih ⊢
          rw [Script.arrival?_cons_of_ne _ _ (by decide) (by decide)]
          exact ih
      | drop =>
          have hr := run_gone true s
          simp [arrivals, Script.arrival?, run_cons, step, hr.1, hr.2, owes]
      | poll =>
          obtain ⟨ho, hn⟩ := run_handling_immediate ((now, .poll) :: s) (request.viewAt now)
            (handler.reply request) (handler.delay request)
          simp only [arrivals, Script.arrival?_cons_poll]
          refine ⟨ho, ?_⟩
          rw [run_cons] at hn ⊢
          simpa [step, arrival, Request.viewAt, ResponseView.pending] using hn

/-- A step gives notice only if it is the first poll. -/
theorem notices_step_immediate (request : Request) (handler : Handler) (s : Script)
    (now : Timestamp) (h : HostStep) :
    ((run true (.waiting request handler) s).2.1.step true now h).notices =
      if s.arrival? = none ∧ s.dropTime? = none ∧ h = .poll then
        [.emission { request with received := some now } {}, .called request]
      else [] := by
  have hn := (run_immediate request handler (s ++ [(now, h)])).2
  rw [run_append, run_cons, run_nil, List.append_nil, (run_immediate request handler s).2] at hn
  simp only [arrivals, Script.arrival?_append_singleton] at hn
  by_cases hf : s.arrival? = none ∧ s.dropTime? = none ∧ h = .poll
  · simpa [hf] using hn
  · simpa only [hf, if_false, List.append_right_eq_self] using hn

/-- The trace of an exchange whose line is written on arrival. Its log emits once, at the first poll
and before the handler is called, with the time of the request and a response of which nothing is
known. Without a poll it never emits. No other step gives notice of anything, and no line is ever
owed. Any other handler leads to the same line, or leaves it out likewise, whatever its host does
after the same arrival. -/
theorem line_on_arrival (log : AccessLog) (hl : log.immediate = true) (r : Registry)
    (request : Request) (handler : Handler) (s : Script) :
    let out := run log.immediate (.waiting request handler) s
    let effects := (log.notifyAll r out.2.2).1
    out.2.2 = arrivals request s ∧
      effects = (s.arrival?.map fun start =>
        .emission (log.emission r { request with received := some start }
          { head := none, finished := none })).toList ∧
      out.2.1.owes = false ∧
      (∀ now h, (out.2.1.step log.immediate now h).notices =
        if s.arrival? = none ∧ s.dropTime? = none ∧ h = .poll then
          [.emission { request with received := some now } { head := none, finished := none },
            .called request]
        else []) ∧
      ∀ (handler' : Handler) (s' : Script) (r' : Registry), s'.arrival? = s.arrival? →
        r'.tokens = r.tokens → r'.lines[log.builder]? = r.lines[log.builder]? →
        (log.notifyAll r' (run log.immediate (.waiting request handler') s').2.2).1 = effects := by
  intro out effects
  have hrun (handler : Handler) (s : Script) :
      (run log.immediate (.waiting request handler) s).2.1.owes = false ∧
        (run log.immediate (.waiting request handler) s).2.2 = arrivals request s := by
    rw [hl]
    exact run_immediate request handler s
  have heffects (r : Registry) (s : Script) :
      (log.notifyAll r (arrivals request s)).1 = (s.arrival?.map fun start =>
        Effect.emission (log.emission r { request with received := some start } {})).toList := by
    rw [AccessLog.notifyAll_eq]
    cases ha : s.arrival? <;> simp [arrivals, ha, AccessLog.effects]
  obtain ⟨ho, hn⟩ := hrun handler s
  have hs : effects = _ := (congrArg (fun ns => (log.notifyAll r ns).1) hn).trans (heffects r s)
  refine ⟨hn, hs, ho, ?_, ?_⟩
  · intro now h
    simp only [out, hl]
    exact notices_step_immediate request handler s now h
  · intro handler' s' r' ha ht hb
    rw [(hrun handler' s').2, hs, heffects, ha]
    simp only [AccessLog.emission, Registry.render_eq, ht, hb]

/-- A handler that waits for one poll and answers with a body that fails. -/
def failing : Handler where
  delay _ := 1
  reply _ :=
    { head := { status := { code := 500 } },
      body := .scripted [.data [97], .failed "reset"] .exact {} }

theorem line_on_arrival_failing :
    let log : AccessLog := { serial := 0, builder := 0, immediate := true }
    let s : Script := [.poll, .poll, .frame, .frame, .drop].map (⟨3, 0⟩, ·)
    log.immediate = true ∧
      (log.notifyAll .standard (run log.immediate (.waiting {} failing) s).2.2).1.filterMap
          Effect.line? = [] ∧
      (log.notifyAll .standard (run log.immediate (.waiting {} failing) s).2.2).1.filterMap
          Effect.event? = [.line "\x1b[0mGET / \x1b[0m- \x1b[0m- ms - -\x1b[0m"] := by
  intro log s
  obtain ⟨-, he, -⟩ := line_on_arrival log rfl .standard {} failing s
  have hline : (log.emission .standard { received := some ⟨3, 0⟩ } {}).line =
      some "\x1b[0mGET / \x1b[0m- \x1b[0m- ms - -\x1b[0m" := by decide +kernel
  refine ⟨rfl, ?_, ?_⟩
  · rw [he]
    rfl
  · rw [he]
    change ((log.emission .standard { received := some ⟨3, 0⟩ } {}).line.map Event.line).toList = _
    rw [hline]
    rfl

end Exchange

end AccessLine
