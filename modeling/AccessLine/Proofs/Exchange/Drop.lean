import AccessLine.Proofs.Exchange.Settlement

/-!
# Dropping a body at its end

Whether a body is at its end is looked at when it is wrapped and after each part. It can come there
at other moments as well: in a poll that stays pending, or by its source between two polls. A body
that is dropped then was not cut short, and its line is given up all the same.
-/
namespace AccessLine

open Http

/-- No poll in this past has settled a line. -/
def Body.Unsettled (b : Body) : BodyPast → Prop
  | [] => True
  | .polled :: past => b.settles past = false ∧ b.Unsettled past
  | .fed :: past => b.Unsettled past

namespace Exchange

/-- The exchange is one of this request and handler, and no poll has settled a line that is still
owed. -/
def Tracks (request : Request) (handler : Handler) : Exchange → Prop
  | .waiting r h => r = request ∧ h = handler
  | .handling _ reply _ => reply = handler.reply request
  | .answered b => b.inner = (handler.reply request).body ∧
      (b.isPending = true → b.inner.Unsettled b.past)
  | .gone => True

variable {request : Request} {handler : Handler}

theorem tracks_handle (view : RequestView) (delay : Nat) :
    (handle false view (handler.reply request) delay).exchange.Tracks request handler := by
  cases delay with
  | succ delay => rfl
  | zero => exact ⟨rfl, fun _ => trivial⟩

theorem tracks_poll {b : LoggedBody} (hb : (Exchange.answered b).Tracks request handler)
    (now : Timestamp) : (Exchange.answered (b.poll now).2.1).Tracks request handler := by
  obtain ⟨hi, hu⟩ := hb
  refine ⟨by rw [LoggedBody.inner_poll, hi], ?_⟩
  intro hp
  rw [LoggedBody.isPending_poll, Bool.and_eq_true, Bool.not_eq_true'] at hp
  rw [LoggedBody.inner_poll, LoggedBody.past_poll]
  exact ⟨b.settlesNext_eq ▸ hp.2, hu hp.1⟩

theorem tracks_step {e : Exchange} (he : e.Tracks request handler) (now : Timestamp)
    (h : HostStep) : (e.step false now h).exchange.Tracks request handler := by
  cases e with
  | waiting r handler' =>
      obtain ⟨rfl, rfl⟩ := he
      cases h with
      | poll => exact tracks_handle _ _
      | frame | info | wait => exact ⟨rfl, rfl⟩
      | drop => exact trivial
  | handling view reply delay =>
      obtain rfl := he
      cases h with
      | poll => exact tracks_handle view delay
      | frame | info | wait => exact rfl
      | drop => exact trivial
  | answered b =>
      cases h with
      | poll | info | wait => exact he
      | frame => exact tracks_poll he now
      | drop => exact trivial
  | gone => cases h <;> exact trivial

theorem tracks_run (s : Script) {e : Exchange} (he : e.Tracks request handler) :
    (run false e s).2.1.Tracks request handler := by
  induction s generalizing e with
  | nil => exact he
  | cons x s ih =>
      obtain ⟨now, h⟩ := x
      exact ih (tracks_step he now h)

/-- A poll that does not settle a line and leaves the body at its end stays pending. -/
theorem answer_eq_pending {b : Body} {past : BodyPast} (hs : b.settles past = false)
    (he : b.atEnd (.polled :: past) = true) : b.answer past = .pending := by
  cases ha : b.answer past with
  | pending => rfl
  | data | trailers => simp [Body.settles, ha, he, BodyAnswer.isFrame] at hs
  | failed | ended => simp [Body.settles, ha, BodyAnswer.isFailure] at hs

theorem run_polls (start : Timestamp) (view : RequestView) (reply : Reply) (delay : Nat) :
    (run false (.handling view reply delay) (List.replicate (delay + 1) (start, .poll))).2.1 =
      .answered (.owing view reply) := by
  induction delay with
  | zero => rfl
  | succ delay ih => exact ih

/-- Every past that settles nothing can come about while the line is owed. -/
theorem exists_script (request : Request) (handler : Handler) {past : BodyPast}
    (hu : (handler.reply request).body.Unsettled past) :
    ∃ (s : Script) (view : RequestView),
      (run false (.waiting request handler) s).2.1 =
        .answered { LoggedBody.owing view (handler.reply request) with past } := by
  let start : Timestamp := ⟨0, 0⟩
  induction past with
  | nil =>
      exact ⟨List.replicate (handler.delay request + 1) (start, .poll), request.viewAt start,
        run_polls start (request.viewAt start) (handler.reply request) (handler.delay request)⟩
  | cons move past ih =>
      cases move with
      | polled =>
          obtain ⟨hs, hu⟩ := hu
          obtain ⟨s, view, hr⟩ := ih hu
          refine ⟨s ++ [(start, .frame)], view, ?_⟩
          have hp := LoggedBody.poll_of_not_settles
            (b := { LoggedBody.owing view (handler.reply request) with past }) hs start
          rw [run_append, hr, run_cons, run_nil]
          simp only [step, hp]
      | fed =>
          obtain ⟨s, view, hr⟩ := ih hu
          refine ⟨s ++ [(start, .wait)], view, ?_⟩
          rw [run_append, hr]
          rfl

/-- Whenever the body is dropped with its line owed and says that it is at its end, the line is
emitted. -/
def CompletesAtEnd (request : Request) (handler : Handler) : Prop :=
  ∀ (s : Script) (asked now : Timestamp) (hint : SizeHint),
    let e := (run false (.waiting request handler) s).2.1
    e.owes = true → (e.step false asked .info).answer = .info true hint →
      ∃ view response, .emission view response ∈ (e.step false now .drop).notices

theorem notices_drop {s : Script} (ho : (run false (.waiting request handler) s).2.1.owes = true)
    (now : Timestamp) :
    ((run false (.waiting request handler) s).2.1.step false now .drop).notices =
      (if (handler.reply request).Bodyless request.method then Fate.due now
        else .cutShort).notices
        (owedBy { request with received := s.arrival? } (handler.reply request)) := by
  rw [(run_of_waiting request handler s).1] at ho
  have hf := of_decide_eq_true ho
  rw [notices_step_of_owed hf, Fate.of_append_drop hf]

theorem exists_answered {e : Exchange} {asked : Timestamp} {hint : SizeHint}
    (h : (e.step false asked .info).answer = .info true hint) :
    ∃ b, e = .answered b ∧ b.atEnd = true := by
  cases e with
  | answered b => exact ⟨b, rfl, (HostAnswer.info.inj h).1⟩
  | _ => cases h

/-- A body whose line is still owed has come so far without settling it. -/
theorem unsettled_of_atEnd {s : Script} {asked : Timestamp} {hint : SizeHint}
    (ho : (run false (.waiting request handler) s).2.1.owes = true)
    (ha : ((run false (.waiting request handler) s).2.1.step false asked .info).answer =
      .info true hint) :
    ∃ b, (run false (.waiting request handler) s).2.1 = .answered b ∧
      (handler.reply request).body.Unsettled b.past ∧
      (handler.reply request).body.atEnd b.past = true := by
  obtain ⟨b, hr, he⟩ := exists_answered ha
  have ht : (Exchange.answered b).Tracks request handler := by
    rw [← hr]
    exact tracks_run s ⟨rfl, rfl⟩
  rw [hr] at ho
  obtain ⟨hi, hu⟩ := ht
  rw [LoggedBody.atEnd, hi] at he
  rw [hi] at hu
  exact ⟨b, hr, hu ho, he⟩

/-- It came to its end neither as it was wrapped nor with a part. -/
theorem exists_move_of_atEnd {reply : Reply} {method : Method} {past : BodyPast}
    (hb : ¬reply.Bodyless method) (hu : reply.body.Unsettled past)
    (he : reply.body.atEnd past = true) :
    ∃ move before, past = move :: before ∧
      (move = .polled → reply.body.answer before = .pending) := by
  cases past with
  | nil => exact absurd (.inl he) hb
  | cons move before =>
      refine ⟨move, before, rfl, ?_⟩
      rintro rfl
      exact answer_eq_pending hu.1 he

theorem completesAtEnd_of_bodyless (hb : (handler.reply request).Bodyless request.method) :
    CompletesAtEnd request handler := by
  intro s asked now hint e ho _
  have hn := notices_drop ho now
  rw [if_pos hb] at hn
  rw [hn]
  exact ⟨_, _, List.mem_singleton.mpr rfl⟩

/-- A host that drops the body at its end loses the line if the end was not looked for. -/
theorem not_completesAtEnd {past : BodyPast} (hb : ¬(handler.reply request).Bodyless request.method)
    (hu : (handler.reply request).body.Unsettled past)
    (he : (handler.reply request).body.atEnd past = true) : ¬CompletesAtEnd request handler := by
  intro hc
  obtain ⟨s, view, hr⟩ := exists_script request handler hu
  have ho : (run false (.waiting request handler) s).2.1.owes = true := by
    rw [hr]
    rfl
  have ha : ((run false (.waiting request handler) s).2.1.step false ⟨0, 0⟩ .info).answer =
      .info true ((handler.reply request).body.sizeHint past) := by
    rw [hr]
    exact congrArg (HostAnswer.info · _) he
  obtain ⟨_, _, hm⟩ := hc s ⟨0, 0⟩ ⟨0, 0⟩ _ ho ha
  rw [notices_drop ho, if_neg hb] at hm
  simp [Fate.notices] at hm

/-- A drop at the end emits the line exactly if there was nothing to send from the start. Else it is
given up, although the body is at its end: its last poll stayed pending, or its source has worked on
since. So no line is lost like this if and only if a body that has something to send is never at its
end before a poll has settled its line. -/
theorem completesAtEnd_iff (log : AccessLog) (r : Registry) (request : Request)
    (handler : Handler) :
    let reply := handler.reply request
    (∀ (s : Script) (asked now : Timestamp) (hint : SizeHint),
        let e := (run false (.waiting request handler) s).2.1
        let view : RequestView := { request with received := s.arrival? }
        e.owes = true → (e.step false asked .info).answer = .info true hint →
          (log.notifyAll r (e.step false now .drop).notices).1.filterMap Effect.emission? =
              (if reply.Bodyless request.method then
                [log.emission r view { head := some reply.head, finished := some now }]
              else []) ∧
            (¬reply.Bodyless request.method →
              (e.step false now .drop).notices = [.droppedEarly view] ∧
                ∃ b move before, e = .answered b ∧ b.past = move :: before ∧
                  (move = .polled → reply.body.answer before = .pending))) ∧
      (CompletesAtEnd request handler ↔
        reply.Bodyless request.method ∨
          ∀ past, reply.body.Unsettled past → reply.body.atEnd past = false) := by
  intro reply
  constructor
  · intro s asked now hint e view ho ha
    have hn := notices_drop ho now
    by_cases hb : reply.Bodyless request.method
    · rw [if_pos hb] at hn
      rw [hn, if_pos hb]
      exact ⟨log.emissions_fate r _ _, fun h => absurd hb h⟩
    · rw [if_neg hb] at hn
      rw [hn, if_neg hb]
      obtain ⟨b, hr, hu, he⟩ := unsettled_of_atEnd ho ha
      obtain ⟨move, before, hp, hmove⟩ := exists_move_of_atEnd hb hu he
      exact ⟨log.emissions_fate r _ _, fun _ => ⟨rfl, b, move, before, hr, hp, hmove⟩⟩
  · constructor
    · intro hc
      by_cases hb : reply.Bodyless request.method
      · exact .inl hb
      · right
        intro past hu
        cases he : reply.body.atEnd past with
        | false => rfl
        | true => exact absurd hc (not_completesAtEnd hb hu he)
    · rintro (hb | hc)
      · exact completesAtEnd_of_bodyless hb
      · intro s asked now hint e ho ha
        obtain ⟨b, -, hu, he⟩ := unsettled_of_atEnd ho ha
        rw [hc b.past hu] at he
        cases he

/-- A handler whose body is brought to its end by its source alone. -/
def closedBySource : Handler where
  delay _ := 0
  reply _ :=
    { head := { status := .ok }
      body :=
        { answer := fun past => if .fed ∈ past then .ended else .pending
          atEnd := fun past => .fed ∈ past
          sizeHint := fun _ => {} } }

-- It takes no poll to lose a line.
example :
    let e := (run false (.waiting {} closedBySource) ([.poll, .wait].map (⟨0, 0⟩, ·))).2.1
    (e.step false ⟨0, 0⟩ .info).answer = .info true {} ∧
      (e.step false ⟨0, 0⟩ .drop).notices = [.droppedEarly (Request.viewAt {} ⟨0, 0⟩)] :=
  ⟨rfl, rfl⟩

/-- A handler whose body comes to its end in a poll that stays pending. -/
def lateEnd : Handler where
  delay _ := 0
  reply _ := { head := { status := .ok }, body := .scripted [.pending] .exact {} }

theorem not_completesAtEnd_lateEnd : ¬CompletesAtEnd {} lateEnd := by
  intro h
  let t : Timestamp := ⟨0, 0⟩
  obtain ⟨view, response, hm⟩ := h [(t, .poll), (t, .frame)] t t {} rfl rfl
  have hn : ((run false (.waiting {} lateEnd) [(t, .poll), (t, .frame)]).2.1.step false t
      .drop).notices = [.droppedEarly (Request.viewAt {} t)] := rfl
  rw [hn] at hm
  simp at hm

end Exchange

end AccessLine
