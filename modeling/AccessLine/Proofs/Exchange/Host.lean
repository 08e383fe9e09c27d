import AccessLine.Proofs.Exchange.Settlement

/-!
# Hosts that follow the message rules

Such a host drops a body unpolled if the response is sent without one or the body says at once that
it is at its end. It polls any other body up to its end. What it may do is laid down on the steps it
takes and the answers it sees, so that it knows neither the log nor the body from inside. With such
a host every answered exchange is completed, but for successful answers to `CONNECT`.
-/
namespace AccessLine

open Http

/-- What a host does, with the answers that it sees. -/
abbrev Dialogue :=
  List (HostStep × HostAnswer)

namespace Dialogue

/-- The host drops the body. It may ask again before, or wait. -/
inductive Dropping : Dialogue → Prop
  | drop : Dropping [(.drop, .dropped)]
  | info {atEnd hint d} : Dropping d → Dropping ((.info, .info atEnd hint) :: d)
  | wait {d} : Dropping d → Dropping ((.wait, .pending) :: d)

/-- The host polls until the end, or until a part after which the body is at its end. -/
inductive Sending : Dialogue → Prop
  | info {atEnd hint d} : Sending d → Sending ((.info, .info atEnd hint) :: d)
  | wait {d} : Sending d → Sending ((.wait, .pending) :: d)
  | pending {d} : Sending d → Sending ((.frame, .body .pending) :: d)
  | part {a d} : a.isFrame = true → Sending d → Sending ((.frame, .body a) :: d)
  | last {a hint d} : a.isFrame = true → Dropping d →
      Sending ((.frame, .body a) :: (.info, .info true hint) :: d)
  | ended {d} : Dropping d → Sending ((.frame, .body .ended) :: d)

/-- The host has been given the head of a response. -/
inductive Serving (method : Method) (status : Status) : Dialogue → Prop
  | unsent {d} : sendsBody method status = false → Dropping d → Serving method status d
  | empty {hint d} : Dropping d → Serving method status ((.info, .info true hint) :: d)
  | sent {hint d} : sendsBody method status = true → Sending d →
      Serving method status ((.info, .info false hint) :: d)

inductive Conforming (method : Method) : Dialogue → Prop
  | pending {d} : Conforming method d → Conforming method ((.poll, .pending) :: d)
  | answered {status headers d} : Serving method status d →
      Conforming method ((.poll, .head status headers) :: d)

theorem Dropping.cons_inv {step : HostStep} {a : HostAnswer} {d : Dialogue}
    (h : Dropping ((step, a) :: d)) :
    step = .drop ∨ ((step = .info ∨ step = .wait) ∧ Dropping d) := by
  cases h with
  | drop => exact .inl rfl
  | info hd => exact .inr ⟨.inl rfl, hd⟩
  | wait hd => exact .inr ⟨.inr rfl, hd⟩

theorem Sending.cons_inv {step : HostStep} {a : HostAnswer} {d : Dialogue}
    (h : Sending ((step, a) :: d)) :
    ((step = .info ∨ step = .wait) ∧ Sending d) ∨
      (step = .frame ∧ ∃ x, a = .body x ∧
        ((x = .pending ∧ Sending d) ∨ x = .ended ∨
          (x.isFrame = true ∧ (Sending d ∨ ∃ hint rest, d = (.info, .info true hint) :: rest)))) := by
  cases h with
  | info hd => exact .inl ⟨.inl rfl, hd⟩
  | wait hd => exact .inl ⟨.inr rfl, hd⟩
  | pending hd => exact .inr ⟨rfl, _, rfl, .inl ⟨rfl, hd⟩⟩
  | part hx hd => exact .inr ⟨rfl, _, rfl, .inr (.inr ⟨hx, .inl hd⟩)⟩
  | last hx _ => exact .inr ⟨rfl, _, rfl, .inr (.inr ⟨hx, .inr ⟨_, _, rfl⟩⟩)⟩
  | ended _ => exact .inr ⟨rfl, _, rfl, .inr (.inl rfl)⟩

theorem Conforming.cons_inv {method : Method} {step : HostStep} {a : HostAnswer} {d : Dialogue}
    (h : Conforming method ((step, a) :: d)) :
    step = .poll ∧ ((a = .pending ∧ Conforming method d) ∨
      ∃ status headers, a = .head status headers ∧ Serving method status d) := by
  cases h with
  | pending hd => exact ⟨rfl, .inl ⟨rfl, hd⟩⟩
  | answered hd => exact ⟨rfl, .inr ⟨_, _, rfl, hd⟩⟩

end Dialogue

def Exchange.dialogue (immediate : Bool) (e : Exchange) (s : Script) : Dialogue :=
  (s.map (·.2)).zip (e.run immediate s).1

/-- A successful answer to `CONNECT` whose body has something to give. The status 204 is known to
carry no body whatever the method. -/
def Reply.OpensTunnel (method : Method) (reply : Reply) : Prop :=
  method = .connect ∧ reply.head.status.isSuccess = true ∧ reply.head.status.code ≠ 204 ∧
    reply.body.atEnd [] = false

instance (method : Method) (reply : Reply) : Decidable (reply.OpensTunnel method) :=
  inferInstanceAs (Decidable (_ ∧ _))

/-- A response is taken to carry a body exactly if it is sent with one or opens a tunnel. -/
theorem carriesBody_eq (method : Method) (status : Status) :
    carriesBody method status =
      (sendsBody method status ||
        (method = .connect && status.isSuccess && status.code ≠ 204)) := by
  have hc : method = .connect → method ≠ .head := by
    rintro rfl
    decide
  rw [Bool.eq_iff_iff]
  simp only [carriesBody, sendsBody, Status.isInformational, Status.isSuccess, Bool.and_eq_true,
    Bool.or_eq_true, Bool.not_eq_true', Bool.or_eq_false_iff, Bool.and_eq_false_iff,
    decide_eq_true_eq, decide_eq_false_iff_not, decide_not, ne_eq]
  grind

/-- Among the responses that are sent without a body only those that open a tunnel are not
bodyless. -/
theorem Reply.bodyless_iff_not_opensTunnel {method : Method} {reply : Reply}
    (h : sendsBody method reply.head.status = false) :
    reply.Bodyless method ↔ ¬reply.OpensTunnel method := by
  rw [Reply.bodyless_iff, carriesBody_eq, h]
  simp only [OpensTunnel, Bool.false_or, Bool.or_eq_true, Bool.not_eq_true', Bool.and_eq_false_iff,
    decide_eq_false_iff_not, decide_not]
  cases reply.body.atEnd [] <;> grind

namespace Exchange

variable {immediate : Bool}

theorem dialogue_cons (e : Exchange) (now : Timestamp) (h : HostStep) (s : Script) :
    e.dialogue immediate ((now, h) :: s) =
      (h, (e.step immediate now h).answer) ::
        (e.step immediate now h).exchange.dialogue immediate s := rfl

theorem fate_of_dropping (s : Script) {b : LoggedBody} (bodyless : Bool)
    (h : (dialogue immediate (.answered b) s).Dropping) :
    ∃ now, b.inner.fate bodyless b.past s = if bodyless then .due now else .cutShort := by
  induction s generalizing b with
  | nil => cases h
  | cons x s ih =>
      obtain ⟨now, step⟩ := x
      rw [dialogue_cons] at h
      rcases h.cons_inv with rfl | ⟨rfl | rfl, hd⟩
      · exact ⟨now, Body.fate_cons_drop _ _ _ _ _⟩
      · exact ih hd
      · exact ih (b := b.feed) hd

theorem atEnd_of_dialogue {s : Script} {b : LoggedBody} {atEnd : Bool} {hint : SizeHint}
    {d : Dialogue} (h : dialogue immediate (.answered b) s = (.info, .info atEnd hint) :: d) :
    b.atEnd = atEnd := by
  cases s with
  | nil => simp [dialogue] at h
  | cons x s =>
      obtain ⟨now, step⟩ := x
      rw [dialogue_cons] at h
      obtain ⟨hx, -⟩ := List.cons.inj h
      obtain ⟨rfl, ha⟩ := Prod.mk.inj hx
      exact (HostAnswer.info.inj ha).1

/-- A body that is polled to its end is completed, whether it was to have one or not. -/
theorem fate_of_sending (s : Script) {b : LoggedBody} (bodyless : Bool)
    (h : (dialogue immediate (.answered b) s).Sending) :
    ∃ now, b.inner.fate bodyless b.past s = .due now := by
  induction s generalizing b with
  | nil => cases h
  | cons x s ih =>
      obtain ⟨now, step⟩ := x
      rw [dialogue_cons] at h
      rcases h.cons_inv with ⟨rfl | rfl, hd⟩ | ⟨rfl, a, ha, hx⟩
      · exact ih hd
      · exact ih (b := b.feed) hd
      have ha' : a = b.inner.answer b.past := by
        have hb : HostAnswer.body (b.poll now).1 = .body a := ha
        rw [LoggedBody.answer_poll] at hb
        exact (HostAnswer.body.inj hb).symm
      subst ha'
      have hn : (b.inner.answer b.past).isFailure = false := by
        rcases hx with ⟨h, -⟩ | h | ⟨h, -⟩
        · rw [h]
          rfl
        · rw [h]
          rfl
        · exact BodyAnswer.isFailure_of_isFrame h
      cases hs : b.inner.settles b.past with
      | true =>
          rw [Body.fate_cons_frame_of_settles _ _ _ _ _ hs, hn]
          exact ⟨now, rfl⟩
      | false =>
          -- The host cannot have seen the end, so it goes on.
          have hd : (dialogue immediate (.answered (b.poll now).2.1) s).Sending := by
            rcases hx with ⟨-, hd⟩ | h | ⟨hf, hd | ⟨hint, rest, hd⟩⟩
            · exact hd
            · simp [Body.settles, h] at hs
            · exact hd
            · have he : (b.poll now).2.1.atEnd = true := atEnd_of_dialogue hd
              rw [LoggedBody.atEnd, LoggedBody.inner_poll, LoggedBody.past_poll] at he
              simp [Body.settles, hf, he] at hs
          have hr := ih hd
          rw [LoggedBody.inner_poll, LoggedBody.past_poll] at hr
          rw [Body.fate_cons_frame _ _ _ _ _ hs]
          exact hr

/-- What a host sees of a response decides what becomes of its line. -/
theorem fate_of_serving (s : Script) (request : RequestView) (reply : Reply)
    (h : (dialogue immediate (.answered (.owing request reply)) s).Serving request.method
      reply.head.status) :
    ∃ now, reply.body.fate (reply.Bodyless request.method) [] s =
      if reply.OpensTunnel request.method then .cutShort else .due now := by
  generalize hd : dialogue immediate (.answered (.owing request reply)) s = d at h
  cases h with
  | unsent hs hdrop =>
      rw [← hd] at hdrop
      obtain ⟨now, hf⟩ := fate_of_dropping s (reply.Bodyless request.method) hdrop
      refine ⟨now, hf.trans ?_⟩
      have hb := Reply.bodyless_iff_not_opensTunnel hs
      by_cases ht : reply.OpensTunnel request.method <;> simp [hb, ht]
  | @empty hint d hdrop =>
      have he : reply.body.atEnd [] = true := atEnd_of_dialogue hd
      have ht : ¬reply.OpensTunnel request.method := fun ht => by simp [ht.2.2.2] at he
      have hb : reply.Bodyless request.method := .inl he
      have hall : (dialogue immediate (.answered (.owing request reply)) s).Dropping := by
        rw [hd]
        exact .info hdrop
      obtain ⟨now, hf⟩ := fate_of_dropping s (reply.Bodyless request.method) hall
      refine ⟨now, hf.trans ?_⟩
      simp [hb, ht]
  | @sent hint d hs hsend =>
      have hall : (dialogue immediate (.answered (.owing request reply)) s).Sending := by
        rw [hd]
        exact .info hsend
      obtain ⟨now, hf⟩ := fate_of_sending s (reply.Bodyless request.method) hall
      have ht : ¬reply.OpensTunnel request.method := fun ht => by
        simp [sendsBody, ht.1, ht.2.1] at hs
      refine ⟨now, hf.trans ?_⟩
      simp [ht]

theorem afterHead_of_conforming (s : Script) (request : RequestView) (reply : Reply) (delay : Nat)
    (h : (dialogue false (.handling request reply delay) s).Conforming request.method) :
    ∃ rest, s.afterHead delay = some rest ∧
      (dialogue false (.answered (.owing request reply)) rest).Serving request.method
        reply.head.status := by
  induction s generalizing delay with
  | nil => cases h
  | cons x s ih =>
      obtain ⟨now, step⟩ := x
      rw [dialogue_cons] at h
      obtain ⟨rfl, hx⟩ := h.cons_inv
      cases delay with
      | zero =>
          rcases hx with ⟨ha, -⟩ | ⟨status, headers, ha, hs⟩
          · cases ha
          · obtain ⟨rfl, -⟩ := HostAnswer.head.inj ha
            exact ⟨s, rfl, hs⟩
      | succ delay =>
          rcases hx with ⟨-, hd⟩ | ⟨status, headers, ha, -⟩
          · exact ih delay hd
          · cases ha

theorem fate_of_conforming (s : Script) (request : Request) (handler : Handler)
    (h : (dialogue false (.waiting request handler) s).Conforming request.method) :
    ∃ now, Fate.of request handler s =
      if (handler.reply request).OpensTunnel request.method then .cutShort else .due now := by
  cases s with
  | nil => cases h
  | cons x s =>
      obtain ⟨now, step⟩ := x
      have hs := h
      rw [dialogue_cons] at hs
      obtain ⟨rfl, -⟩ := hs.cons_inv
      obtain ⟨rest, hr, hserve⟩ := afterHead_of_conforming ((now, .poll) :: s)
        (request.viewAt now) (handler.reply request) (handler.delay request) h
      simp only [Fate.of, hr]
      exact fate_of_serving rest _ _ hserve

/-- With a host that follows the message rules an answered exchange emits exactly once, unless it
opens a tunnel: the host drops the body of a successful answer to `CONNECT` unpolled, and the line
is given up although the exchange is complete. -/
theorem emits_once_unless_opensTunnel (log : AccessLog) (r : Registry) (request : Request)
    (handler : Handler) (s : Script)
    (h : (dialogue false (.waiting request handler) s).Conforming request.method) :
    let out := run false (.waiting request handler) s
    let reply := handler.reply request
    let view : RequestView := { request with received := s.arrival? }
    (∃ now, (log.notifyAll r out.2.2).1.filterMap Effect.emission? =
        if reply.OpensTunnel request.method then []
        else [log.emission r view { head := some reply.head, finished := some now }]) ∧
      (reply.OpensTunnel request.method → .droppedEarly view ∈ out.2.2) ∧
      ∀ method status, sendsBody method status = false →
        (carriesBody method status = true ↔
          method = .connect ∧ status.isSuccess = true ∧ status.code ≠ 204) := by
  intro out reply view
  obtain ⟨now, hf⟩ := fate_of_conforming s request handler h
  refine ⟨⟨now, ?_⟩, ?_, ?_⟩
  · rw [emissions_run]
    by_cases ht : reply.OpensTunnel request.method
    · rw [if_pos ht] at hf
      rw [hf, if_pos ht]
    · rw [if_neg ht] at hf
      rw [hf, if_neg ht]
  · intro ht
    rw [if_pos ht] at hf
    have hu : Fate.of request handler s ≠ .unanswered := by simp [hf]
    rw [show out.2.2 = account request handler s from (run_of_waiting request handler s).2,
      account_eq hu, hf]
    simp [Fate.notices, owedBy, view]
  · intro method status hs
    simp [carriesBody_eq, hs, and_assoc]

/-- A handler that answers every request alike, with two parts and a pause between them. -/
def twoParts : Handler where
  delay _ := 1
  reply _ :=
    { head := { status := .ok }, body := .scripted [.data [97], .pending, .data [98]] .exact {} }

/-- A host that asks after the head and after the last part. -/
def patientScript : Script :=
  [.poll, .poll, .info, .frame, .frame, .frame, .info, .drop].map (⟨0, 0⟩, ·)

theorem emits_once_twoParts :
    (dialogue false (.waiting {} twoParts) patientScript).Conforming .get ∧
      ((AccessLog.notifyAll { serial := 0, builder := 0 } {}
        (run false (.waiting {} twoParts) patientScript).2.2).1.filterMap
          Effect.emission?).length = 1 := by
  have h : (dialogue false (.waiting {} twoParts) patientScript).Conforming .get :=
    .pending (.answered (.sent (by decide) (.part rfl (.pending (.last rfl .drop)))))
  obtain ⟨⟨now, hn⟩, -⟩ :=
    emits_once_unless_opensTunnel { serial := 0, builder := 0 } {} {} twoParts patientScript h
  refine ⟨h, ?_⟩
  rw [hn, if_neg (by decide)]
  rfl

theorem no_emission_connect :
    let e : Exchange := .waiting { method := .connect } twoParts
    let s : Script := [.poll, .poll, .drop].map (⟨0, 0⟩, ·)
    (dialogue false e s).Conforming .connect ∧
      (AccessLog.notifyAll { serial := 0, builder := 0 } {} (run false e s).2.2).1.filterMap
        Effect.emission? = [] :=
  ⟨.pending (.answered (.unsent (by decide) .drop)), rfl⟩

end Exchange

end AccessLine
