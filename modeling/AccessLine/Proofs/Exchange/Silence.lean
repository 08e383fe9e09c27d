import AccessLine.Proofs.Exchange.Settlement

/-!
# After the line

The line of an exchange is due once. In the step in which it is due nothing else comes of the
exchange, and after that step nothing does: it owes no line, and no line of it is due or given up
again.
-/
namespace AccessLine

namespace Exchange

/-- The exchange has nothing more to tell a log. -/
inductive Silent (immediate : Bool) : Exchange → Prop
  | handling {request : RequestView} {reply : Reply} {delay : Nat} (h : immediate = true) :
      Silent immediate (.handling request reply delay)
  | answered {b : LoggedBody} (h : b.owed = none) : Silent immediate (.answered b)
  | gone : Silent immediate .gone

variable {immediate : Bool} {e : Exchange}

theorem Silent.owes (h : e.Silent immediate) : e.owes = false := by
  cases h with
  | answered h => simp [Exchange.owes, LoggedBody.isPending, h]
  | handling | gone => rfl

theorem silent_handle (request : RequestView) (reply : Reply) (delay : Nat) :
    (handle true request reply delay).exchange.Silent true ∧
      (handle true request reply delay).notices = [] := by
  cases delay with
  | zero => exact ⟨.answered rfl, rfl⟩
  | succ delay => exact ⟨.handling rfl, rfl⟩

theorem Silent.step (h : e.Silent immediate) (now : Timestamp) (k : HostStep) :
    (e.step immediate now k).exchange.Silent immediate ∧ (e.step immediate now k).notices = [] := by
  cases h with
  | handling h =>
      subst h
      cases k with
      | poll => exact silent_handle _ _ _
      | drop => exact ⟨.gone, rfl⟩
      | frame | info | wait => exact ⟨.handling rfl, rfl⟩
  | answered h =>
      cases k with
      | frame =>
          obtain ⟨howed, hnotices⟩ := LoggedBody.poll_of_owed_none h now
          exact ⟨.answered howed, hnotices⟩
      | drop => exact ⟨.gone, by simp [Exchange.step, LoggedBody.drop, h]⟩
      | poll | info | wait => exact ⟨.answered h, rfl⟩
  | gone => cases k <;> exact ⟨.gone, rfl⟩

/-- A line is due in one of three ways: when the request arrives, with the part of the body that
ends it, or when a bodyless exchange is dropped. -/
theorem silent_of_emission {now : Timestamp} {k : HostStep} {request : RequestView}
    {response : ResponseView}
    (h : .emission request response ∈ (e.step immediate now k).notices) :
    (e.step immediate now k).exchange.Silent immediate ∧
      ((e.step immediate now k).notices = [.emission request response] ∨
        ∃ r, (e.step immediate now k).notices = [.emission request response, .called r]) := by
  have handled (view : RequestView) (reply : Reply) (delay : Nat) :
      .emission request response ∉ (handle immediate view reply delay).notices := by
    cases delay <;> cases immediate <;> simp [handle]
  cases e with
  | waiting request' handler =>
      cases k with
      | poll =>
          cases immediate with
          | false =>
              have hcalled : .emission request response ∈ arrival false request' now :=
                (List.mem_append.mp h).resolve_right (handled _ _ _)
              simp [arrival] at hcalled
          | true =>
              obtain ⟨hsilent, hnotices⟩ := silent_handle (request'.viewAt now)
                (handler.reply request') (handler.delay request')
              simp only [Exchange.step, hnotices, arrival, List.append_nil, if_true] at h ⊢
              obtain ⟨rfl, rfl⟩ : request = request'.viewAt now ∧ response = .pending := by
                simpa using h
              exact ⟨hsilent, .inr ⟨request', rfl⟩⟩
      | frame | info | wait | drop => cases h
  | handling view reply delay =>
      cases k with
      | poll => exact absurd h (handled _ _ _)
      | frame | info | wait | drop => cases h
  | answered b =>
      cases k with
      | frame =>
          cases hs : b.inner.settles b.past with
          | false => simp [Exchange.step, LoggedBody.poll_of_not_settles hs] at h
          | true =>
              refine ⟨.answered (LoggedBody.owed_poll_of_settles hs now), .inl ?_⟩
              cases ho : b.owed with
              | none => simp [Exchange.step, LoggedBody.poll_of_owed_none ho] at h
              | some o =>
                  simp only [Exchange.step, LoggedBody.notices_poll_of_settles ho hs] at h ⊢
                  rw [List.mem_singleton.mp h]
      | drop =>
          refine ⟨.gone, .inl ?_⟩
          cases ho : b.owed with
          | none => simp [Exchange.step, LoggedBody.drop, ho] at h
          | some o =>
              simp only [Exchange.step, LoggedBody.drop, ho, Option.toList_some, List.map_cons,
                List.map_nil] at h ⊢
              rw [List.mem_singleton.mp h]
      | poll | info | wait => cases h
  | gone => cases k <;> cases h

end Exchange

end AccessLine
