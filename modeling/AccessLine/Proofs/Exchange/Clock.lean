import AccessLine.Proofs.Registry.Lines

/-!
# Without the clock

Setting every clock reading to the origin of the clock keeps which readings have been taken. An
exchange does the same with readings and without them. What its log makes of it is the same as well
when the log reads no clock: such a log leaves out the same lines and writes the same lines
whatever the readings are.
-/
namespace AccessLine

def Timestamp.origin : Timestamp := ⟨0, 0⟩

def RequestView.timeless (v : RequestView) : RequestView :=
  { v with received := v.received.map fun _ => .origin }

def ResponseView.timeless (v : ResponseView) : ResponseView :=
  { v with finished := v.finished.map fun _ => .origin }

def Notice.timeless : Notice → Notice
  | .called request => .called request
  | .headReady request status => .headReady request.timeless status
  | .emission request response => .emission request.timeless response.timeless
  | .bodyFailed request => .bodyFailed request.timeless
  | .droppedEarly request => .droppedEarly request.timeless

def Owed.timeless (o : Owed) : Owed :=
  { o with request := o.request.timeless, response := o.response.timeless }

theorem Owed.complete_timeless (o : Owed) (now : Timestamp) :
    o.timeless.complete .origin = (o.complete now).timeless := rfl

namespace LoggedBody

def timeless (b : LoggedBody) : LoggedBody :=
  { b with owed := b.owed.map Owed.timeless }

theorem settle_timeless (now : Timestamp) (o : Owed) (a : BodyAnswer) :
    settle .origin o.timeless a = (settle now o a).timeless := by
  cases a <;> rfl

theorem poll_timeless (b : LoggedBody) (now : Timestamp) :
    b.timeless.poll .origin =
      ((b.poll now).1, (b.poll now).2.1.timeless, (b.poll now).2.2.map Notice.timeless) := by
  have hs : b.timeless.settlesNext = b.settlesNext := rfl
  have hn : b.timeless.next = b.next := rfl
  unfold poll
  rw [hs, hn]
  split
  · cases ho : b.owed with
    | none => simp [timeless, ho]
    | some o => simp [timeless, ho, ← settle_timeless now]
  · rfl

theorem drop_timeless (b : LoggedBody) (now : Timestamp) :
    b.timeless.drop .origin = (b.drop now).map Notice.timeless := by
  unfold drop
  cases ho : b.owed with
  | none => simp [timeless, ho]
  | some o =>
      have hd : (if o.timeless.bodyless then o.timeless.complete .origin
            else .droppedEarly o.timeless.request) =
          (if o.bodyless then o.complete now else .droppedEarly o.request).timeless := by
        rw [o.complete_timeless now, apply_ite Notice.timeless]
        rfl
      simpa [timeless, ho] using hd

end LoggedBody

namespace Exchange

def timeless : Exchange → Exchange
  | .handling request reply delay => .handling request.timeless reply delay
  | .answered b => .answered b.timeless
  | e => e

def Outcome.timeless (o : Outcome) : Outcome :=
  { o with exchange := o.exchange.timeless, notices := o.notices.map Notice.timeless }

theorem handle_timeless (immediate : Bool) (request : RequestView) (reply : Reply) (delay : Nat) :
    handle immediate request.timeless reply delay =
      (handle immediate request reply delay).timeless := by
  cases delay with
  | succ delay => rfl
  | zero => cases immediate <;> rfl

theorem step_timeless (immediate : Bool) (now : Timestamp) (e : Exchange) (h : HostStep) :
    e.timeless.step immediate .origin h = (e.step immediate now h).timeless := by
  cases e with
  | waiting request handler =>
      cases h with
      | poll =>
          have hh := handle_timeless immediate (request.viewAt now) (handler.reply request)
            (handler.delay request)
          have ha : arrival immediate request .origin =
              (arrival immediate request now).map Notice.timeless := by
            cases immediate <;> rfl
          have hv : (request.viewAt now).timeless = request.viewAt .origin := rfl
          rw [hv] at hh
          simp only [timeless, step, hh, ha, Outcome.timeless, List.map_append]
      | frame | info | wait | drop => rfl
  | handling request reply delay =>
      cases h with
      | poll => exact handle_timeless immediate request reply delay
      | frame | info | wait | drop => rfl
  | answered b =>
      cases h with
      | frame => simp only [timeless, step, b.poll_timeless now, Outcome.timeless]
      | drop => simp only [timeless, step, b.drop_timeless now, Outcome.timeless]
      | poll | info | wait => rfl
  | gone => cases h <;> rfl

@[simp] theorem owes_timeless (e : Exchange) : e.timeless.owes = e.owes := by
  cases e with
  | answered b => exact Option.isSome_map
  | _ => rfl

end Exchange

def Emission.timeless (e : Emission) : Emission :=
  { e with request := e.request.timeless, response := e.response.timeless }

def Effect.timeless : Effect → Effect
  | .emission e => .emission e.timeless
  | .event e => .event e

namespace AccessLog

/-- Whether a log leaves out the same lines and writes the same, whatever the clock shows. -/
structure ReadsNoClock (log : AccessLog) (r : Registry) : Prop where
  skips : ∀ request response,
    log.skips request.timeless response.timeless = log.skips request response
  line : ∀ request response,
    (r.render log.builder request.timeless response.timeless).1 =
      (r.render log.builder request response).1

variable {log : AccessLog} {r r' : Registry}

theorem ReadsNoClock.sameLines (h : log.ReadsNoClock r) (hr : r.SameLines r') :
    log.ReadsNoClock r' where
  skips := h.skips
  line request response := by
    have := h.line request response
    simpa only [Registry.render_eq, hr.lines, hr.tokens] using this

theorem effects_timeless (h : log.ReadsNoClock r) (n : Notice) :
    log.effects r n.timeless = (log.effects r n).map Effect.timeless := by
  cases n with
  | called | headReady | bodyFailed | droppedEarly => rfl
  | emission request response =>
      simp [effects, Notice.timeless, Effect.timeless, Emission.timeless, emission, h.skips, h.line]

theorem noted_timeless (h : log.ReadsNoClock r) (n : Notice) :
    log.noted n.timeless = log.noted n := by
  cases n with
  | called | headReady | bodyFailed | droppedEarly => rfl
  | emission request response =>
      simp only [noted, Notice.timeless, h.skips]
      rfl

theorem notedAll_timeless (h : log.ReadsNoClock r) (ns : List Notice) :
    log.notedAll (ns.map Notice.timeless) = log.notedAll ns := by
  induction ns with
  | nil => rfl
  | cons n ns ih => simp only [List.map_cons, notedAll, ih, noted_timeless h]

end AccessLog

/-! ### Which lines read no clock -/

def Evaluator.ReadsNoClock (token : Evaluator) : Prop :=
  ∀ request response arg, token request.timeless response.timeless arg = token request response arg

theorem Table.mem_of_get?_foldl_insert {α : Type} {name : String} {v : α} {es : List (String × α)}
    {t : Table α} (h : (es.foldl (fun t e => t.insert e.1 e.2) t).get? name = some v) :
    (name, v) ∈ es ∨ t.get? name = some v := by
  induction es generalizing t with
  | nil => exact .inr h
  | cons e es ih =>
      obtain h | h := ih h
      · exact .inl (List.mem_cons_of_mem _ h)
      · by_cases he : name = e.1
        · rw [he, get?_insert_self] at h
          exact .inl (by simp [he, ← Option.some.inj h])
        · exact .inr (get?_insert_of_ne he ▸ h)

/-- Of the standard tokens only the response time reads the clock. -/
theorem Evaluator.readsNoClock_of_standard {name : String} {token : Evaluator}
    (hn : name ≠ "response-time") (h : TokenTable.standard.get? name = some token) :
    token.ReadsNoClock := by
  have hall : ∀ e ∈ TokenTable.standardEntries, e.1 = "response-time" ∨ e.2.ReadsNoClock := by
    simp only [TokenTable.standardEntries, List.forall_mem_cons]
    refine ⟨.inr ?_, .inr ?_, .inr ?_, .inr ?_, .inr ?_, .inr ?_, .inr ?_, .inr ?_, .inl trivial,
      .inr ?_, .inr ?_, List.forall_mem_nil _⟩
    all_goals exact fun _ _ _ => rfl
  obtain h | h := Table.mem_of_get?_foldl_insert h
  · exact (hall _ h).resolve_left hn
  · cases h

theorem Template.render_timeless {t : Template} {tokens : TokenTable}
    (h : ∀ name ∈ t.tokenNames, ∀ token, tokens.get? name = some token → token.ReadsNoClock)
    (request : RequestView) (response : ResponseView) :
    t.render tokens request.timeless response.timeless = t.render tokens request response := by
  have hnode : ∀ n ∈ t.nodes,
      n.render tokens request.timeless response.timeless = n.render tokens request response := by
    intro n hn
    cases n with
    | literal text => rfl
    | token name arg =>
        have hname : name ∈ t.tokenNames := List.mem_filterMap.mpr ⟨_, hn, rfl⟩
        cases ht : tokens.get? name with
        | none => simp [Node.render, TokenTable.eval, ht]
        | some token =>
            simp [Node.render, TokenTable.eval, ht, h name hname token ht request response arg]
  exact congrArg String.join (List.map_congr_left hnode)

theorem AccessLog.readsNoClock_of_template {log : AccessLog} {r : Registry} {t : Template}
    (hb : r.builders[log.builder]? = some (.compiled t)) (hs : log.skip = none)
    (h : ∀ name ∈ t.tokenNames, ∀ token, r.tokens.get? name = some token → token.ReadsNoClock) :
    log.ReadsNoClock r where
  skips request response := by simp [skips, hs]
  line request response := by
    simp [Registry.render, hb, LineBuilder.render, Template.render_timeless h]

example : AccessLog.ReadsNoClock { serial := 0, builder := 0 }
    { tokens := .standard, builders := [.compiled (.parse Registry.commonTemplate)] } := by
  apply AccessLog.readsNoClock_of_template rfl rfl
  have hn : "response-time" ∉ (Template.parse Registry.commonTemplate).tokenNames := by
    decide +kernel
  exact fun name hname _ => Evaluator.readsNoClock_of_standard fun he => hn (he ▸ hname)

end AccessLine
