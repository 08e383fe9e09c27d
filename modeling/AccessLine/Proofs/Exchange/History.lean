import AccessLine.Exchange.Basic

/-!
# Histories of exchanges

A host's script says what it does with an exchange and when. What becomes of the exchange's line can
be read off the script and the body alone, by counting: which poll gives the head, which poll of the
body is the first to settle the line, and whether the body is dropped before. No state is kept here;
that exchanges follow this account is proved elsewhere.
-/
namespace AccessLine

open Http

/-- A host's steps, each with the clock reading it takes place at. -/
abbrev Script :=
  List (Timestamp × HostStep)

namespace Script

/-- The clock readings of the steps of one kind before the first drop. -/
def times (kind : HostStep) (s : Script) : List Timestamp :=
  ((s.takeWhile (·.2 ≠ .drop)).filter (·.2 = kind)).map (·.1)

/-- When the host drops what it holds. -/
def dropTime? (s : Script) : Option Timestamp :=
  (s.find? (·.2 = .drop)).map (·.1)

/-- When the request arrives: at the first poll. -/
def arrival? (s : Script) : Option Timestamp :=
  (s.times .poll).head?

/-- What the host does after the poll that gives the head, if the handler leaves so many polls
pending. There is no such poll if the host drops before. -/
def afterHead : Nat → Script → Option Script
  | _, [] => none
  | 0, (_, .poll) :: rest => some rest
  | delay + 1, (_, .poll) :: rest => afterHead delay rest
  | _, (_, .drop) :: _ => none
  | delay, _ :: rest => afterHead delay rest

section Steps
variable (now : Timestamp) (kind h : HostStep) (s : Script)

@[simp] theorem times_nil : times kind [] = [] := rfl

@[simp] theorem times_cons_drop : times kind ((now, .drop) :: s) = [] := rfl

theorem times_cons_self (hd : kind ≠ .drop) :
    times kind ((now, kind) :: s) = now :: times kind s := by
  simp [times, hd]

theorem times_cons_of_ne (hd : h ≠ .drop) (hk : h ≠ kind) :
    times kind ((now, h) :: s) = times kind s := by
  simp [times, hd, hk]

theorem dropTime?_cons (hd : h ≠ .drop) : dropTime? ((now, h) :: s) = dropTime? s := by
  simp [dropTime?, hd]

@[simp] theorem afterHead_nil (delay : Nat) : afterHead delay [] = none := by
  cases delay <;> rfl

@[simp] theorem afterHead_cons_drop (delay : Nat) : afterHead delay ((now, .drop) :: s) = none := by
  cases delay <;> rfl

theorem afterHead_cons_of_ne (delay : Nat) (hd : h ≠ .drop) (hp : h ≠ .poll) :
    afterHead delay ((now, h) :: s) = afterHead delay s := by
  cases h with
  | poll => exact (hp rfl).elim
  | drop => exact (hd rfl).elim
  | frame | info | wait => cases delay <;> rfl

end Steps

/-- The head comes with the first poll after those that stay pending, unless there is a drop
before. -/
theorem afterHead_eq_some_iff {delay : Nat} {s rest : Script} :
    s.afterHead delay = some rest ↔
      ∃ future now, s = future ++ (now, .poll) :: rest ∧ (∀ x ∈ future, x.2 ≠ .drop) ∧
        future.countP (·.2 = .poll) = delay := by
  constructor
  · intro h
    induction s generalizing delay with
    | nil => simp at h
    | cons x s ih =>
        obtain ⟨now, step⟩ := x
        by_cases hd : step = .drop
        · simp [hd] at h
        by_cases hp : step = .poll
        · subst hp
          cases delay with
          | zero =>
              obtain rfl : s = rest := by simpa [afterHead] using h
              exact ⟨[], now, rfl, by simp, rfl⟩
          | succ delay =>
              have h' : afterHead delay s = some rest := h
              obtain ⟨future, t, rfl, hf, hc⟩ := ih h'
              exact ⟨(now, .poll) :: future, t, rfl, by simpa using hf, by simp [hc]⟩
        · rw [afterHead_cons_of_ne now step s delay hd hp] at h
          obtain ⟨future, t, rfl, hf, hc⟩ := ih h
          exact ⟨(now, step) :: future, t, rfl, by simpa [hd] using hf, by simp [hp, hc]⟩
  · rintro ⟨future, now, rfl, hf, hc⟩
    induction future generalizing delay with
    | nil =>
        obtain rfl : 0 = delay := by simpa using hc
        rfl
    | cons x future ih =>
        obtain ⟨t, step⟩ := x
        have hd : step ≠ .drop := hf (t, step) (by simp)
        have hf' : ∀ x ∈ future, x.2 ≠ .drop := fun x hx => hf x (by simp [hx])
        by_cases hp : step = .poll
        · subst hp
          obtain rfl : future.countP (·.2 = .poll) + 1 = delay := by simpa using hc
          exact ih hf' rfl
        · rw [List.cons_append, afterHead_cons_of_ne t step _ delay hd hp]
          exact ih hf' (by simpa [hp] using hc)

theorem afterHead_append {delay : Nat} {s rest : Script} (h : s.afterHead delay = some rest)
    (t : Script) : afterHead delay (s ++ t) = some (rest ++ t) := by
  obtain ⟨future, now, rfl, hd, hc⟩ := afterHead_eq_some_iff.mp h
  exact afterHead_eq_some_iff.mpr ⟨future, now, by simp, hd, hc⟩

theorem arrival?_append {s : Script} {start : Timestamp} (h : s.arrival? = some start)
    (t : Script) : arrival? (s ++ t) = some start := by
  induction s with
  | nil => simp [arrival?] at h
  | cons x s ih =>
      obtain ⟨now, step⟩ := x
      cases step with
      | drop => simp [arrival?] at h
      | poll =>
          simp only [arrival?, List.cons_append] at h ⊢
          rw [times_cons_self _ _ _ (by decide)] at h ⊢
          exact h
      | frame | info | wait =>
          simp only [arrival?, List.cons_append] at h ih ⊢
          rw [times_cons_of_ne _ _ _ _ (by decide) (by decide)] at h ⊢
          exact ih h

theorem isSome_arrival? {delay : Nat} {s rest : Script} (h : s.afterHead delay = some rest) :
    s.arrival?.isSome = true := by
  induction s generalizing delay with
  | nil => simp at h
  | cons x s ih =>
      obtain ⟨now, step⟩ := x
      cases step with
      | drop => simp at h
      | poll => simp [arrival?, times_cons_self]
      | frame | info | wait =>
          rw [afterHead_cons_of_ne _ _ _ _ (by decide) (by decide)] at h
          simp only [arrival?] at ih ⊢
          rw [times_cons_of_ne _ _ _ _ (by decide) (by decide)]
          exact ih h

end Script

def BodyAnswer.isFailure : BodyAnswer → Bool
  | .failed _ => true
  | _ => false

theorem BodyAnswer.isFailure_of_isFrame {a : BodyAnswer} (h : a.isFrame = true) :
    a.isFailure = false := by
  cases a with
  | data | trailers => rfl
  | _ => cases h

/-- Whether a poll settles the line: it gives the end, a failure, or a part after which the body is
at its end. -/
def Body.settles (b : Body) (past : BodyPast) : Bool :=
  b.answer past = .ended || (b.answer past).isFailure ||
    ((b.answer past).isFrame && b.atEnd (.polled :: past))

/-- Whether nothing is to be sent after the head: the body is at its end as it comes, or the
response is one that has none. -/
def Reply.Bodyless (method : Method) (reply : Reply) : Prop :=
  reply.body.atEnd [] = true ∨ method = .head ∨ reply.head.status.code < 200 ∨
    reply.head.status.code = 204 ∨ reply.head.status.code = 304

instance (method : Method) (reply : Reply) : Decidable (reply.Bodyless method) :=
  inferInstanceAs (Decidable (_ ∨ _))

theorem Reply.bodyless_iff (method : Method) (reply : Reply) :
    reply.Bodyless method ↔
      (reply.body.atEnd [] || !carriesBody method reply.head.status) = true := by
  simp only [Bodyless, carriesBody, Status.isInformational, Bool.or_eq_true, Bool.not_and,
    Bool.not_not, decide_eq_true_eq, ne_eq, decide_not, or_assoc]

/-- The polls of a body before it is dropped, each with its clock reading and with what has happened
to the body by then. -/
def Script.bodyPolls (past : BodyPast) : Script → List (Timestamp × BodyPast)
  | [] => []
  | (_, .drop) :: _ => []
  | (now, .frame) :: rest => (now, past) :: bodyPolls (.polled :: past) rest
  | (_, .wait) :: rest => bodyPolls (.fed :: past) rest
  | _ :: rest => bodyPolls past rest

/-- What has become of the line of an exchange. -/
inductive Fate
  | unanswered
  | owed
  | due (now : Timestamp)
  | failed
  | cutShort
deriving DecidableEq, Repr

/-- What becomes of the line that a body with this past owes. The first poll that settles it decides,
and the drop if there is none before. -/
def Body.fate (b : Body) (bodyless : Bool) (past : BodyPast) (s : Script) : Fate :=
  match (s.bodyPolls past).find? fun p => b.settles p.2 with
  | some (now, past) => if (b.answer past).isFailure then .failed else .due now
  | none =>
      match s.dropTime? with
      | some now => if bodyless then .due now else .cutShort
      | none => .owed

/-- What has become of the line of a request that was handed to a handler. -/
def Fate.of (request : Request) (handler : Handler) (s : Script) : Fate :=
  match s.afterHead (handler.delay request) with
  | none => .unanswered
  | some rest =>
      let reply := handler.reply request
      reply.body.fate (reply.Bodyless request.method) [] rest

section Fate
variable (b : Body) (bodyless : Bool) (past : BodyPast) (now : Timestamp) (s : Script)

@[simp] theorem Body.fate_nil : b.fate bodyless past [] = .owed := rfl

@[simp] theorem Body.fate_cons_drop :
    b.fate bodyless past ((now, .drop) :: s) = if bodyless then .due now else .cutShort := rfl

theorem Body.fate_cons_frame_of_settles (h : b.settles past = true) :
    b.fate bodyless past ((now, .frame) :: s) =
      if (b.answer past).isFailure then .failed else .due now := by
  simp [fate, Script.bodyPolls, h]

theorem Body.fate_cons_frame (h : b.settles past = false) :
    b.fate bodyless past ((now, .frame) :: s) = b.fate bodyless (.polled :: past) s := by
  simp [fate, Script.bodyPolls, Script.dropTime?_cons, h]

theorem Body.fate_ne_unanswered : b.fate bodyless past s ≠ .unanswered := by
  unfold fate
  split
  · split <;> simp
  · split
    · split <;> simp
    · simp

theorem Body.fate_append_drop (h : b.fate bodyless past s = .owed) :
    b.fate bodyless past (s ++ [(now, .drop)]) = if bodyless then .due now else .cutShort := by
  induction s generalizing past with
  | nil => rfl
  | cons x s ih =>
      obtain ⟨t, step⟩ := x
      rw [List.cons_append]
      cases step with
      | drop =>
          rw [fate_cons_drop] at h
          split at h <;> cases h
      | poll | info => exact ih past h
      | wait => exact ih (.fed :: past) h
      | frame =>
          cases hs : b.settles past with
          | true =>
              rw [fate_cons_frame_of_settles _ _ _ _ _ hs] at h
              split at h <;> cases h
          | false =>
              rw [fate_cons_frame _ _ _ _ _ hs] at h ⊢
              exact ih (.polled :: past) h

theorem Body.fate_append (t : Script) (h : b.fate bodyless past s ≠ .owed) :
    b.fate bodyless past (s ++ t) = b.fate bodyless past s := by
  induction s generalizing past with
  | nil => simp at h
  | cons x s ih =>
      obtain ⟨now, step⟩ := x
      rw [List.cons_append]
      cases step with
      | drop => rfl
      | poll | info => exact ih past h
      | wait => exact ih (.fed :: past) h
      | frame =>
          cases hs : b.settles past with
          | true => simp only [fate_cons_frame_of_settles _ _ _ _ _ hs]
          | false =>
              rw [fate_cons_frame _ _ _ _ _ hs] at h
              rw [fate_cons_frame _ _ _ _ _ hs, fate_cons_frame _ _ _ _ _ hs]
              exact ih (.polled :: past) h

end Fate

theorem Fate.of_eq_unanswered_iff {request : Request} {handler : Handler} {s : Script} :
    Fate.of request handler s = .unanswered ↔ s.afterHead (handler.delay request) = none := by
  unfold Fate.of
  cases s.afterHead (handler.delay request) with
  | none => simp
  | some rest => simpa using Body.fate_ne_unanswered _ _ _ _

section Later
variable {request : Request} {handler : Handler} {s : Script}

theorem Fate.of_append_ne_unanswered (hu : Fate.of request handler s ≠ .unanswered)
    (later : Script) : Fate.of request handler (s ++ later) ≠ .unanswered := by
  rw [ne_eq, of_eq_unanswered_iff] at hu ⊢
  obtain ⟨rest, hr⟩ := Option.ne_none_iff_exists'.mp hu
  rw [Script.afterHead_append hr]
  exact Option.some_ne_none _

/-- Once settled, a line keeps its fate. -/
theorem Fate.of_append (hu : Fate.of request handler s ≠ .unanswered)
    (ho : Fate.of request handler s ≠ .owed) (later : Script) :
    Fate.of request handler (s ++ later) = Fate.of request handler s := by
  obtain ⟨rest, hr⟩ := Option.ne_none_iff_exists'.mp (mt of_eq_unanswered_iff.mpr hu)
  unfold Fate.of at ho ⊢
  simp only [hr] at ho
  simp only [hr, Script.afterHead_append hr, Body.fate_append _ _ _ _ _ ho]

theorem Fate.of_append_drop (ho : Fate.of request handler s = .owed) (now : Timestamp) :
    Fate.of request handler (s ++ [(now, .drop)]) =
      if (handler.reply request).Bodyless request.method then .due now else .cutShort := by
  have hu : Fate.of request handler s ≠ .unanswered := by simp [ho]
  obtain ⟨rest, hr⟩ := Option.ne_none_iff_exists'.mp (mt of_eq_unanswered_iff.mpr hu)
  unfold Fate.of at ho ⊢
  simp only [hr] at ho
  simp only [Script.afterHead_append hr, Body.fate_append_drop _ _ _ _ _ ho, decide_eq_true_eq]

theorem Fate.exists_arrival (hu : Fate.of request handler s ≠ .unanswered) :
    ∃ start, s.arrival? = some start := by
  obtain ⟨rest, hr⟩ := Option.ne_none_iff_exists'.mp (mt of_eq_unanswered_iff.mpr hu)
  exact Option.isSome_iff_exists.mp (Script.isSome_arrival? hr)

end Later

end AccessLine
