import AccessLine.Proofs.Session.Balance
import AccessLine.Proofs.Session.Clock

/-!
# Independent exchanges

Exchanges of one session share the registry, its line builders and the logs, and yet none is
disturbed by another. What they share is only read by them, but for the variants of colored lines,
and these make no difference to any line.
-/
namespace AccessLine

theorem Settled.length_eq (l : List Settled) :
    l.length = l.count .emitted + l.count .cutShort + l.count .failed := by
  induction l with
  | nil => rfl
  | cons k l ih =>
      have hk : [k].count .emitted + [k].count .cutShort + [k].count .failed = 1 := by
        cases k <;> rfl
      rw [← List.singleton_append]
      simp only [List.length_append, List.count_append, List.length_singleton]
      omega

namespace Session

theorem owing_empty : ({} : Session).owing = ∅ := by
  ext name
  simp [owing]

theorem sound_empty : ({} : Session).Sound where
  finite := owing_empty ▸ Set.finite_empty
  immediate name flight hf := by cases hf

/-- Exchanges do not disturb each other.

Two adjacent steps of different exchanges can change places: each answers and shows the same, and
they lead to the same session. If the logs read no clock, it makes no difference either at what
moments the steps take place, but for the readings themselves.

So every step of an exchange answers and shows the same in every interleaving that keeps what each
exchange sees, and the session comes out the same.

At every moment the heads that have become ready, of exchanges whose line is not written on arrival,
are as many as the lines that were emitted, cut short or failed and those that are still owed. -/
theorem exchanges_independent :
    (∀ (s : Session) (x y : SessionStep), x.Apart y → ∀ t u t' u' : Timestamp,
      let first := s.step t x
      let second := first.session.step u y
      (let second' := s.step u y
        let first' := second'.session.step t x
        first'.seen = first.seen ∧ second'.seen = second.seen ∧
          first'.session = second.session) ∧
      (s.ReadsNoClock →
        let second' := s.step u' y
        let first' := second'.session.step t' x
        first'.seen.timeless = first.seen.timeless ∧
          second'.seen.timeless = second.seen.timeless ∧
          first'.session.timeless = second.session.timeless)) ∧
    (∀ (s : Session) (l m : Schedule),
      ((∀ name, l.view name = m.view name) →
        (∀ e, s.share e m = s.share e l) ∧ (s.run m).2 = (s.run l).2) ∧
      (s.ClockFree l → (∀ name, (l.view name).map Prod.snd = (m.view name).map Prod.snd) →
        (∀ e, (s.share e m).map Seen.timeless = (s.share e l).map Seen.timeless) ∧
          (s.run m).2.timeless = (s.run l).2.timeless)) ∧
    ∀ l : Schedule,
      let s : Session := {}
      let outcomes := s.deferred l
      let settled := outcomes.flatMap SessionOutcome.settled
      (s.run l).2.owing.Finite ∧
        outcomes.countP SessionOutcome.isHead =
          settled.count .emitted + settled.count .cutShort + settled.count .failed +
            (s.run l).2.owing.ncard := by
  refine ⟨?adjacent, ?interleaved, ?balanced⟩
  case adjacent =>
    intro s x y hxy t u t' u' first second
    obtain ⟨a, b, ha, hb, hab⟩ := hxy
    constructor
    · exact s.step_swap ha hb hab t u
    · exact fun hs => s.step_swap_timeless hs ⟨a, b, ha, hb, hab⟩ t u t' u'
  case interleaved =>
    intro s l m
    constructor
    · exact fun hv => s.run_reordered (Schedule.reordered_of_view hv)
    · exact fun hs hv => s.run_of_view hs hv
  case balanced =>
    intro l s outcomes settled
    obtain ⟨hsound, hcount⟩ := balance_run sound_empty l
    rw [owing_empty, Set.ncard_empty] at hcount
    refine ⟨hsound.finite, ?_⟩
    rw [← Settled.length_eq]
    exact hcount

end Session

end AccessLine
