import AccessLine.Proofs.Registry.Acts
import AccessLine.Proofs.Session.Turn

/-!
# Interleavings

Steps of different exchanges are apart. A schedule can be reordered by letting adjacent steps that
are apart change places; steps that are taken with no exchange stay where they are with respect to
all others. Two schedules are reorderings of each other if every exchange sees the same in both, and
then every step answers and shows the same in both.
-/
namespace AccessLine

namespace SessionStep

/-- Whether the order of a step and those of an exchange matters. -/
def concerns (name : String) (x : SessionStep) : Bool :=
  x.exchange?.all (· = name)

def Apart (x y : SessionStep) : Prop :=
  ∃ a b, x.exchange? = some a ∧ y.exchange? = some b ∧ a ≠ b

variable {x y : SessionStep} {a : String}

theorem concerns_of_exchange? (h : x.exchange? = some a) : x.concerns a = true := by
  simp [concerns, h]

theorem concerns_of_none (h : x.exchange? = none) : x.concerns a = true := by
  simp [concerns, h]

theorem exists_concerns (x : SessionStep) : ∃ a, x.concerns a = true := by
  cases h : x.exchange? with
  | none => exact ⟨"", concerns_of_none h⟩
  | some a => exact ⟨a, concerns_of_exchange? h⟩

theorem exists_of_not_concerns (h : ¬x.concerns a = true) : ∃ b, x.exchange? = some b ∧ a ≠ b := by
  cases hx : x.exchange? with
  | none => exact absurd (concerns_of_none hx) h
  | some b =>
      refine ⟨b, rfl, ?_⟩
      rintro rfl
      exact h (concerns_of_exchange? hx)

theorem Apart.not_concerns (h : x.Apart y) (hx : x.concerns a = true) : ¬y.concerns a = true := by
  obtain ⟨b, c, hb, hc, hbc⟩ := h
  have hab : b = a := by simpa [concerns, hb] using hx
  subst hab
  simpa [concerns, hc, eq_comm] using hbc

end SessionStep

namespace Schedule

/-- Adjacent steps of different exchanges have changed places. -/
inductive Reordered : Schedule → Schedule → Prop
  | refl (l : Schedule) : Reordered l l
  | cons (x : Timestamp × SessionStep) {l m : Schedule} :
      Reordered l m → Reordered (x :: l) (x :: m)
  | swap {x y : Timestamp × SessionStep} (l : Schedule) :
      x.2.Apart y.2 → Reordered (x :: y :: l) (y :: x :: l)
  | trans {l m n : Schedule} : Reordered l m → Reordered m n → Reordered l n

/-- The part of a schedule that an exchange sees: its own steps and those of no exchange. -/
def view (name : String) (l : Schedule) : Schedule :=
  l.filter (·.2.concerns name)

theorem Reordered.push {x : Timestamp × SessionStep} {front : Schedule}
    (h : ∀ y ∈ front, x.2.Apart y.2) (back : Schedule) :
    Reordered (x :: (front ++ back)) (front ++ x :: back) := by
  induction front with
  | nil => exact .refl _
  | cons y front ih =>
      have hfront : ∀ z ∈ front, x.2.Apart z.2 := fun z hz => h z (List.mem_cons_of_mem y hz)
      apply Reordered.trans
      · exact .swap _ (h y List.mem_cons_self)
      · exact .cons y (ih hfront)

theorem view_append_cons {x : Timestamp × SessionStep} {l front back : Schedule}
    (h : ∀ y ∈ front, x.2.Apart y.2) {name : String}
    (hv : view name (x :: l) = view name (front ++ x :: back)) :
    view name l = view name (front ++ back) := by
  by_cases hx : x.2.concerns name = true
  · have hfront : front.filter (·.2.concerns name) = [] := by
      rw [List.filter_eq_nil_iff]
      exact fun y hy => (h y hy).not_concerns hx
    simpa [view, hx, hfront] using hv
  · simpa [view, hx] using hv

/-- Schedules in which every exchange sees the same differ by their interleaving alone. -/
theorem reordered_of_view {l m : Schedule} (h : ∀ name, view name l = view name m) :
    Reordered l m := by
  induction l generalizing m with
  | nil =>
      cases m with
      | nil => exact .refl _
      | cons y m =>
          obtain ⟨a, hy⟩ := y.2.exists_concerns
          have := h a
          simp [view, hy] at this
  | cons x l ih =>
      obtain ⟨a, hx⟩ := x.2.exists_concerns
      have ha : m.filter (·.2.concerns a) = x :: l.filter (·.2.concerns a) := by
        simpa [view, hx] using (h a).symm
      obtain ⟨front, back, rfl, hfront, -, -⟩ := List.filter_eq_cons_iff.mp ha
      have hapart : ∀ y ∈ front, x.2.Apart y.2 := by
        intro y hy
        obtain ⟨b, hb, hab⟩ := SessionStep.exists_of_not_concerns (hfront y hy)
        cases hxa : x.2.exchange? with
        | some c =>
            have hca : c = a := by simpa [SessionStep.concerns, hxa] using hx
            exact ⟨c, b, hxa, hb, hca ▸ hab⟩
        | none =>
            -- A step of no exchange is seen by all, so none of another can have come before it.
            cases front with
            | nil => cases hy
            | cons z front =>
                obtain ⟨c, hc, -⟩ :=
                  SessionStep.exists_of_not_concerns (hfront z List.mem_cons_self)
                have hz := SessionStep.concerns_of_exchange? hc
                have hxc := SessionStep.concerns_of_none (a := c) hxa
                have hxz : x = z := by
                  have := h c
                  simp [view, hz, hxc] at this
                  exact this.1
                rw [hxz, hc] at hxa
                cases hxa
      apply Reordered.trans
      · exact .cons x (ih fun name => view_append_cons hapart (h name))
      · exact .push hapart back

end Schedule

namespace Session

/-- What is seen of the steps of one exchange, or of those of none. -/
def share (s : Session) (exchange? : Option String) (l : Schedule) : List Seen :=
  (l.zip (s.run l).1).filterMap fun x =>
    if x.1.2.exchange? = exchange? then some x.2.seen else none

theorem share_cons (s : Session) (e : Option String) (x : Timestamp × SessionStep) (l : Schedule) :
    s.share e (x :: l) =
      (if x.2.exchange? = e then [(s.step x.1 x.2).seen] else []) ++
        (s.step x.1 x.2).session.share e l := by
  by_cases h : x.2.exchange? = e <;> simp [share, run, h]

/-- The interleaving makes no difference to what is seen of any step, nor to the session. -/
theorem run_reordered {l m : Schedule} (h : Schedule.Reordered l m) (s : Session) :
    (∀ e, s.share e m = s.share e l) ∧ (s.run m).2 = (s.run l).2 := by
  induction h generalizing s with
  | refl => exact ⟨fun _ => rfl, rfl⟩
  | cons x _ ih =>
      obtain ⟨hshare, hrun⟩ := ih (s.step x.1 x.2).session
      exact ⟨fun e => by rw [share_cons, share_cons, hshare], hrun⟩
  | @swap x y l hxy =>
      obtain ⟨a, b, ha, hb, hab⟩ := hxy
      obtain ⟨hx, hy, hs⟩ := s.step_swap ha hb hab x.1 y.1
      constructor
      · intro e
        have hne : ¬(x.2.exchange? = e ∧ y.2.exchange? = e) := by
          rintro ⟨rfl, h⟩
          exact hab (Option.some.inj (ha.symm.trans (h.symm.trans hb)))
        simp only [share_cons, hx, hy, hs]
        by_cases he : x.2.exchange? = e
        · have he' : ¬y.2.exchange? = e := fun h => hne ⟨he, h⟩
          simp [he, he']
        · simp [he]
      · exact congrArg (fun s : Session => (s.run l).2) hs
  | trans _ _ ih ih' =>
      obtain ⟨hshare, hrun⟩ := ih s
      obtain ⟨hshare', hrun'⟩ := ih' s
      exact ⟨fun e => (hshare' e).trans (hshare e), hrun'.trans hrun⟩

end Session

end AccessLine
