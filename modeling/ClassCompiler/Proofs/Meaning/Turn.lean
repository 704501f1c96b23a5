/-!
# Systems that take turns with the world

A machine at work either goes on by itself or asks something and waits for the answer, until it
stops.  What it does next is its *turn*.  Nothing is said about who answers: a system is compared
with another turn by turn, for every answer that might come.

A *simulation* of one system by another is a relation of their states.  Where the first goes on by
itself, the second gets to a related state by going on by itself, in as many turns as it needs;
where the first asks, the second comes to ask the same, and after the same answer to a related
state; and they stop in the same way.  Nothing is asked where the first system is stuck.

* `Simulation`: turn by turn.
* `Simulation.run`: whole runs, with everything that is asked and answered on the way.
-/

namespace ClassCompiler
namespace Meaning

/-- What a system with states `S`, questions `Q` and answers `A` does next. -/
inductive Turn (S Q A : Type) where
  /-- Goes on by itself. -/
  | silent (next : S)
  /-- Asks, and goes on with the answer unless it makes no sense. -/
  | ask (question : Q) (resume : A → Option S)
  | stop (result : A)
  /-- A division by zero. -/
  | trap
  /-- There is no instruction left. -/
  | over
  /-- What was to be done has no meaning. -/
  | stuck

variable {S Q A S' Q' A' : Type}

/-- A system gets from one state to another by itself. -/
inductive Silently (turn : S → Turn S Q A) : S → S → Prop
  | refl (s : S) : Silently turn s s
  | step {s t u : S} (h : turn s = .silent t) (h' : Silently turn t u) : Silently turn s u

namespace Silently

variable {turn : S → Turn S Q A} {s t u : S}

theorem one (h : turn s = .silent t) : Silently turn s t :=
  .step h (.refl t)

theorem trans (h : Silently turn s t) (h' : Silently turn t u) : Silently turn s u := by
  induction h with
  | refl => exact h'
  | step h _ ih => exact .step h (ih h')

end Silently

/-- What is asked and answered on the way from one state to another. -/
inductive Runs (turn : S → Turn S Q A) : S → List (Q × A) → S → Prop
  | refl (s : S) : Runs turn s [] s
  | silent {s t u : S} {events : List (Q × A)} (h : turn s = .silent t)
    (h' : Runs turn t events u) : Runs turn s events u
  | ask {s t u : S} {q : Q} {resume : A → Option S} {a : A} {events : List (Q × A)}
    (h : turn s = .ask q resume) (ha : resume a = some t) (h' : Runs turn t events u) :
    Runs turn s ((q, a) :: events) u

theorem Silently.runs {turn : S → Turn S Q A} {s t u : S} {events : List (Q × A)}
    (h : Silently turn s t) (h' : Runs turn t events u) : Runs turn s events u := by
  induction h with
  | refl => exact h'
  | step h _ ih => exact .silent h (ih h')

/-- From a state, a system follows a turn of another one, given which states, which questions and
which answers are the same. -/
def Turn.FollowedBy (turn' : S' → Turn S' Q' A') (R : S → S' → Prop) (sameQuestion : Q → Q' → Prop)
    (sameAnswer : A → A' → Prop) (t : S') : Turn S Q A → Prop
  | .silent s' => ∃ t', Silently turn' t t' ∧ R s' t'
  | .ask q resume => ∃ t' q' resume', Silently turn' t t' ∧ turn' t' = .ask q' resume' ∧
    sameQuestion q q' ∧ ∀ a a' s', sameAnswer a a' → resume a = some s' →
      ∃ u u', resume' a' = some u ∧ Silently turn' u u' ∧ R s' u'
  | .stop a => ∃ t' a', Silently turn' t t' ∧ turn' t' = .stop a' ∧ sameAnswer a a'
  | .trap => ∃ t', Silently turn' t t' ∧ turn' t' = .trap
  | .over => ∃ t', Silently turn' t t' ∧ turn' t' = .over
  | .stuck => True

/-- A relation of states by which one system follows another, turn by turn. -/
def Simulation (turn : S → Turn S Q A) (turn' : S' → Turn S' Q' A') (R : S → S' → Prop)
    (sameQuestion : Q → Q' → Prop) (sameAnswer : A → A' → Prop) : Prop :=
  ∀ s t, R s t → (turn s).FollowedBy turn' R sameQuestion sameAnswer t

/-- The same questions with the same answers. -/
def SameEvents (sameQuestion : Q → Q' → Prop) (sameAnswer : A → A' → Prop) :
    List (Q × A) → List (Q' × A') → Prop
  | [], [] => True
  | (q, a) :: events, (q', a') :: events' =>
    sameQuestion q q' ∧ sameAnswer a a' ∧ SameEvents sameQuestion sameAnswer events events'
  | _, _ => False

/-- **Whole runs.**  A run of the first system is followed by one of the second, if the answers of
the first have answers of the second that are the same. -/
theorem Simulation.run {turn : S → Turn S Q A} {turn' : S' → Turn S' Q' A'} {R : S → S' → Prop}
    {sameQuestion : Q → Q' → Prop} {sameAnswer : A → A' → Prop}
    (h : Simulation turn turn' R sameQuestion sameAnswer) {s u : S} {events : List (Q × A)}
    (hrun : Runs turn s events u) (hanswers : ∀ event ∈ events, ∃ a', sameAnswer event.2 a')
    {t : S'} (hR : R s t) :
    ∃ events' u', Runs turn' t events' u' ∧ R u u' ∧
      SameEvents sameQuestion sameAnswer events events' := by
  induction hrun generalizing t with
  | refl s => exact ⟨[], t, .refl t, hR, trivial⟩
  | silent hturn _ ih =>
    have hfollowed := h _ t hR
    rw [hturn] at hfollowed
    obtain ⟨t', hsilent, hR'⟩ := hfollowed
    obtain ⟨events', u', hruns, hu, hsame⟩ := ih hanswers hR'
    exact ⟨events', u', hsilent.runs hruns, hu, hsame⟩
  | @ask _ _ _ q _ a _ hturn hresume _ ih =>
    have hfollowed := h _ t hR
    rw [hturn] at hfollowed
    obtain ⟨t', q', resume', hsilent, hturn', hq, hgo⟩ := hfollowed
    obtain ⟨a', ha⟩ := hanswers (q, a) List.mem_cons_self
    obtain ⟨v, v', hresume', hsilent', hR'⟩ := hgo a a' _ ha hresume
    obtain ⟨events', u', hruns, hu, hsame⟩ :=
      ih (fun e he => hanswers e (List.mem_cons_of_mem _ he)) hR'
    exact ⟨(q', a') :: events', u',
      hsilent.runs (.ask hturn' hresume' (hsilent'.runs hruns)), hu, hq, ha, hsame⟩

end Meaning
end ClassCompiler
