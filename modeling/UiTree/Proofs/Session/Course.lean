import UiTree.Session.Dialogue

/-!
# Courses of operations

A course of an operation is one way for it to come to an end: the questions it put with the answers
it was given, the state as it was handed out and as it was found again with each of them, and the
result and the state it ended with.

## Implementation notes

The state that is found with an answer may be any state. A statement about courses that counts on
more asks it of the exchanges.
-/

namespace UiTree

variable {σ α β : Type}

/-- A question with its answer, and the state before and after. -/
structure Exchange (σ : Type) where
  question : Question
  handed : σ
  answer : question.Answer
  found : σ

namespace Dialogue

/-- The dialogue comes to its end by some exchanges. -/
inductive Course : Dialogue σ α → List (Exchange σ) → α → σ → Prop where
  | done (a : α) (s : σ) : Course (.done a s) [] a s
  | ask {q : Question} {s found t : σ} {resume : q.Answer → σ → Dialogue σ α} {answer : q.Answer}
      {history : List (Exchange σ)} {a : α} (h : Course (resume answer found) history a t) :
      Course (.ask q s resume) (⟨q, s, answer, found⟩ :: history) a t

variable {x : Dialogue σ α} {f : α → σ → Dialogue σ β} {first second history : List (Exchange σ)}
  {a : α} {b : β} {s t : σ}

theorem course_done_iff {a' : α} : (done a s).Course history a' t ↔
    history = [] ∧ a' = a ∧ t = s := by
  constructor
  · rintro ⟨⟩
    exact ⟨rfl, rfl, rfl⟩
  · rintro ⟨rfl, rfl, rfl⟩
    exact .done _ _

namespace Course

theorem bind (hx : x.Course first a s) (hf : (f a s).Course second b t) :
    (x.bind f).Course (first ++ second) b t := by
  induction hx with
  | done => exact hf
  | ask _ ih => exact .ask (ih hf)

/-- A course of two dialogues, one after the other, is made of a course of each. -/
theorem exists_of_bind (h : (x.bind f).Course history b t) : ∃ first second a s,
    history = first ++ second ∧ x.Course first a s ∧ (f a s).Course second b t := by
  induction x generalizing history with
  | done a s => exact ⟨[], history, a, s, rfl, .done a s, h⟩
  | ask q s resume ih =>
      cases h with
      | ask h =>
          obtain ⟨first, second, a, s', rfl, hx, hf⟩ := ih _ _ h
          exact ⟨_ :: first, second, a, s', rfl, .ask hx, hf⟩

/-- Whoever answers the questions, a dialogue that is answered runs a course. -/
theorem exists_of_run {ω : Type} (host : (q : Question) → ω → σ → q.Answer × ω × σ)
    (x : Dialogue σ α) (w : ω) :
    ∃ history, x.Course history (x.run host w).1 (x.run host w).2.2 := by
  induction x generalizing w with
  | done a s => exact ⟨[], .done a s⟩
  | ask q s resume ih =>
      obtain ⟨history, h⟩ := ih (host q w s).1 (host q w s).2.2 (host q w s).2.1
      exact ⟨_ :: history, .ask h⟩

end Course

end Dialogue

namespace Operation

/-- An operation on a state comes to an end by some exchanges. -/
def Course (m : Operation σ α) (s : σ) (history : List (Exchange σ)) (r : Outcome α) (t : σ) :
    Prop :=
  (m s).Course history r t

variable {m : Operation σ α} {f : α → Operation σ β} {first second history : List (Exchange σ)}
  {a : α} {e : Error} {s t u : σ} {r : Outcome α}

theorem course_pure_iff :
    (pure a : Operation σ α).Course s history r t ↔ history = [] ∧ r = .ok a ∧ t = s :=
  Dialogue.course_done_iff

theorem course_fail_iff :
    (fail e : Operation σ α).Course s history r t ↔ history = [] ∧ r = .error e ∧ t = s :=
  Dialogue.course_done_iff

theorem not_course_pure_error : ¬ (pure a : Operation σ α).Course s history (.error e) t := by
  intro h
  obtain ⟨-, he, -⟩ := course_pure_iff.mp h
  cases he

theorem course_fail_error_iff {e' : Error} :
    (fail e' : Operation σ α).Course s history (.error e) t ↔ history = [] ∧ e = e' ∧ t = s := by
  rw [course_fail_iff, Except.error.injEq]

theorem course_ofOutcome_iff {r' : Outcome α} :
    (ofOutcome r' : Operation σ α).Course s history r t ↔ history = [] ∧ r = r' ∧ t = s :=
  Dialogue.course_done_iff

theorem course_update_iff {f : σ → σ × α} :
    (update f).Course s history r t ↔ history = [] ∧ r = .ok (f s).2 ∧ t = (f s).1 :=
  Dialogue.course_done_iff

theorem not_course_update_error {f : σ → σ × α} : ¬ (update f).Course s history (.error e) t := by
  intro h
  obtain ⟨-, he, -⟩ := course_update_iff.mp h
  cases he

theorem course_attempt_iff {r : Outcome (Outcome α)} :
    m.attempt.Course s history r t ↔ ∃ r', r = .ok r' ∧ m.Course s history r' t := by
  constructor
  · intro h
    obtain ⟨first, second, r', t', rfl, hm, hdone⟩ := Dialogue.Course.exists_of_bind h
    obtain ⟨rfl, rfl, rfl⟩ := Dialogue.course_done_iff.mp hdone
    exact ⟨r', rfl, by rwa [List.append_nil]⟩
  · rintro ⟨r', rfl, hm⟩
    rw [← List.append_nil history]
    exact Dialogue.Course.bind hm (.done _ _)

namespace Course

theorem bind {r : Outcome β} (hm : m.Course s first (.ok a) t) (hf : (f a).Course t second r u) :
    (m >>= f).Course s (first ++ second) r u :=
  Dialogue.Course.bind hm hf

theorem bind_error (hm : m.Course s history (.error e) t) :
    (m >>= f).Course s history (.error e) t := by
  rw [← List.append_nil history]
  exact Dialogue.Course.bind hm (.done _ _)

/-- An operation after another either does not begin, because the other failed, or goes on with what
the other succeeded with. -/
theorem of_bind {r : Outcome β} (h : (m >>= f).Course s history r u) :
    (∃ e, r = .error e ∧ m.Course s history (.error e) u) ∨
      ∃ first second a t, history = first ++ second ∧ m.Course s first (.ok a) t ∧
        (f a).Course t second r u := by
  obtain ⟨first, second, r', t, rfl, hm, hrest⟩ := Dialogue.Course.exists_of_bind h
  cases r' with
  | ok a => exact .inr ⟨first, second, a, t, rfl, hm, hrest⟩
  | error e =>
      obtain ⟨rfl, rfl, rfl⟩ := Dialogue.course_done_iff.mp hrest
      exact .inl ⟨e, rfl, by rwa [List.append_nil]⟩

end Course

/-! ### What follows an operation that never fails -/

theorem update_bind_apply (f : σ → σ × α) (g : α → Operation σ β) (s : σ) :
    (update f >>= g) s = g (f s).2 (f s).1 := rfl

theorem course_update_bind_iff {f : σ → σ × α} {g : α → Operation σ β} {r : Outcome β} :
    (update f >>= g).Course s history r t ↔ (g (f s).2).Course (f s).1 history r t :=
  Iff.rfl

theorem course_read_bind_iff {f : σ → α} {g : α → Operation σ β} {r : Outcome β} :
    (read f >>= g).Course s history r t ↔ (g (f s)).Course s history r t :=
  Iff.rfl

theorem course_ask_bind_iff {q : Question} {g : q.Answer → Operation σ β} {r : Outcome β} :
    (ask q >>= g).Course s history r t ↔ ∃ answer found rest,
      history = ⟨q, s, answer, found⟩ :: rest ∧ (g answer).Course found rest r t := by
  constructor
  · rintro (_ | h)
    exact ⟨_, _, _, rfl, h⟩
  · rintro ⟨answer, found, rest, rfl, h⟩
    exact .ask h

theorem course_attempt_bind_iff {g : Outcome α → Operation σ β} {r : Outcome β} :
    (m.attempt >>= g).Course s history r t ↔ ∃ first second r' u, history = first ++ second ∧
      m.Course s first r' u ∧ (g r').Course u second r t := by
  constructor
  · intro h
    obtain ⟨e, -, hattempt⟩ | ⟨first, second, r', u, rfl, hattempt, hg⟩ := h.of_bind
    · obtain ⟨r', hr', -⟩ := course_attempt_iff.mp hattempt
      cases hr'
    · obtain ⟨r', hr', hm⟩ := course_attempt_iff.mp hattempt
      obtain rfl := Except.ok.inj hr'
      exact ⟨first, second, _, u, rfl, hm, hg⟩
  · rintro ⟨first, second, r', u, rfl, hm, hg⟩
    exact .bind (course_attempt_iff.mpr ⟨r', rfl, hm⟩) hg

end Operation

end UiTree
