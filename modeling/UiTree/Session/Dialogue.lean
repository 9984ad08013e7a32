import UiTree.Provider.Call

/-!
# Operations that ask questions

An operation works on a state and asks its host questions: for the roots of the active
applications, for a capture, for the time, or to sleep. While a question is open the state is the
host's, which may run other operations on it before it answers. An operation is therefore a tree:
it is done, or it hands out a question together with the state and goes on from an answer and from
the state as it then is.

## Implementation notes

Questions are data and the host is whoever answers them, so a statement about an operation can
range over all answers and over all changes of the state in between. Every branch of the tree is
finite.
-/

namespace UiTree

/-- What an operation asks its host. Times and durations are in nanoseconds. -/
inductive Question where
  /-- The roots of the active applications, the frontmost first. -/
  | activeRoots
  /-- A target with its descendants, down to some levels, within a budget of time. -/
  | capture (target : NodeRef) (attributes : AttributeSet) (maxDepth : Nat) (budget : Nat)
  /-- The time. -/
  | time
  /-- The time after a pause. -/
  | sleep (duration : Nat)

/-- What a question is answered with. -/
abbrev Question.Answer : Question → Type
  | activeRoots => Except ProviderError (List RawNode)
  | capture _ _ _ _ => Except ProviderError RawNode
  | time => Nat
  | sleep _ => Nat

/-- Whether a question is put to the provider. The others are put to the clock. -/
def Question.isCall : Question → Bool
  | activeRoots | capture _ _ _ _ => true
  | time | sleep _ => false

/-- The course of an operation on a state, as far as its answers decide it. -/
inductive Dialogue (σ α : Type) where
  | done (result : α) (state : σ)
  | ask (question : Question) (state : σ) (resume : question.Answer → σ → Dialogue σ α)

namespace Dialogue

variable {σ α β ω : Type}

/-- Go on after the end. -/
def bind : Dialogue σ α → (α → σ → Dialogue σ β) → Dialogue σ β
  | done a s, next => next a s
  | ask q s resume, next => ask q s fun answer s => (resume answer s).bind next

/-- Answer all questions. The host keeps a world of its own, and may change the state each time it
is asked. -/
def run (host : (q : Question) → ω → σ → q.Answer × ω × σ) : Dialogue σ α → ω → α × ω × σ
  | done a s, w => (a, w, s)
  | ask q s resume, w =>
    let (answer, w, s) := host q w s
    (resume answer s).run host w

theorem bind_done (d : Dialogue σ α) : d.bind done = d := by
  induction d with
  | done => rfl
  | ask q s resume ih => simp only [bind, ih]

theorem bind_assoc {γ : Type} (d : Dialogue σ α) (f : α → σ → Dialogue σ β)
    (g : β → σ → Dialogue σ γ) :
    (d.bind f).bind g = d.bind fun a s => (f a s).bind g := by
  induction d with
  | done => rfl
  | ask q s resume ih => simp only [bind, ih]

end Dialogue

/-- An operation on a state, which may fail. What a failing operation did to the state before it
failed is kept. -/
def Operation (σ α : Type) : Type :=
  σ → Dialogue σ (Outcome α)

namespace Operation

variable {σ α β : Type}

/-- Go on after success. -/
protected def bind (m : Operation σ α) (f : α → Operation σ β) : Operation σ β := fun s =>
  (m s).bind fun
    | .ok a, s => f a s
    | .error e, s => .done (.error e) s

instance : Monad (Operation σ) where
  pure a := fun s => .done (.ok a) s
  bind := Operation.bind

/-- Fail. -/
def fail (e : Error) : Operation σ α := fun s => .done (.error e) s

/-- Succeed or fail as an outcome says. -/
def ofOutcome (r : Outcome α) : Operation σ α := fun s => .done r s

/-- Change the state and use what the change returns. -/
def update (f : σ → σ × α) : Operation σ α := fun s => let (s, a) := f s; .done (.ok a) s

/-- Read the state. -/
def read (f : σ → α) : Operation σ α := fun s => .done (.ok (f s)) s

/-- Run an operation and go on with its outcome, be it a failure. -/
def attempt (m : Operation σ α) : Operation σ (Outcome α) := fun s =>
  (m s).bind fun r s => .done (.ok r) s

/-- Ask a question. -/
def ask (q : Question) : Operation σ q.Answer := fun s =>
  .ask q s fun answer s => .done (.ok answer) s

end Operation

end UiTree
