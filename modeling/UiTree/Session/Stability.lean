import UiTree.Session.Dialogue
import UiTree.Session.Settings

/-!
# Waiting for an element to settle

An element is read again and again until two readings in a row agree or the time is over. A
reading that the provider did not answer in time breaks the row. Whatever else goes wrong ends the
wait.

## Implementation notes

A pause lasts at least as long as was asked for, and some time passes with every pause. A clock
that says less is taken to say that much, so the time that is left shrinks from one reading to the
next. A clock that stands still through pauses of no length would have the element read for ever;
that is left out here, and settings with such a pause are refused.

Times have no greatest value here, so every wait has a deadline. Where they have one, a wait with a
deadline beyond it breaks off before the first reading; that end is left out as well.
-/

namespace UiTree

/-- How to wait. Times are in nanoseconds. -/
structure StabilityRule where
  /-- The pause between two readings. -/
  pollInterval : Nat := ofMilliseconds 50
  /-- By how much a component of a frame may differ. -/
  epsilon : Float := 0.5
  /-- The budget of a call. -/
  axTimeout : Nat := ofMilliseconds 10000

/-- The rule of some settings. -/
def Settings.stabilityRule (s : Settings) : StabilityRule :=
  ⟨s.pollInterval, s.frameEpsilon, s.axTimeout⟩

namespace Properties

/-- Whether two readings have frames that agree, or neither has a frame. -/
def framesAgree (a b : Properties) (epsilon : Float) : Bool :=
  match a.frame, b.frame with
  | some f, some g => f.agrees g epsilon
  | none, none => true
  | _, _ => false

/-- Whether two readings of an element agree. -/
def settled (a b : Properties) (epsilon : Float) : Bool :=
  a.framesAgree b epsilon && a.enabled == b.enabled && a.visible == b.visible

end Properties

namespace StabilityRule

variable {σ : Type}

/-- What a reading decides. -/
inductive Verdict where
  /-- It agrees with the reading before it. -/
  | settled
  /-- Go on with it, or without a reading. -/
  | unsettled (reading : Option Properties)
  | failed (e : Error)

/-- What an answer decides after the previous reading. -/
def verdict (rule : StabilityRule) (target : NodeRef) (previous : Option Properties) :
    Except ProviderError RawNode → Verdict
  | .ok raw =>
    if previous.any (·.settled raw.properties rule.epsilon) then .settled
    else .unsettled (some raw.properties)
  | .error (.timeout _) => .unsettled none
  | .error e => .failed (e.toError target)

/-- Read until two readings agree, from the time `now` on. -/
def poll (rule : StabilityRule) (target : NodeRef) (deadline now : Nat)
    (previous : Option Properties) : Operation σ Bool := do
  let answer ← Operation.ask
    (.capture target .stability 0 (min rule.axTimeout (deadline - now)))
  match rule.verdict target previous answer with
  | .settled => return true
  | .failed e => Operation.fail e
  | .unsettled reading =>
    let read := max now (← Operation.ask .time)
    if deadline ≤ read then return false
    let pause := min rule.pollInterval (deadline - read)
    let woken := max (read + max pause 1) (← Operation.ask (.sleep pause))
    if _h : deadline ≤ woken then return false
    rule.poll target deadline woken reading
termination_by deadline - now

/-- Wait until an element has settled, for at most some time. -/
def wait (rule : StabilityRule) (target : NodeRef) (timeout : Nat) : Operation σ Bool := do
  let now ← Operation.ask .time
  rule.poll target (now + timeout) now none

end StabilityRule

end UiTree
