import UiTree.Provider.RawNode
import UiTree.Error

/-!
# Calls of a provider

What a provider is asked, and how its failures are reported. Durations are in nanoseconds.
-/

namespace UiTree

/-- Why a provider did not answer. -/
inductive ProviderError where
  /-- The call did not end within its budget. -/
  | timeout (budget : Nat)
  /-- The target is not in the tree. -/
  | notFound
  | failed (reason : String)
deriving DecidableEq, Repr

/-- The greatest number of milliseconds that a report shows. -/
def maxMilliseconds : Nat := UInt64.size - 1

/-- A duration in whole milliseconds. -/
def toMilliseconds (duration : Nat) : Nat :=
  min (duration / 1000000) maxMilliseconds

/-- A duration given in milliseconds. -/
def ofMilliseconds (ms : Nat) : Nat :=
  ms * 1000000

/-- The error of a call that was made for a target. A missing target is reported by its identity
if it has one. -/
def ProviderError.toError (target : NodeRef) : ProviderError → Error
  | timeout budget => .timeout (toMilliseconds budget)
  | notFound =>
    match target.identity? with
    | some identity => .stale identity
    | none => .provider (.nodeNotFound target.element)
  | failed reason => .provider (.reported reason)

/-- What to capture: which attributes, down to how many levels below the target, and within
what time. -/
structure CaptureRequest where
  attributes : AttributeSet := .all
  maxDepth : Nat := 50
  timeout : Nat := ofMilliseconds 10000

instance : Inhabited CaptureRequest := ⟨{}⟩

end UiTree
