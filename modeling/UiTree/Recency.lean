/-!
# How old a snapshot may be

A caller states how far a cached snapshot may be trusted: unconditionally, not at all, or up to an
age.
-/

namespace UiTree

/-- The freshness a caller asks for. Ages are in nanoseconds. -/
inductive Recency where
  /-- Any snapshot will do. -/
  | any
  /-- Only a new capture will do. -/
  | current
  /-- A snapshot of at most this age will do. -/
  | maxAge (age : Nat)
deriving DecidableEq, Repr

namespace Recency

/-- Nanoseconds in a millisecond. -/
def perMillisecond : Nat := 1000000

/-- A greatest age in milliseconds. -/
def maxAgeMilliseconds (ms : Nat) : Recency :=
  .maxAge (ms * perMillisecond)

/-- The freshness that a plain wish to check for staleness asks for. -/
def ofCheck (check : Bool) : Recency :=
  if check then .current else .any

/-- Whether a snapshot of the given age is fresh enough. -/
def accepts : Recency → Nat → Bool
  | any, _ => true
  | current, _ => false
  | maxAge limit, age => age ≤ limit

instance : Inhabited Recency := ⟨.any⟩

end Recency

end UiTree
