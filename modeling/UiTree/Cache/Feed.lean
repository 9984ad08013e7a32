import UiTree.Identity

/-!
# Events of the cache

Whoever follows the cache is told of what was stored, what was evicted and why, and when the cache
was emptied. Events wait in a feed of bounded length until they are received. A full feed loses
either the oldest event or the new one.
-/

namespace UiTree

/-- Why an entry was evicted. -/
inductive Eviction where
  /-- A new entry took its place. -/
  | capacity
  /-- The element has left the tree. -/
  | stale
deriving DecidableEq, Repr

/-- What happened to the cache. -/
inductive CacheEvent where
  | stored (identity : Identity)
  | evicted (identity : Identity) (reason : Eviction)
  /-- The cache was emptied of so many entries. -/
  | reset (dropped : Nat)
deriving DecidableEq, Repr

/-- Events that wait to be received. Events count from the first change of the cache on: what is
sent before anyone follows the cache waits here, whereas a channel that nobody follows drops it. -/
structure Feed where
  capacity : Nat
  /-- Whether a full feed loses the oldest event rather than the new one. -/
  dropsOldest : Bool
  pending : List CacheEvent := []
  /-- The number of events lost since events were last received. -/
  lost : Nat := 0

namespace Feed

/-- Add an event. -/
def send (f : Feed) (e : CacheEvent) : Feed :=
  if f.pending.length < f.capacity then { f with pending := f.pending ++ [e] }
  else if f.dropsOldest then
    { f with pending := f.pending.drop 1 ++ [e], lost := f.lost + 1 }
  else { f with lost := f.lost + 1 }

/-- The number of lost events that the receiver learns of. Events lost at the end leave no gap that
it could notice. -/
def missed (f : Feed) : Nat :=
  if f.dropsOldest then f.lost else 0

/-- Receive everything: the number of events that were missed, then the events. -/
def receive (f : Feed) : (Nat × List CacheEvent) × Feed :=
  ((f.missed, f.pending), { f with pending := [], lost := 0 })

end Feed

end UiTree
