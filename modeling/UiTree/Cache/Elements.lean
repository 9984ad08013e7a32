import UiTree.Cache.Lru
import UiTree.Cache.Feed
import UiTree.Cache.Handle
import UiTree.Snapshot.Capture
import UiTree.Session.Dialogue
import UiTree.Recency

/-!
# The cache of elements

The cache keeps the handles of elements by their identities, of the most recently used ones only,
and tells its feed of every change. Reading a handle counts as a use. A handle that is not fresh
enough is captured again; meanwhile the cache is open to other operations, and an entry that has
gone by the time of the answer is not put back.
-/

namespace UiTree

/-- Handles by identity, and the feed of what happens to them. -/
structure ElementCache where
  entries : Lru Identity Handle
  feed : Feed

namespace ElementCache

/-- The empty cache. -/
def create (capacity : Nat) (feed : Feed) : Outcome ElementCache := do
  let entries ← Lru.create capacity
  .ok ⟨entries, feed⟩

/-- The number of handles. -/
def size (c : ElementCache) : Nat := c.entries.size

/-- Whether an identity is cached. This is not a use. -/
def has (c : ElementCache) (i : Identity) : Bool := c.entries.contains i

/-- The handles from the most to the least recently used one. -/
def handles (c : ElementCache) : List Handle := c.entries.values

/-- Tell the feed. -/
def emit (c : ElementCache) (e : CacheEvent) : ElementCache :=
  { c with feed := c.feed.send e }

/-- Tell the feed of the entry that was dropped to make room, if there was one. -/
def emitDropped (c : ElementCache) : Option (Identity × Handle) → ElementCache
  | none => c
  | some (i, _) => c.emit (.evicted i .capacity)

/-- Cache a captured node under its identity. A node without identity is not cached. -/
def store (c : ElementCache) (s : SnapshotRef) : ElementCache × Option Identity :=
  match s.node.ref.identity? with
  | none => (c, none)
  | some i =>
    let (entries, dropped) := c.entries.put i (.captured (some i) s)
    (({ c with entries }.emit (.stored i)).emitDropped dropped, some i)

/-- Cache a captured node if it has an identity, and return its handle. -/
def handleFor (c : ElementCache) (s : SnapshotRef) : ElementCache × Handle :=
  let (c, i) := c.store s
  (c, .captured i s)

/-- The handles of some captured nodes, cached one after the other. -/
def handlesFor (c : ElementCache) : List SnapshotRef → ElementCache × List Handle
  | [] => (c, [])
  | s :: rest =>
    let (c, h) := c.handleFor s
    let (c, hs) := c.handlesFor rest
    (c, h :: hs)

/-- Drop the entry of an element that has left the tree, if there is one. -/
def evictStale (c : ElementCache) (i : Identity) : ElementCache :=
  match c.entries.remove i with
  | (entries, some _) => { c with entries }.emit (.evicted i .stale)
  | (_, none) => c

/-- Drop every entry. -/
def reset (c : ElementCache) : ElementCache :=
  { c with entries := c.entries.clear }.emit (.reset c.size)

/-- Read a handle, which counts as a use. -/
def use (c : ElementCache) (i : Identity) : ElementCache × Option Handle :=
  let (entries, h) := c.entries.get i
  ({ c with entries }, h)

/-- Write a handle over the cached one, which counts as a use. What is not cached stays so. -/
def overwrite (c : ElementCache) (i : Identity) (h : Handle) : ElementCache × Unit :=
  ({ c with entries := (c.entries.modify i fun _ => h).1 }, ())

end ElementCache

/-- An operation on a cache. -/
abbrev CacheOperation (α : Type) := Operation ElementCache α

namespace ElementCache

/-- Capture a target. -/
def capture (q : CaptureRequest) (target : NodeRef) : CacheOperation Snapshot := do
  match ← Operation.ask (.capture target q.attributes.provided q.maxDepth q.timeout) with
  | .error e => Operation.fail (e.toError target)
  | .ok raw =>
    let now ← Operation.ask .time
    return q.snapshot now raw

/-- Run an operation about an element, and drop the element's entry when the operation finds that
a target has left the tree. -/
def evictingStale {α : Type} (i : Identity) (m : CacheOperation α) : CacheOperation α := do
  match ← Operation.attempt m with
  | .ok a => return a
  | .error (.stale gone) =>
    Operation.update fun c => (c.evictStale i, ())
    Operation.fail (.stale gone)
  | .error e => Operation.fail e

/-- The cached handle of an identity, captured again unless it is fresh enough. -/
def resolve (i : Identity) (recency : Recency) (q : CaptureRequest) : CacheOperation Handle := do
  match ← Operation.update (·.use i) with
  | none => Operation.fail (.notCached i)
  | some cached =>
    let now ← Operation.ask .time
    if cached.isFresh recency.accepts now then return cached
    let s ← evictingStale i (capture q i.ref)
    let handle ← Operation.ofOutcome (cached.refreshed (.ofRoot s))
    Operation.update (·.overwrite i handle)
    return handle

end ElementCache

end UiTree
