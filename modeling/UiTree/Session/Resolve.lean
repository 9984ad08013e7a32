import UiTree.Session.Stability
import UiTree.Session.Locate
import UiTree.Snapshot.Relocation

/-!
# Bringing handles up to date

A stable handle is resolved through the cache. An ephemeral handle is looked for in a new capture
of the tree it was captured in. A handle whose element is not found becomes stale.
-/

namespace UiTree

/-- A session: settings that were checked, and a cache. -/
structure Session where
  settings : Settings
  cache : ElementCache

namespace Session

/-- How many events wait for their receiver at most. -/
def feedCapacity : Nat := 1024

/-- A session with an empty cache, unless the settings cannot be used. -/
def create (settings : Settings) : Outcome Session := do
  let settings ← settings.checked
  let cache ← ElementCache.create settings.elementCacheSize.toNat
    { capacity := feedCapacity, dropsOldest := true }
  .ok ⟨settings, cache⟩

/-- End a session, which empties its cache. -/
def close (cache : ElementCache) : ElementCache := cache.reset

/-- The cached handle of an identity, captured again with all attributes unless it is fresh
enough. -/
def resolve (settings : Settings) (i : Identity) (recency : Recency) : CacheOperation Handle :=
  ElementCache.resolve i recency (settings.captureRequest .all)

/-- The cached handle of an identity given as text. -/
def resolveText (settings : Settings) (text : String) (recency : Recency) :
    CacheOperation Handle := do
  resolve settings (← Operation.ofOutcome (Identity.parse text)) recency

/-- The handle of the element that a handle referred to, found in a new capture of the same root
with the same depth. -/
def relocate (settings : Settings) (h : Handle) : CacheOperation (Option Handle) := do
  match h.snapshot with
  | none => Operation.fail (.invalidArgument .handleNeverResolved)
  | some old =>
    let request : CaptureRequest :=
      ⟨old.tree.attributes ∪ .relocation, old.tree.maxDepth, settings.axTimeout⟩
    let fresh ← ElementCache.capture request old.tree.root.ref
    match (old.relocate? fresh settings.frameEpsilon).bind (SnapshotRef.of? fresh) with
    | none => return none
    | some found => return some (← Operation.update (·.handleFor found))

/-- A handle brought up to date, together with what went wrong. -/
def refresh (settings : Settings) (h : Handle) (recency : Recency) :
    CacheOperation (Handle × Outcome Unit) := do
  if h.state = .stale then return (h, .error h.staleError)
  match h.identity with
  | none =>
    let now ← Operation.ask .time
    if h.isFresh recency.accepts now then return (h, .ok ())
    match ← Operation.attempt (relocate settings h) with
    | .ok (some found) => return (found, .ok ())
    | .ok none => return (h.gone, .error h.staleError)
    | .error e => return (h, .error e)
  | some i =>
    match ← Operation.attempt (resolve settings i recency) with
    | .ok resolved =>
      match h.adopted resolved with
      | .ok adopted => return (adopted, .ok ())
      | .error e => return (h, .error e)
    | .error (.stale gone) => return (h.gone, .error (.stale gone))
    | .error e => return (h, .error e)

/-- Wait until a cached element has settled, by default for as long as the settings say. -/
def waitUntilStable (settings : Settings) (i : Identity) (timeout : Option Nat) :
    CacheOperation Bool := do
  if ← Operation.read (·.has i) then
    ElementCache.evictingStale i
      (settings.stabilityRule.wait i.ref (timeout.getD settings.stabilityTimeout))
  else Operation.fail (.notCached i)

end Session

end UiTree
