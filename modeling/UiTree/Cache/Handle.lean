import UiTree.Snapshot.Basic
import UiTree.Error

/-!
# Handles of elements

A handle joins an identity, if the element has one, with the latest snapshot of the element. A
handle with an identity is stable, one without is ephemeral. A handle is unresolved until it has a
snapshot, and stale once its element has left the tree; a stale handle stays stale.
-/

namespace UiTree

/-- The stages of a handle's life. -/
inductive HandleState where
  | unresolved | resolved | stale
deriving DecidableEq, Repr

/-- What a caller holds of an element. -/
structure Handle where
  identity : Option Identity
  snapshot : Option SnapshotRef
  state : HandleState

namespace Handle

/-- The handle of an identity that has not been looked up. -/
def unresolved (i : Identity) : Handle := ⟨some i, none, .unresolved⟩

/-- The handle of an element that was captured. -/
def captured (i : Option Identity) (s : SnapshotRef) : Handle := ⟨i, some s, .resolved⟩

/-- Whether the element can be looked up by its identity. -/
def isStable (h : Handle) : Bool := h.identity.isSome

/-- The captured node. -/
def node? (h : Handle) : Option SnapshotNode := h.snapshot.map SnapshotRef.node

/-- Whether the snapshot of the handle is fresh enough at a time. -/
def isFresh (h : Handle) (accepts : Nat → Bool) (now : Nat) : Bool :=
  h.snapshot.any fun s => accepts (s.tree.age now)

/-- The error of a handle whose element has left the tree. -/
def staleError (h : Handle) : Error :=
  match h.identity with
  | some i => .stale i
  | none => .invalidArgument .handleMatchesNothing

/-- The handle with a newer snapshot, unless it is stale. -/
def refreshed (h : Handle) (s : SnapshotRef) : Outcome Handle :=
  if h.state = .stale then .error h.staleError
  else .ok { h with snapshot := some s, state := .resolved }

/-- The handle with the snapshot of another handle of the same identity. -/
def adopted (h resolved : Handle) : Outcome Handle :=
  match resolved.snapshot with
  | some s =>
    if h.identity = resolved.identity then h.refreshed s
    else .error (.invalidArgument .handleOfAnother)
  | none => .error (.invalidArgument .handleOfAnother)

/-- The handle of an element that has left the tree. -/
def gone (h : Handle) : Handle := { h with state := .stale }

end Handle

end UiTree
