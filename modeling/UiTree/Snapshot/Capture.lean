import UiTree.Snapshot.Basic
import UiTree.Provider.Call

/-!
# Capturing

A capture lists the reported nodes in document order, down to the depth that was asked for, and
keeps of each the attributes that were asked for. It makes no difference what else the provider
has reported.
-/

namespace UiTree

namespace CaptureRequest

mutual

/-- The nodes of a subtree, the first of them at position `start`. -/
def nodesOf (q : CaptureRequest) (start : Nat) (parent : Option Nat) (depth index : Nat) :
    RawNode → List SnapshotNode
  | .mk ref properties none =>
    [⟨ref, properties.restrict q.attributes, none, parent, depth, index⟩]
  | .mk ref properties (some children) =>
    if depth < q.maxDepth then
      let (roots, nodes) := q.nodesOfSiblings (start + 1) start (depth + 1) 0 children
      ⟨ref, properties.restrict q.attributes, some roots, parent, depth, index⟩ :: nodes
    else [⟨ref, properties.restrict q.attributes, none, parent, depth, index⟩]

/-- The positions of some siblings, and the nodes of their subtrees one after the other. -/
def nodesOfSiblings (q : CaptureRequest) (start parent depth index : Nat) :
    List RawNode → List Nat × List SnapshotNode
  | [] => ([], [])
  | sibling :: siblings =>
    let nodes := q.nodesOf start (some parent) depth index sibling
    let (roots, more) :=
      q.nodesOfSiblings (start + nodes.length) parent depth (index + 1) siblings
    (start :: roots, nodes ++ more)

end

theorem nodesOf_ne_nil (q : CaptureRequest) (start : Nat) (parent : Option Nat)
    (depth index : Nat) (raw : RawNode) : q.nodesOf start parent depth index raw ≠ [] := by
  obtain ⟨ref, properties, children⟩ := raw
  cases children with
  | none => simp [nodesOf]
  | some children =>
      rw [nodesOf]
      split <;> simp

/-- The snapshot of a reported tree. -/
def snapshot (q : CaptureRequest) (time : Nat) (raw : RawNode) : Snapshot where
  nodes := (q.nodesOf 0 none 0 0 raw).toArray
  nodes_pos := by
    simpa [List.length_pos_iff] using q.nodesOf_ne_nil 0 none 0 0 raw
  attributes := q.attributes
  maxDepth := q.maxDepth
  capturedAt := time

/-- The result of a capture from the provider's answer. -/
def result (q : CaptureRequest) (target : NodeRef) (time : Nat) :
    Except ProviderError RawNode → Outcome Snapshot
  | .ok raw => .ok (q.snapshot time raw)
  | .error e => .error (e.toError target)

end CaptureRequest

end UiTree
