import UiTree.Snapshot.Capture
import UiTree.Predicate.Basic

/-!
# Captures with fewer attributes

A node restricted to a set of attributes shows the attributes of the set as before and nothing else
that was captured. Capturing fewer attributes has the same effect as restricting every node of a
capture with more of them.
-/

namespace UiTree

namespace Properties

theorem restrict_restrict {s t : AttributeSet} (h : ∀ a, a ∈ s → a ∈ t) (p : Properties) :
    (p.restrict t).restrict s = p.restrict s := by
  have keep {α : Type} (a : Attribute) (x : Option α) :
      (if s.has a then (if t.has a then x else none) else none) =
        if s.has a then x else none := by
    split
    · next ha =>
      have hat : t.has a = true := h a ha
      rw [if_pos hat]
    · rfl
  simp only [restrict, keep]

end Properties

namespace SnapshotNode

/-- Keep the values of the attributes in a set. -/
def restrict (s : AttributeSet) (n : SnapshotNode) : SnapshotNode :=
  { n with properties := n.properties.restrict s }

variable {s : AttributeSet} {n : SnapshotNode}

/-- Restriction leaves the texts of the attributes in the set. -/
theorem text?_restrict {a : DocumentAttribute} (h : a.source ∈ s) :
    (n.restrict s).text? a = n.text? a := by
  have h : s.has a.source = true := h
  cases a <;> simp_all [restrict, Properties.restrict, text?, DocumentAttribute.source]

/-- Restriction leaves what predicates compare of the attributes in the set. -/
theorem comparedText?_restrict {a : Attribute} (h : a ∈ s) :
    (n.restrict s).comparedText? a = n.comparedText? a := by
  have h : s.has a = true := h
  cases a <;> simp_all [restrict, Properties.restrict, comparedText?, text?]

end SnapshotNode

namespace CaptureRequest

mutual

/-- The nodes of a narrow capture are the restricted nodes of a wide one. -/
theorem nodesOf_restrict {q q' : CaptureRequest} (hdepth : q.maxDepth = q'.maxDepth)
    (h : ∀ a, a ∈ q.attributes → a ∈ q'.attributes) (start : Nat) (parent : Option Nat)
    (depth index : Nat) (raw : RawNode) :
    q.nodesOf start parent depth index raw =
      (q'.nodesOf start parent depth index raw).map (·.restrict q.attributes) := by
  match raw with
  | .mk ref properties none =>
      simp [nodesOf, SnapshotNode.restrict, Properties.restrict_restrict h]
  | .mk ref properties (some children) =>
      rw [nodesOf, nodesOf, hdepth]
      split
      · simp [nodesOfSiblings_restrict hdepth h, SnapshotNode.restrict,
          Properties.restrict_restrict h]
      · simp [SnapshotNode.restrict, Properties.restrict_restrict h]

theorem nodesOfSiblings_restrict {q q' : CaptureRequest} (hdepth : q.maxDepth = q'.maxDepth)
    (h : ∀ a, a ∈ q.attributes → a ∈ q'.attributes) (start parent depth index : Nat)
    (siblings : List RawNode) :
    q.nodesOfSiblings start parent depth index siblings =
      ((q'.nodesOfSiblings start parent depth index siblings).1,
        (q'.nodesOfSiblings start parent depth index siblings).2.map
          (·.restrict q.attributes)) := by
  match siblings with
  | [] => simp [nodesOfSiblings]
  | sibling :: siblings =>
      simp [nodesOfSiblings, nodesOf_restrict hdepth h, nodesOfSiblings_restrict hdepth h]

end

/-- A narrow capture holds the restricted nodes of a wide one. -/
theorem snapshot_nodes_restrict {q q' : CaptureRequest} (hdepth : q.maxDepth = q'.maxDepth)
    (h : ∀ a, a ∈ q.attributes → a ∈ q'.attributes) (time time' : Nat) (raw : RawNode) :
    (q.snapshot time raw).nodes =
      (q'.snapshot time' raw).nodes.map (·.restrict q.attributes) := by
  simp [snapshot, nodesOf_restrict hdepth h]

end CaptureRequest

end UiTree
