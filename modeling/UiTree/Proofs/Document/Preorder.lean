import Mathlib.Data.List.Basic
import Mathlib.Logic.Relation
import UiTree.Document.Basic
import UiTree.Snapshot.Capture

/-!
# Documents in order

In the document of a capture every element is followed by what is below it: the first child and what
is below that, then the second child, and so on. So an element and what is below it take up a range
of positions, the walk from the children of an element comes by the rest of this range in order, and
parents stand before their children.

## Implementation notes

The range of an element is described together with the ranges of the elements that wait on a stack
with it, since a walk has the children of one element on the stack above the siblings of another.
-/

namespace UiTree

namespace Document

variable {d : Document} {start middle stop i j p c : Nat} {stack more : List Nat}

/-- One element is the parent of another. -/
abbrev Above (d : Document) (p c : Nat) : Prop := d.parentOf? c = some p

/-- The elements on a stack and what is below them take up the positions from `start` on and before
`stop`, one after the other. -/
inductive Fills (d : Document) : Nat → List Nat → Nat → Prop where
  | nil (stop : Nat) : Fills d stop [] stop
  | cons {i middle stop : Nat} {stack : List Nat} (hparent : ∀ c ∈ d.childrenOf i, d.Above i c)
      (below : Fills d (i + 1) (d.childrenOf i) middle) (after : Fills d middle stack stop) :
      Fills d i (i :: stack) stop

namespace Fills

theorem append (h : d.Fills start stack middle) (hmore : d.Fills middle more stop) :
    d.Fills start (stack ++ more) stop := by
  induction h with
  | nil => exact hmore
  | cons hparent below _ _ ih => exact .cons hparent below (ih hmore)

theorem le (h : d.Fills start stack stop) : start ≤ stop := by
  induction h with
  | nil => exact Nat.le_refl _
  | cons _ _ _ hbelow hafter => omega

/-- A walk comes by the positions in order, and its steps need to be no more than these. -/
theorem walk_eq {steps : Nat} (h : d.Fills start stack stop) (hsteps : stop - start ≤ steps) :
    d.walk steps stack = List.range' start (stop - start) := by
  induction steps generalizing start stack with
  | zero =>
      rw [Nat.le_zero.mp hsteps]
      rfl
  | succ steps ih =>
      cases h with
      | nil => simp [walk]
      | @cons _ _ _ waiting _ below after =>
          have hrest := below.append after
          have hle := hrest.le
          have hcount : stop - start = stop - (start + 1) + 1 := by omega
          calc d.walk (steps + 1) (start :: waiting)
            _ = start :: d.walk steps (d.childrenOf start ++ waiting) := rfl
            _ = start :: List.range' (start + 1) (stop - (start + 1)) := by
              rw [ih hrest (by omega)]
            _ = List.range' start (stop - start) := by rw [hcount, List.range'_succ]

theorem bounds (h : d.Fills start stack stop) (hi : i ∈ stack) : start ≤ i ∧ i < stop := by
  induction h with
  | nil => exact absurd hi List.not_mem_nil
  | cons _ below after _ ih =>
      have hbelow := below.le
      have hafter := after.le
      obtain rfl | hi := List.mem_cons.mp hi
      · omega
      · have := ih hi
        omega

theorem ascending (h : d.Fills start stack stop) : stack.Pairwise (· < ·) := by
  induction h with
  | nil => exact .nil
  | cons _ below after _ ih =>
      refine List.pairwise_cons.mpr ⟨?_, ih⟩
      intro j hj
      exact Nat.lt_of_lt_of_le below.le (after.bounds hj).1

/-- Every element of the range has a range of its own in it. -/
theorem exists_within (h : d.Fills start stack stop) (hstart : start ≤ i) (hstop : i < stop) :
    ∃ last ≤ stop, d.Fills i [i] last := by
  induction h with
  | nil => omega
  | @cons j middle stop _ hparent below after hbelow hafter =>
      obtain rfl | hlt := Nat.eq_or_lt_of_le hstart
      · exact ⟨middle, after.le, .cons hparent below (.nil middle)⟩
      · rcases Nat.lt_or_ge i middle with hi | hi
        · obtain ⟨last, hlast, hfills⟩ := hbelow hlt hi
          exact ⟨last, Nat.le_trans hlast after.le, hfills⟩
        · exact hafter hi hstop

/-- Every element of the range is on the stack or below an element that is. -/
theorem exists_on_stack (h : d.Fills start stack stop) (hstart : start ≤ i) (hstop : i < stop) :
    ∃ j ∈ stack, Relation.ReflTransGen (fun p c => c ∈ d.childrenOf p) j i := by
  induction h with
  | nil => omega
  | @cons j middle stop stack _ _ _ hbelow hafter =>
      obtain rfl | hlt := Nat.eq_or_lt_of_le hstart
      · exact ⟨j, List.mem_cons_self, .refl⟩
      · rcases Nat.lt_or_ge i middle with hi | hi
        · obtain ⟨c, hc, hpath⟩ := hbelow hlt hi
          exact ⟨j, List.mem_cons_self, .head hc hpath⟩
        · obtain ⟨k, hk, hpath⟩ := hafter hi hstop
          exact ⟨k, List.mem_cons_of_mem j hk, hpath⟩

/-- The children of an element fill the rest of its range. -/
theorem children (h : d.Fills i [i] stop) :
    (∀ c ∈ d.childrenOf i, d.Above i c) ∧ d.Fills (i + 1) (d.childrenOf i) stop := by
  cases h with
  | cons hparent below after =>
      cases after with
      | nil => exact ⟨hparent, below⟩

end Fills

/-- The elements of a document are in order: the first one is the root, and what is below it takes
up all other positions. -/
structure InOrder (d : Document) : Prop where
  root : d.parentOf? 0 = none
  fills : d.Fills 0 [0] d.size

/-- Every link of the document leads to one of its elements. -/
structure Closed (d : Document) : Prop where
  child : ∀ i, ∀ c ∈ d.childrenOf i, c < d.size
  up : ∀ i p, d.parentOf? i = some p → p < d.size

theorem lt_size_of_mem_childrenOf (hc : c ∈ d.childrenOf p) : p < d.size := by
  refine Nat.lt_of_not_le fun hp => ?_
  rw [childrenOf, element?, Array.getElem?_eq_none hp] at hc
  exact absurd hc List.not_mem_nil

theorem lt_size_of_above (h : d.Above p c) : c < d.size := by
  refine Nat.lt_of_not_le fun hc => ?_
  rw [Above, parentOf?, element?, Array.getElem?_eq_none hc] at h
  cases h

namespace InOrder

theorem exists_fills (hd : d.InOrder) (hi : i < d.size) : ∃ stop ≤ d.size, d.Fills i [i] stop :=
  hd.fills.exists_within (Nat.zero_le i) hi

theorem above_of_mem_childrenOf (hd : d.InOrder) (hc : c ∈ d.childrenOf p) : d.Above p c := by
  obtain ⟨stop, -, hfills⟩ := hd.exists_fills (lt_size_of_mem_childrenOf hc)
  exact hfills.children.1 c hc

/-- Every element but the root is listed by its parent. -/
theorem mem_childrenOf_iff (hd : d.InOrder) : c ∈ d.childrenOf p ↔ d.Above p c := by
  refine ⟨hd.above_of_mem_childrenOf, fun h => ?_⟩
  obtain ⟨r, hr, hpath⟩ := hd.fills.exists_on_stack (Nat.zero_le c) (lt_size_of_above h)
  obtain rfl := List.mem_singleton.mp hr
  cases hpath with
  | refl =>
      rw [Above, hd.root] at h
      cases h
  | tail _ hc =>
      obtain rfl := Option.some.inj (h.symm.trans (hd.above_of_mem_childrenOf hc))
      exact hc

theorem mem_childrenOf_eq (hd : d.InOrder) : (fun p c => c ∈ d.childrenOf p) = d.Above :=
  funext fun _ => funext fun _ => propext hd.mem_childrenOf_iff

theorem children_ascending (hd : d.InOrder) (hp : p < d.size) :
    (d.childrenOf p).Pairwise (· < ·) := by
  obtain ⟨stop, -, hfills⟩ := hd.exists_fills hp
  exact hfills.children.2.ascending

/-- Parents stand before their children. -/
theorem lt_of_above (hd : d.InOrder) (h : d.Above p c) : p < c := by
  have hc := hd.mem_childrenOf_iff.mpr h
  obtain ⟨stop, -, hfills⟩ := hd.exists_fills (lt_size_of_mem_childrenOf hc)
  exact (hfills.children.2.bounds hc).1

theorem closed (hd : d.InOrder) : d.Closed where
  child _ _ hc := lt_size_of_above (hd.mem_childrenOf_iff.mp hc)
  up _ _ hp := Nat.lt_trans (hd.lt_of_above hp) (lt_size_of_above hp)

/-- Everything is below the root. -/
theorem root_above (hd : d.InOrder) (hi : i < d.size) : Relation.ReflTransGen d.Above 0 i := by
  obtain ⟨r, hr, hpath⟩ := hd.fills.exists_on_stack (Nat.zero_le i) hi
  obtain rfl := List.mem_singleton.mp hr
  rwa [hd.mem_childrenOf_eq] at hpath

theorem parentOf?_eq_none_iff (hd : d.InOrder) (hi : i < d.size) :
    d.parentOf? i = none ↔ i = 0 := by
  constructor
  · intro h
    cases hd.root_above hi with
    | refl => rfl
    | tail _ hp => cases h.symm.trans hp
  · rintro rfl
    exact hd.root

/-- What is below an element is what stands in its range. -/
theorem above_iff (hd : d.InOrder) (hfills : d.Fills i [i] stop) :
    Relation.ReflTransGen d.Above i j ↔ i ≤ j ∧ j < stop := by
  constructor
  · intro hpath
    induction hpath with
    | refl => exact hfills.bounds (List.mem_singleton_self i)
    | tail _ h ih =>
        obtain ⟨last, hlast, hwithin⟩ := hfills.exists_within ih.1 ih.2
        have := hwithin.children.2.bounds (hd.mem_childrenOf_iff.mpr h)
        omega
  · rintro ⟨hle, hlt⟩
    obtain ⟨k, hk, hpath⟩ := hfills.exists_on_stack hle hlt
    obtain rfl := List.mem_singleton.mp hk
    rwa [hd.mem_childrenOf_eq] at hpath

/-- The descendants of an element are what is below it, in order: the positions after it up to the
end of its range. More steps of the walk find no more. -/
theorem exists_range (hd : d.InOrder) (hi : i < d.size) : ∃ stop, i < stop ∧ stop ≤ d.size ∧
    (∀ j, Relation.ReflTransGen d.Above i j ↔ i ≤ j ∧ j < stop) ∧
      d.descendantsOf i = List.range' (i + 1) (stop - (i + 1)) ∧
        ∀ steps, d.size ≤ steps → d.walk steps (d.childrenOf i) = d.descendantsOf i := by
  obtain ⟨stop, hstop, hfills⟩ := hd.exists_fills hi
  obtain ⟨-, hchildren⟩ := hfills.children
  have hwalk (steps : Nat) (hsteps : d.size ≤ steps) :
      d.walk steps (d.childrenOf i) = List.range' (i + 1) (stop - (i + 1)) :=
    hchildren.walk_eq (by omega)
  refine ⟨stop, hchildren.le, hstop, fun j => hd.above_iff hfills, hwalk d.size (Nat.le_refl _), ?_⟩
  intro steps hsteps
  rw [hwalk steps hsteps, descendantsOf, hwalk d.size (Nat.le_refl _)]

theorem mem_descendantsOf_iff (hd : d.InOrder) (hi : i < d.size) :
    j ∈ d.descendantsOf i ↔ Relation.TransGen d.Above i j := by
  obtain ⟨stop, hlt, -, hrange, hdescendants, -⟩ := hd.exists_range hi
  have hne : Relation.TransGen d.Above i j → i < j := by
    intro hpath
    induction hpath with
    | single h => exact hd.lt_of_above h
    | tail _ h ih => exact Nat.lt_trans ih (hd.lt_of_above h)
  rw [hdescendants, List.mem_range'_1]
  constructor
  · intro hj
    have hpath := (hrange j).mpr (by omega)
    rcases Relation.reflTransGen_iff_eq_or_transGen.mp hpath with rfl | hpath
    · omega
    · exact hpath
  · intro hpath
    have := hne hpath
    have := (hrange j).mp hpath.to_reflTransGen
    omega

/-- The ancestors of an element are found, if there are no fewer levels than elements before it. -/
theorem mem_ancestorsWithin_iff (hd : d.InOrder) {levels : Nat} (hi : i ≤ levels) :
    p ∈ d.ancestorsWithin levels i ↔ Relation.TransGen d.Above p i := by
  induction levels generalizing i with
  | zero =>
      obtain rfl := Nat.le_zero.mp hi
      constructor
      · intro hp
        exact absurd hp List.not_mem_nil
      · intro hpath
        obtain ⟨above, -, h⟩ := Relation.TransGen.tail'_iff.mp hpath
        rw [Above, hd.root] at h
        cases h
  | succ levels ih =>
      rw [ancestorsWithin, Relation.TransGen.tail'_iff]
      cases hparent : d.parentOf? i with
      | none => simp [hparent]
      | some above =>
          have hlt := hd.lt_of_above hparent
          simp [hparent, ih (by omega : above ≤ levels),
            Relation.reflTransGen_iff_eq_or_transGen, eq_comm]

theorem mem_ancestorsOf_iff (hd : d.InOrder) (hi : i < d.size) :
    p ∈ d.ancestorsOf i ↔ Relation.TransGen d.Above p i :=
  hd.mem_ancestorsWithin_iff (Nat.le_of_lt hi)

/-- Ancestors are listed from the nearest one on. -/
theorem ancestorsWithin_descending (hd : d.InOrder) (levels i : Nat) :
    (i :: d.ancestorsWithin levels i).Pairwise (· > ·) := by
  induction levels generalizing i with
  | zero => exact List.pairwise_singleton _ _
  | succ levels ih =>
      rw [ancestorsWithin]
      split
      · next p hp =>
        have hlt : i > p := hd.lt_of_above hp
        have hrest := ih p
        refine List.pairwise_cons.mpr ⟨?_, hrest⟩
        refine List.forall_mem_cons.mpr ⟨hlt, fun a ha => ?_⟩
        exact Nat.lt_trans ((List.pairwise_cons.mp hrest).1 a ha) hlt
      · exact List.pairwise_singleton _ _

end InOrder

/-- The document has the elements of some nodes from a position on. -/
def Carries (d : Document) (start : Nat) (nodes : List SnapshotNode) : Prop :=
  ∀ k n, nodes[k]? = some n → d.element? (start + k) = some n.element

namespace Carries

variable {n : SnapshotNode} {nodes others : List SnapshotNode}

theorem head (h : d.Carries start (n :: nodes)) :
    d.childrenOf start = n.children.getD [] ∧ d.parentOf? start = n.parent := by
  have hn : d.element? start = some n.element := h 0 n rfl
  rw [childrenOf, parentOf?, hn]
  exact ⟨rfl, rfl⟩

theorem tail (h : d.Carries start (n :: nodes)) : d.Carries (start + 1) nodes := by
  intro k m hm
  rw [Nat.add_assoc, Nat.add_comm 1]
  exact h (k + 1) m hm

theorem left (h : d.Carries start (nodes ++ others)) : d.Carries start nodes := by
  intro k m hm
  have hlt : k < nodes.length := (List.getElem?_eq_some_iff.mp hm).1
  exact h k m (by rw [List.getElem?_append_left hlt, hm])

theorem right (h : d.Carries start (nodes ++ others)) :
    d.Carries (start + nodes.length) others := by
  intro k m hm
  have hplace := h (nodes.length + k) m (by
    rw [List.getElem?_append_right (Nat.le_add_right _ _), Nat.add_sub_cancel_left, hm])
  rw [Nat.add_assoc, hplace]

/-- An element without children takes up one position. -/
theorem fills_leaf (h : d.Carries start (n :: nodes)) (hn : n.children = none) :
    d.Fills start [start] (start + 1) := by
  have hnone : d.childrenOf start = [] := by rw [h.head.1, hn]; rfl
  refine .cons ?_ ?_ (.nil _)
  · rw [hnone]
    exact List.forall_mem_nil _
  · rw [hnone]
    exact .nil _

end Carries

end Document

namespace CaptureRequest

variable {d : Document}

mutual

/-- The nodes of a subtree fill their positions. -/
theorem fills_nodesOf {start : Nat} {parent : Option Nat} {depth index : Nat} (q : CaptureRequest)
    (raw : RawNode) (hd : d.Carries start (q.nodesOf start parent depth index raw)) :
    d.parentOf? start = parent ∧
      d.Fills start [start] (start + (q.nodesOf start parent depth index raw).length) := by
  match raw with
  | .mk ref properties none =>
      rw [nodesOf] at hd ⊢
      exact ⟨hd.head.2, hd.fills_leaf rfl⟩
  | .mk ref properties (some children) =>
      rw [nodesOf] at hd ⊢
      split at hd
      · rename_i hlt
        obtain ⟨hchildren, hparent⟩ := hd.head
        obtain ⟨habove, hfills⟩ := fills_nodesOfSiblings q children hd.tail
        rw [if_pos hlt, List.length_cons, Nat.add_comm _ 1, ← Nat.add_assoc]
        refine ⟨hparent, .cons ?_ ?_ (.nil _)⟩
        · rw [hchildren]
          exact habove
        · rw [hchildren]
          exact hfills
      · rename_i hlt
        rw [if_neg hlt]
        exact ⟨hd.head.2, hd.fills_leaf rfl⟩

theorem fills_nodesOfSiblings {start parent depth index : Nat} (q : CaptureRequest)
    (siblings : List RawNode)
    (hd : d.Carries start (q.nodesOfSiblings start parent depth index siblings).2) :
    (∀ c ∈ (q.nodesOfSiblings start parent depth index siblings).1, d.Above parent c) ∧
      d.Fills start (q.nodesOfSiblings start parent depth index siblings).1
        (start + (q.nodesOfSiblings start parent depth index siblings).2.length) := by
  match siblings with
  | [] => exact ⟨List.forall_mem_nil _, .nil _⟩
  | sibling :: siblings =>
      rw [nodesOfSiblings] at hd ⊢
      obtain ⟨hparent, hfirst⟩ := fills_nodesOf q sibling hd.left
      obtain ⟨habove, hrest⟩ := fills_nodesOfSiblings q siblings hd.right
      rw [List.length_append, ← Nat.add_assoc]
      exact ⟨List.forall_mem_cons.mpr ⟨hparent, habove⟩, hfirst.append hrest⟩

end

/-- The elements of the document of a capture are in order. -/
theorem document_inOrder (q : CaptureRequest) (time : Nat) (raw : RawNode) (serial : Nat) :
    ((q.snapshot time raw).document serial).1.InOrder := by
  have hcarries : ((q.snapshot time raw).document serial).1.Carries 0
      (q.nodesOf 0 none 0 0 raw) := by
    intro k n hn
    simp [Document.element?, Snapshot.document, snapshot, hn]
  obtain ⟨hroot, hfills⟩ := q.fills_nodesOf raw hcarries
  refine ⟨hroot, ?_⟩
  simpa [Document.size, Snapshot.document, snapshot] using hfills

end CaptureRequest

end UiTree
