import UiTree.Proofs.Snapshot.Addresses
import UiTree.Snapshot.Capture

/-!
# The shape of a capture

A captured tree has a node for each reported node within the depth, at the place that its address
has in document order. So whatever links two captured nodes can be read off their addresses: the
parent is found by dropping the last number, a child by adding one, the ancestors are the initial
segments, and what is below a node are the addresses that extend its own.

## Implementation notes

A capture knows the position of a node from the number of nodes that were put in before it. Here the
places are given beforehand, and a subtree is captured rightly wherever these are the places that
it is put into.
-/

namespace UiTree

variable {q : CaptureRequest} {raw r : RawNode} {place : Address → Nat} {start : Nat}
  {here a b : Address} {i j : Nat} {n : SnapshotNode}

/-- The addresses have their places one after the other. -/
def Placed (place : Address → Nat) (start : Nat) (listed : List (Address × RawNode)) : Prop :=
  ∀ k x, listed[k]? = some x → place x.1 = start + k

namespace Placed

variable {x : Address × RawNode} {xs ys : List (Address × RawNode)}

theorem head (h : Placed place start (x :: xs)) : place x.1 = start :=
  h 0 x rfl

theorem tail (h : Placed place start (x :: xs)) : Placed place (start + 1) xs := by
  intro k y hk
  rw [h (k + 1) y hk]
  omega

theorem left (h : Placed place start (xs ++ ys)) : Placed place start xs := by
  intro k x hk
  have hlt : k < xs.length := (List.getElem?_eq_some_iff.mp hk).1
  exact h k x (by rw [List.getElem?_append_left hlt, hk])

theorem right (h : Placed place start (xs ++ ys)) : Placed place (start + xs.length) ys := by
  intro k y hk
  have hplace := h (xs.length + k) y (by
    rw [List.getElem?_append_right (Nat.le_add_right _ _), Nat.add_sub_cancel_left, hk])
  rw [hplace, Nat.add_assoc]

end Placed

namespace CaptureRequest

/-- The captured node of a reported node. -/
def nodeAt (q : CaptureRequest) (place : Address → Nat) (x : Address × RawNode) : SnapshotNode where
  ref := x.2.ref
  properties := x.2.properties.restrict q.attributes
  children :=
    if x.1.length < q.maxDepth then
      x.2.children.map fun children =>
        (List.range children.length).map fun index => place (x.1 ++ [index])
    else none
  parent := if x.1 = [] then none else some (place x.1.dropLast)
  depth := x.1.length
  index := x.1.getLastD 0

mutual

/-- A subtree is captured node by node. -/
theorem nodesOf_eq_map_listing {start : Nat} {parent : Option Nat} {index : Nat} {here : Address}
    (raw : RawNode) (hplaced : Placed place start (raw.listing q.maxDepth here))
    (hparent : parent = if here = [] then none else some (place here.dropLast))
    (hindex : index = here.getLastD 0) :
    q.nodesOf start parent here.length index raw =
      (raw.listing q.maxDepth here).map (q.nodeAt place) := by
  match raw with
  | .mk ref properties none =>
      rw [nodesOf, RawNode.listing, List.map_singleton, hparent, hindex]
      simp [nodeAt, RawNode.ref, RawNode.properties, RawNode.children]
  | .mk ref properties (some children) =>
      rw [RawNode.listing] at hplaced ⊢
      rw [nodesOf, hparent, hindex]
      split
      · rename_i hlt
        rw [if_pos hlt] at hplaced
        have hhere : place here = start := hplaced.head
        have hsiblings := nodesOfSiblings_eq_map_listing children hplaced.tail
        rw [hhere] at hsiblings
        rw [hsiblings, List.map_cons]
        simp [nodeAt, hlt, RawNode.ref, RawNode.properties, RawNode.children,
          List.range_eq_range']
      · rename_i hlt
        simp [nodeAt, hlt, RawNode.ref, RawNode.properties]

theorem nodesOfSiblings_eq_map_listing {start index : Nat} {here : Address}
    (siblings : List RawNode)
    (hplaced : Placed place start
      (RawNode.listingOfSiblings q.maxDepth here index siblings)) :
    q.nodesOfSiblings start (place here) (here.length + 1) index siblings =
      ((List.range' index siblings.length).map fun k => place (here ++ [k]),
        (RawNode.listingOfSiblings q.maxDepth here index siblings).map (q.nodeAt place)) := by
  match siblings with
  | [] => simp [nodesOfSiblings, RawNode.listingOfSiblings]
  | sibling :: siblings =>
      rw [RawNode.listingOfSiblings] at hplaced ⊢
      have hfirst : q.nodesOf start (some (place here)) (here.length + 1) index sibling =
          (sibling.listing q.maxDepth (here ++ [index])).map (q.nodeAt place) := by
        have h := nodesOf_eq_map_listing sibling hplaced.left rfl rfl
        simpa using h
      have hplace : place (here ++ [index]) = start := by
        obtain ⟨below, hbelow⟩ := RawNode.listing_eq_cons q.maxDepth (here ++ [index]) sibling
        have h := hplaced.left
        rw [hbelow] at h
        exact h.head
      have hrest := nodesOfSiblings_eq_map_listing siblings hplaced.right
      simp [nodesOfSiblings, hfirst, hrest, hplace, List.range'_succ]

end

/-- The reported nodes within the depth. -/
def reported (q : CaptureRequest) (raw : RawNode) : List (Address × RawNode) :=
  raw.listing q.maxDepth []

/-- Where a capture has the node of an address. -/
def placeOf (q : CaptureRequest) (raw : RawNode) (a : Address) : Nat :=
  ((q.reported raw).map Prod.fst).idxOf a

theorem mem_reported_iff :
    (a, r) ∈ q.reported raw ↔ a.length ≤ q.maxDepth ∧ raw.at? a = some r := by
  rw [reported, RawNode.mem_listing_iff raw (Nat.zero_le _)]
  constructor
  · rintro ⟨b, rfl, hlength, hat⟩
    exact ⟨hlength, hat⟩
  · rintro ⟨hlength, hat⟩
    exact ⟨a, rfl, hlength, hat⟩

theorem reported_ascending (q : CaptureRequest) (raw : RawNode) :
    ((q.reported raw).map Prod.fst).Pairwise (· < ·) :=
  List.pairwise_map.mpr raw.listing_ascending

theorem placed_reported (q : CaptureRequest) (raw : RawNode) :
    Placed (q.placeOf raw) 0 (q.reported raw) := by
  intro k x hk
  have hnodup : ((q.reported raw).map Prod.fst).Nodup := by
    refine (q.reported_ascending raw).imp ?_
    rintro a _ h rfl
    exact List.lt_irrefl a h
  obtain ⟨hlt, hx⟩ := List.getElem?_eq_some_iff.mp hk
  have hidx := hnodup.idxOf_getElem k (by rwa [List.length_map])
  rw [List.getElem_map, hx] at hidx
  rw [placeOf, hidx, Nat.zero_add]

theorem snapshot_nodes_eq (q : CaptureRequest) (time : Nat) (raw : RawNode) :
    (q.snapshot time raw).nodes =
      ((q.reported raw).map (q.nodeAt (q.placeOf raw))).toArray :=
  congrArg List.toArray (nodesOf_eq_map_listing raw (q.placed_reported raw) rfl rfl)

/-- The addresses that a capture has nodes for. -/
def Reports (q : CaptureRequest) (raw : RawNode) (a : Address) : Prop :=
  ∃ r, (a, r) ∈ q.reported raw

theorem reports_iff : q.Reports raw a ↔ a.length ≤ q.maxDepth ∧ (raw.at? a).isSome := by
  simp [Reports, mem_reported_iff, Option.isSome_iff_exists]

/-- With an address its initial segments are reported. -/
theorem Reports.of_isPrefix (hb : q.Reports raw b) (h : a <+: b) : q.Reports raw a := by
  obtain ⟨c, rfl⟩ := h
  obtain ⟨hlength, hat⟩ := reports_iff.mp hb
  rw [List.length_append] at hlength
  rw [RawNode.at?_append, Option.isSome_bind, Option.any_eq_true] at hat
  obtain ⟨above, habove, -⟩ := hat
  exact reports_iff.mpr ⟨by omega, by rw [habove]; rfl⟩

theorem getElem?_placeOf (h : (a, r) ∈ q.reported raw) :
    (q.reported raw)[q.placeOf raw a]? = some (a, r) := by
  obtain ⟨k, hk⟩ := List.mem_iff_getElem?.mp h
  rw [q.placed_reported raw k (a, r) hk, Nat.zero_add, hk]

theorem placeOf_inj (ha : q.Reports raw a) (hb : q.Reports raw b)
    (h : q.placeOf raw a = q.placeOf raw b) : a = b := by
  obtain ⟨r, ha⟩ := ha
  obtain ⟨r', hb⟩ := hb
  have hpair : (a, r) = (b, r') := by
    have ha' := getElem?_placeOf ha
    rw [h, getElem?_placeOf hb] at ha'
    exact (Option.some.inj ha').symm
  exact congrArg Prod.fst hpair

/-- Places are in the order of the addresses. -/
theorem placeOf_lt_placeOf_iff (ha : q.Reports raw a) (hb : q.Reports raw b) :
    q.placeOf raw a < q.placeOf raw b ↔ a < b := by
  have ascending {a b : Address} (ha : q.Reports raw a) (hb : q.Reports raw b)
      (h : q.placeOf raw a < q.placeOf raw b) : a < b := by
    obtain ⟨r, ha⟩ := ha
    obtain ⟨r', hb⟩ := hb
    obtain ⟨hlt, ha⟩ := List.getElem?_eq_some_iff.mp (getElem?_placeOf ha)
    obtain ⟨hlt', hb⟩ := List.getElem?_eq_some_iff.mp (getElem?_placeOf hb)
    have hpair := List.pairwise_iff_getElem.mp (List.pairwise_map.mp (q.reported_ascending raw))
      _ _ hlt hlt' h
    rwa [ha, hb] at hpair
  refine ⟨ascending ha hb, fun h => ?_⟩
  rcases Nat.lt_trichotomy (q.placeOf raw a) (q.placeOf raw b) with hlt | heq | hgt
  · exact hlt
  · obtain rfl := placeOf_inj ha hb heq
    exact absurd h (List.lt_irrefl a)
  · exact absurd (ascending hb ha hgt) (List.lt_asymm h)

variable {time : Nat}

theorem snapshot_node? (q : CaptureRequest) (time : Nat) (raw : RawNode) (j : Nat) :
    (q.snapshot time raw).node? j =
      ((q.reported raw)[j]?).map (q.nodeAt (q.placeOf raw)) := by
  rw [Snapshot.node?, snapshot_nodes_eq, List.getElem?_toArray, List.getElem?_map]

theorem snapshot_size (q : CaptureRequest) (time : Nat) (raw : RawNode) :
    (q.snapshot time raw).size = (q.reported raw).length := by
  rw [Snapshot.size, snapshot_nodes_eq, List.size_toArray, List.length_map]

/-- Every node of a capture is that of a reported address. -/
theorem exists_address (h : (q.snapshot time raw).node? j = some n) :
    ∃ a r, (a, r) ∈ q.reported raw ∧ j = q.placeOf raw a ∧
      n = q.nodeAt (q.placeOf raw) (a, r) := by
  rw [snapshot_node?, Option.map_eq_some_iff] at h
  obtain ⟨⟨a, r⟩, hj, rfl⟩ := h
  have hplace : q.placeOf raw a = 0 + j := q.placed_reported raw j (a, r) hj
  exact ⟨a, r, List.mem_of_getElem? hj, by omega, rfl⟩

/-- Every reported address has its node at its place. -/
theorem snapshot_node?_placeOf (h : (a, r) ∈ q.reported raw) :
    (q.snapshot time raw).node? (q.placeOf raw a) =
      some (q.nodeAt (q.placeOf raw) (a, r)) := by
  rw [snapshot_node?, getElem?_placeOf h, Option.map_some]

theorem exists_reports (h : j < (q.snapshot time raw).size) :
    ∃ a, q.Reports raw a ∧ j = q.placeOf raw a := by
  obtain ⟨a, r, hr, hplace, -⟩ := exists_address (Array.getElem?_eq_getElem h)
  exact ⟨a, ⟨r, hr⟩, hplace⟩

theorem placeOf_nil (q : CaptureRequest) (raw : RawNode) : q.placeOf raw [] = 0 := by
  obtain ⟨below, hbelow⟩ := RawNode.listing_eq_cons q.maxDepth [] raw
  rw [placeOf, reported, hbelow, List.map_cons, List.idxOf_cons_self]

/-- The parent of a node has the address without the last number. -/
theorem parent?_placeOf_concat {index : Nat} (h : q.Reports raw (a ++ [index])) :
    (q.snapshot time raw).parent? (q.placeOf raw (a ++ [index])) = some (q.placeOf raw a) := by
  obtain ⟨r, hr⟩ := h
  rw [Snapshot.parent?, snapshot_node?_placeOf hr]
  simp [nodeAt]

/-- The ancestors of a node have the initial segments of its address. -/
theorem ancestorsWithin_placeOf {levels : Nat} (ha : q.Reports raw a) (h : a.length ≤ levels) :
    (q.snapshot time raw).ancestorsWithin levels (q.placeOf raw a) =
      (List.range a.length).reverse.map fun k => q.placeOf raw (a.take k) := by
  induction levels generalizing a with
  | zero =>
      obtain rfl := List.length_eq_zero_iff.mp (Nat.le_zero.mp h)
      rfl
  | succ levels ih =>
      rcases List.eq_nil_or_concat' a with rfl | ⟨b, index, rfl⟩
      · obtain ⟨r, hr⟩ := ha
        rw [Snapshot.ancestorsWithin, Snapshot.parent?, snapshot_node?_placeOf hr]
        rfl
      · have hb := ha.of_isPrefix (List.prefix_append b [index])
        rw [List.length_append, List.length_singleton] at h ⊢
        rw [Snapshot.ancestorsWithin, parent?_placeOf_concat ha]
        simp only [ih hb (Nat.le_of_succ_le_succ h), List.range_succ, List.reverse_append,
          List.reverse_singleton, List.singleton_append, List.map_cons, List.take_left]
        refine congrArg _ (List.map_congr_left fun k hk => ?_)
        rw [List.mem_reverse, List.mem_range] at hk
        rw [List.take_append_of_le_length (by omega)]

theorem placeOf_le_of_isPrefix (hb : q.Reports raw b) (h : a <+: b) :
    q.placeOf raw a ≤ q.placeOf raw b := by
  by_cases hne : a = b
  · rw [hne]
  · exact Nat.le_of_lt
      ((placeOf_lt_placeOf_iff (hb.of_isPrefix h) hb).mpr (Address.lt_of_isPrefix h hne))

/-- No node is deeper than its place. -/
theorem length_le_placeOf (ha : q.Reports raw a) : a.length ≤ q.placeOf raw a := by
  induction a using List.reverseRecOn with
  | nil => exact Nat.zero_le _
  | append_singleton b index ih =>
      have hprefix := List.prefix_append b [index]
      have hb := ha.of_isPrefix hprefix
      have hlt := (placeOf_lt_placeOf_iff hb ha).mpr
        (Address.lt_of_isPrefix hprefix (by simp))
      have := ih hb
      rw [List.length_append, List.length_singleton]
      omega

theorem placeOf_lt_size (ha : q.Reports raw a) :
    q.placeOf raw a < (q.snapshot time raw).size := by
  obtain ⟨r, hr⟩ := ha
  rw [snapshot_size]
  exact (List.getElem?_eq_some_iff.mp (getElem?_placeOf hr)).1

/-- A node and its ancestors have the initial segments of its address. -/
theorem lineage_placeOf (ha : q.Reports raw a) :
    q.placeOf raw a :: (q.snapshot time raw).ancestors (q.placeOf raw a) =
      (List.range (a.length + 1)).reverse.map fun k => q.placeOf raw (a.take k) := by
  have hlength : a.length ≤ (q.snapshot time raw).size :=
    Nat.le_of_lt (Nat.lt_of_le_of_lt (length_le_placeOf ha) (placeOf_lt_size ha))
  rw [Snapshot.ancestors, ancestorsWithin_placeOf ha hlength]
  simp [List.range_succ]

/-- A node is below those whose addresses its own extends. -/
theorem mem_lineage_iff (ha : q.Reports raw a) (hb : q.Reports raw b) :
    q.placeOf raw a ∈
        q.placeOf raw b :: (q.snapshot time raw).ancestors (q.placeOf raw b) ↔ a <+: b := by
  rw [lineage_placeOf hb]
  simp only [List.mem_map, List.mem_reverse, List.mem_range]
  constructor
  · rintro ⟨k, -, hk⟩
    rw [← placeOf_inj (hb.of_isPrefix (List.take_prefix k b)) ha hk]
    exact List.take_prefix k b
  · intro h
    have := h.length_le
    exact ⟨a.length, by omega, by rw [← List.prefix_iff_eq_take.mp h]⟩

end CaptureRequest

theorem Snapshot.ancestors_of_size_le {s : Snapshot} (h : s.size ≤ j) : s.ancestors j = [] := by
  have hnone : s.parent? j = none := by
    rw [Snapshot.parent?, Snapshot.node?, Array.getElem?_eq_none h]
    rfl
  rw [Snapshot.ancestors]
  cases s.size with
  | zero => rfl
  | succ levels => rw [Snapshot.ancestorsWithin, hnone]

/-- The links of a captured tree agree with each other and with the order of its nodes. -/
structure Snapshot.Linked (s : Snapshot) : Prop where
  root_parent : s.root.parent = none
  root_depth : s.root.depth = 0
  root_index : s.root.index = 0
  /-- Every other node is a child of a node before it, at its place among the siblings and one
  level further down. -/
  parent : ∀ j n, s.node? j = some n → j ≠ 0 →
    ∃ p above children, n.parent = some p ∧ p < j ∧ s.node? p = some above ∧
      above.children = some children ∧ children[n.index]? = some j ∧ n.depth = above.depth + 1
  children_ascending : ∀ j n children, s.node? j = some n → n.children = some children →
    children.Pairwise (· < ·)
  /-- A node and what is below it take up a range of positions. -/
  range : ∀ j < s.size, ∃ stop, stop ≤ s.size ∧
    ∀ k, j ∈ k :: s.ancestors k ↔ j ≤ k ∧ k < stop
  ancestors_length : ∀ j n, s.node? j = some n → (s.ancestors j).length = n.depth
  ancestors_descending : ∀ j, (j :: s.ancestors j).Pairwise (· > ·)
  ancestors_last : ∀ j < s.size, (j :: s.ancestors j).getLast? = some 0

/-- A captured tree has the nodes of a reported tree that have certain addresses, one after the
other. -/
structure Snapshot.Depicts (s : Snapshot) (q : CaptureRequest) (raw : RawNode)
    (addresses : List Address) : Prop where
  size_eq : s.size = addresses.length
  /-- These are the nodes within the depth that was asked for, ... -/
  mem_iff : ∀ a, a ∈ addresses ↔ a.length ≤ q.maxDepth ∧ (raw.at? a).isSome
  /-- ... each of them once and after its ancestors and all that is below siblings before it. -/
  ascending : addresses.Pairwise (· < ·)
  /-- A captured node shows the reported one. Its children are the reported ones in their order,
  and they are left out where the depth is used up or they were not reported. -/
  shows : ∀ j n a, s.node? j = some n → addresses[j]? = some a → ∃ r, raw.at? a = some r ∧
    n.ref = r.ref ∧ n.properties = r.properties.restrict q.attributes ∧
    n.depth = a.length ∧ n.depth ≤ q.maxDepth ∧
    (n.children = none ↔ n.depth = q.maxDepth ∨ r.children = none) ∧
    ∀ children, n.children = some children → ∃ reported, r.children = some reported ∧
      children.map (addresses[·]?) =
        (List.range reported.length).map fun index => some (a ++ [index])

namespace CaptureRequest

theorem snapshot_root (q : CaptureRequest) (time : Nat) (raw : RawNode) :
    (q.snapshot time raw).root = q.nodeAt (q.placeOf raw) ([], raw) := by
  have hroot : (q.snapshot time raw).node? 0 = some (q.snapshot time raw).root :=
    Array.getElem?_eq_getElem _
  have hmem : ([], raw) ∈ q.reported raw := mem_reported_iff.mpr ⟨Nat.zero_le _, rfl⟩
  have hnode : (q.snapshot time raw).node? (q.placeOf raw []) = _ := snapshot_node?_placeOf hmem
  rw [placeOf_nil, hroot] at hnode
  exact Option.some.inj hnode

/-- The children of a captured node have its address with one more number. -/
theorem children_nodeAt_eq_some_iff {children : List Nat} :
    (q.nodeAt place (a, r)).children = some children ↔
      a.length < q.maxDepth ∧ ∃ reported, r.children = some reported ∧
        children = (List.range reported.length).map fun index => place (a ++ [index]) := by
  by_cases h : a.length < q.maxDepth
  · rw [nodeAt, if_pos h, Option.map_eq_some_iff]
    simp only [h, true_and, eq_comm]
  · simp [nodeAt, h]

theorem children_nodeAt_eq_none_iff (h : a.length ≤ q.maxDepth) :
    (q.nodeAt place (a, r)).children = none ↔ a.length = q.maxDepth ∨ r.children = none := by
  by_cases hlt : a.length < q.maxDepth
  · simp [nodeAt, hlt, Nat.ne_of_lt hlt]
  · simp [nodeAt, Nat.le_antisymm h (Nat.not_lt.mp hlt)]

/-- The children of a reported node are reported, unless the depth is used up. -/
theorem reports_concat {reported : List RawNode} {index : Nat} (hr : (a, r) ∈ q.reported raw)
    (hlt : a.length < q.maxDepth) (hchildren : r.children = some reported)
    (hindex : index < reported.length) : q.Reports raw (a ++ [index]) := by
  obtain ⟨-, hat⟩ := mem_reported_iff.mp hr
  refine ⟨reported[index], mem_reported_iff.mpr ⟨?_, ?_⟩⟩
  · rw [List.length_append, List.length_singleton]
    omega
  · exact RawNode.at?_concat_eq_some_iff.mpr
      ⟨r, reported, hat, hchildren, List.getElem?_eq_getElem hindex⟩

/-- Every node but the root is a child of its parent. -/
theorem exists_parent {j : Nat} (hj : (q.snapshot time raw).node? j = some n) (hne : j ≠ 0) :
    ∃ p above children, n.parent = some p ∧ p < j ∧
      (q.snapshot time raw).node? p = some above ∧ above.children = some children ∧
      children[n.index]? = some j ∧ n.depth = above.depth + 1 := by
  obtain ⟨a, r, hr, rfl, rfl⟩ := exists_address hj
  rcases List.eq_nil_or_concat' a with rfl | ⟨b, index, rfl⟩
  · exact absurd (q.placeOf_nil raw) hne
  have ha : q.Reports raw (b ++ [index]) := ⟨r, hr⟩
  have hprefix := List.prefix_append b [index]
  obtain ⟨above, habove⟩ := ha.of_isPrefix hprefix
  obtain ⟨hlength, hat⟩ := mem_reported_iff.mp hr
  obtain ⟨above', reported, hat', hchildren, hchild⟩ := RawNode.at?_concat_eq_some_iff.mp hat
  obtain rfl : above = above' := by
    rw [(mem_reported_iff.mp habove).2] at hat'
    exact Option.some.inj hat'
  have hindex : index < reported.length := (List.getElem?_eq_some_iff.mp hchild).1
  rw [List.length_append, List.length_singleton] at hlength
  refine ⟨q.placeOf raw b, _, _, by simp [nodeAt], ?_, snapshot_node?_placeOf habove,
    children_nodeAt_eq_some_iff.mpr ⟨hlength, reported, hchildren, rfl⟩, ?_, by simp [nodeAt]⟩
  · exact (placeOf_lt_placeOf_iff ⟨above, habove⟩ ha).mpr
      (Address.lt_of_isPrefix hprefix (by simp))
  · simp [nodeAt, List.getElem?_range hindex]

theorem children_ascending {j : Nat} {children : List Nat}
    (hj : (q.snapshot time raw).node? j = some n) (hchildren : n.children = some children) :
    children.Pairwise (· < ·) := by
  obtain ⟨a, r, hr, rfl, rfl⟩ := exists_address hj
  obtain ⟨hlt, reported, hreported, rfl⟩ := children_nodeAt_eq_some_iff.mp hchildren
  refine List.pairwise_map.mpr (List.pairwise_lt_range.imp_of_mem ?_)
  intro k m hk hm hkm
  rw [List.mem_range] at hk hm
  refine (placeOf_lt_placeOf_iff (reports_concat hr hlt hreported hk)
    (reports_concat hr hlt hreported hm)).mpr ?_
  exact Address.append_lt_append (List.cons_lt_cons_iff.mpr (.inl hkm))

/-- The nodes below a node come right after it. -/
theorem exists_range {j : Nat} (hj : j < (q.snapshot time raw).size) :
    ∃ stop, stop ≤ (q.snapshot time raw).size ∧
      ∀ k, j ∈ k :: (q.snapshot time raw).ancestors k ↔ j ≤ k ∧ k < stop := by
  obtain ⟨a, ha, rfl⟩ := exists_reports hj
  -- The range stops after the last node that is below the given one.
  let below (k : Nat) : Prop := q.placeOf raw a ∈ k :: (q.snapshot time raw).ancestors k
  let last := Nat.findGreatest below ((q.snapshot time raw).size - 1)
  have hself : below (q.placeOf raw a) := List.mem_cons_self
  have hlast : below last := Nat.findGreatest_spec (Nat.le_sub_one_of_lt hj) hself
  have hsize : last < (q.snapshot time raw).size := by
    have : last ≤ (q.snapshot time raw).size - 1 := Nat.findGreatest_le _
    omega
  obtain ⟨c, hc, hplace⟩ := exists_reports hsize
  rw [hplace] at hlast
  have hac : a <+: c := (mem_lineage_iff ha hc).mp hlast
  refine ⟨last + 1, hsize, fun k => ⟨fun hk => ?_, fun ⟨hle, hlt⟩ => ?_⟩⟩
  · have hk' : k < (q.snapshot time raw).size := by
      refine Nat.lt_of_not_le fun hsize => ?_
      rw [Snapshot.ancestors_of_size_le hsize, List.mem_singleton] at hk
      omega
    have hmax : k ≤ last := Nat.le_findGreatest (by omega) hk
    obtain ⟨b, hb, rfl⟩ := exists_reports hk'
    have hab : a <+: b := (mem_lineage_iff ha hb).mp hk
    exact ⟨placeOf_le_of_isPrefix hb hab, Nat.lt_succ_of_le hmax⟩
  · have hk : k < (q.snapshot time raw).size := Nat.lt_of_lt_of_le hlt hsize
    obtain ⟨b, hb, rfl⟩ := exists_reports hk
    refine (mem_lineage_iff ha hb).mpr ?_
    rcases Nat.eq_or_lt_of_le hle with heq | hab
    · obtain rfl := placeOf_inj ha hb heq
      exact List.prefix_rfl
    · rcases Nat.eq_or_lt_of_le (Nat.le_of_lt_succ hlt) with heq | hbc
      · rwa [placeOf_inj hb hc (heq.trans hplace)]
      · rw [hplace] at hbc
        exact Address.isPrefix_of_between hac ((placeOf_lt_placeOf_iff ha hb).mp hab)
          ((placeOf_lt_placeOf_iff hb hc).mp hbc)

theorem ancestors_descending (q : CaptureRequest) (time : Nat) (raw : RawNode) (j : Nat) :
    (j :: (q.snapshot time raw).ancestors j).Pairwise (· > ·) := by
  rcases Nat.lt_or_ge j (q.snapshot time raw).size with hj | hj
  · obtain ⟨a, ha, rfl⟩ := exists_reports hj
    rw [lineage_placeOf ha]
    refine List.pairwise_map.mpr (List.pairwise_reverse.mpr ?_)
    refine List.pairwise_lt_range.imp_of_mem ?_
    intro k m hk hm hkm
    rw [List.mem_range] at hk hm
    have hprefix : a.take k <+: a.take m := List.take_prefix_take_left (by omega)
    refine (placeOf_lt_placeOf_iff (ha.of_isPrefix (List.take_prefix k a))
      (ha.of_isPrefix (List.take_prefix m a))).mpr (Address.lt_of_isPrefix hprefix ?_)
    intro heq
    have := congrArg List.length heq
    rw [List.length_take, List.length_take] at this
    omega
  · rw [Snapshot.ancestors_of_size_le hj]
    exact List.pairwise_singleton _ _

theorem ancestors_last {j : Nat} (hj : j < (q.snapshot time raw).size) :
    (j :: (q.snapshot time raw).ancestors j).getLast? = some 0 := by
  obtain ⟨a, ha, rfl⟩ := exists_reports hj
  rw [lineage_placeOf ha, List.getLast?_map, List.getLast?_reverse]
  simp [List.head?_range, placeOf_nil]

/-- The links of a capture agree with each other. -/
theorem snapshot_linked (q : CaptureRequest) (time : Nat) (raw : RawNode) :
    (q.snapshot time raw).Linked where
  root_parent := by rw [snapshot_root]; rfl
  root_depth := by rw [snapshot_root]; rfl
  root_index := by rw [snapshot_root]; rfl
  parent _ _ hj hne := exists_parent hj hne
  children_ascending _ _ _ hj hchildren := children_ascending hj hchildren
  range _ hj := exists_range hj
  ancestors_length j n hj := by
    obtain ⟨a, r, hr, rfl, rfl⟩ := exists_address hj
    have hlength : (q.placeOf raw a :: (q.snapshot time raw).ancestors (q.placeOf raw a)).length =
        a.length + 1 := by
      rw [lineage_placeOf ⟨r, hr⟩, List.length_map, List.length_reverse, List.length_range]
    exact Nat.succ.inj hlength
  ancestors_descending := ancestors_descending q time raw
  ancestors_last _ hj := ancestors_last hj

/-- A capture has a node for each reported node within the depth. -/
theorem snapshot_depicts (q : CaptureRequest) (time : Nat) (raw : RawNode) :
    (q.snapshot time raw).Depicts q raw ((q.reported raw).map Prod.fst) where
  size_eq := by rw [snapshot_size, List.length_map]
  mem_iff a := by
    rw [← reports_iff, List.mem_map]
    constructor
    · rintro ⟨⟨_, r⟩, hr, rfl⟩
      exact ⟨r, hr⟩
    · rintro ⟨r, hr⟩
      exact ⟨(a, r), hr, rfl⟩
  ascending := q.reported_ascending raw
  shows j n a hj ha := by
    obtain ⟨b, r, hr, rfl, rfl⟩ := exists_address hj
    have hget := getElem?_placeOf hr
    obtain rfl : b = a := by simpa [hget] using ha
    obtain ⟨hlength, hat⟩ := mem_reported_iff.mp hr
    refine ⟨r, hat, rfl, rfl, rfl, hlength, children_nodeAt_eq_none_iff hlength, ?_⟩
    intro children hchildren
    obtain ⟨hlt, reported, hreported, rfl⟩ := children_nodeAt_eq_some_iff.mp hchildren
    refine ⟨reported, hreported, ?_⟩
    rw [List.map_map]
    refine List.map_congr_left fun index hindex => ?_
    obtain ⟨child, hchild⟩ :=
      reports_concat hr hlt hreported (List.mem_range.mp hindex)
    rw [Function.comp_apply, List.getElem?_map, getElem?_placeOf hchild]
    rfl

/-- A captured tree is linked as a tree in document order and depicts exactly the reported nodes
within the depth. -/
theorem snapshot_arena (q : CaptureRequest) (time : Nat) (raw : RawNode) :
    (q.snapshot time raw).Linked ∧
      ∃ addresses, (q.snapshot time raw).Depicts q raw addresses :=
  ⟨q.snapshot_linked time raw, _, q.snapshot_depicts time raw⟩

end CaptureRequest

end UiTree
