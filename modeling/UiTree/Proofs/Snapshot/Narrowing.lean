import Mathlib.Data.List.Sort
import UiTree.Proofs.Snapshot.Arena
import UiTree.Proofs.Snapshot.Restriction

/-!
# Captures that ask for less

A capture that asks for fewer attributes and for fewer levels can be had from any other that asks
for more: the deeper nodes are removed, the others are numbered anew in their order, and the values
of the other attributes are cleared one by one. So a capture shows nothing of a reported tree but
what was asked for, and trees that agree on this have the same nodes.

## Implementation notes

The nodes that are left keep their addresses, so the new place of a node is the place of its address
in the smaller capture.
-/

namespace UiTree

namespace Properties

/-- The values without that of one attribute. The place among the siblings and the identity are no
reported values. -/
def clear (p : Properties) : Attribute → Properties
  | .type => { p with type := none }
  | .value => { p with value := none }
  | .name => { p with name := none }
  | .label => { p with label := none }
  | .enabled => { p with enabled := none }
  | .visible => { p with visible := none }
  | .selected => { p with selected := none }
  | .accessible => { p with accessible := none }
  | .container => { p with container := none }
  | .focused => { p with focused := none }
  | .frame => { p with frame := none }
  | .traits => { p with traits := none }
  | .index | .uid => p

/-- The same value of an attribute was reported, or none. -/
def AgreeAt (p p' : Properties) : Attribute → Prop
  | .type => p.type = p'.type
  | .value => p.value = p'.value
  | .name => p.name = p'.name
  | .label => p.label = p'.label
  | .enabled => p.enabled = p'.enabled
  | .visible => p.visible = p'.visible
  | .selected => p.selected = p'.selected
  | .accessible => p.accessible = p'.accessible
  | .container => p.container = p'.container
  | .focused => p.focused = p'.focused
  | .frame => p.frame = p'.frame
  | .traits => p.traits = p'.traits
  | .index | .uid => True

theorem restrict_clear (p : Properties) (a : Attribute) (s : AttributeSet) :
    (p.clear a).restrict s = p.restrict (s.filter (· != a)) := by
  cases a <;> simp [clear, restrict, AttributeSet.filter]

/-- Values that are cleared one by one are restricted to the attributes that are left. -/
theorem foldl_clear (p : Properties) (as : List Attribute) :
    as.foldl clear p = p.restrict (AttributeSet.all.filter fun a => !as.contains a) := by
  induction as generalizing p with
  | nil => rfl
  | cons a as ih =>
      rw [List.foldl_cons, ih, restrict_clear]
      congr 1
      ext b
      simp [and_comm]

theorem foldl_clear_outside (p : Properties) (s : AttributeSet) :
    (Attribute.all.filter fun a => !s.has a).foldl clear p = p.restrict s := by
  rw [foldl_clear]
  congr 1
  ext a
  rw [AttributeSet.mem_filter, Bool.not_eq_true', ← Bool.not_eq_true, List.contains_iff_mem,
    List.mem_filter]
  simp only [AttributeSet.mem_all, a.mem_all, true_and, Bool.not_eq_true', Bool.not_eq_false]
  rfl

/-- Nothing but the values of the attributes in a set is left by restriction to it. -/
theorem restrict_congr {p p' : Properties} {s : AttributeSet} (h : ∀ a ∈ s, p.AgreeAt p' a) :
    p.restrict s = p'.restrict s := by
  have hfield {α : Type} (a : Attribute) {x y : Option α} (hxy : a ∈ s → x = y) :
      (if s.has a then x else none) = if s.has a then y else none := by
    by_cases ha : a ∈ s
    · rw [hxy ha]
    · have hfalse : s.has a = false := Bool.eq_false_iff.mpr ha
      rw [hfalse]
      rfl
  simp only [restrict, mk.injEq]
  exact ⟨hfield .type (h .type), hfield .frame (h .frame), hfield .label (h .label),
    hfield .name (h .name), hfield .value (h .value), hfield .enabled (h .enabled),
    hfield .visible (h .visible), hfield .selected (h .selected),
    hfield .accessible (h .accessible), hfield .container (h .container),
    hfield .focused (h .focused), hfield .traits (h .traits)⟩

end Properties

namespace Snapshot

/-- How many nodes before a position are not deeper than a limit. -/
def keptBefore (s : Snapshot) (limit position : Nat) : Nat :=
  (s.nodes.toList.take position).countP fun n => n.depth ≤ limit

/-- A node without the values of the attributes outside a set, after the nodes deeper than a limit
were removed. Its links lead to the new positions, and at the limit its children are omitted. -/
def narrowedNode (s : Snapshot) (attributes : AttributeSet) (limit : Nat) (n : SnapshotNode) :
    SnapshotNode where
  ref := n.ref
  properties :=
    (Attribute.all.filter fun a => !attributes.has a).foldl Properties.clear n.properties
  children := if n.depth < limit then n.children.map (·.map (s.keptBefore limit)) else none
  parent := n.parent.map (s.keptBefore limit)
  depth := n.depth
  index := n.index

/-- The nodes of a snapshot that are not deeper than a limit, with the values of the attributes in a
set only, numbered anew in their order. There is no such snapshot if no node is left. -/
def narrow? (s : Snapshot) (attributes : AttributeSet) (limit : Nat) : Option Snapshot :=
  let nodes :=
    (s.nodes.toList.filter fun n => n.depth ≤ limit).map (s.narrowedNode attributes limit)
  if h : 0 < nodes.toArray.size then some ⟨nodes.toArray, h, attributes, limit, s.capturedAt⟩
  else none

end Snapshot

/-- Two reported trees agree on what a request with some attributes and a depth asks for: on the
references of the nodes down to the depth, hence on which nodes there are, on where children were
omitted above the depth, and on the values of the attributes. -/
structure RawNode.AgreeWithin (attributes : AttributeSet) (limit : Nat) (raw raw' : RawNode) :
    Prop where
  refs : ∀ a : Address, a.length ≤ limit →
    (raw.at? a).map RawNode.ref = (raw'.at? a).map RawNode.ref
  omitted : ∀ (a : Address) r r', a.length < limit → raw.at? a = some r → raw'.at? a = some r' →
    (r.children = none ↔ r'.children = none)
  values : ∀ (a : Address) r r', a.length ≤ limit → raw.at? a = some r → raw'.at? a = some r' →
    ∀ k ∈ attributes, r.properties.AgreeAt r'.properties k

namespace CaptureRequest

variable {q q' : CaptureRequest} {raw raw' r r' : RawNode} {a : Address} {time : Nat}

/-- The nodes within a smaller depth are those of all that are not deeper. -/
theorem reported_eq_filter (hdepth : q.maxDepth ≤ q'.maxDepth) (raw : RawNode) :
    q.reported raw = (q'.reported raw).filter fun x => x.1.length ≤ q.maxDepth := by
  let before (x y : Address × RawNode) : Prop := x.1 < y.1
  have : Std.Irrefl before := ⟨fun x => List.lt_irrefl x.1⟩
  have hascending (q : CaptureRequest) : (q.reported raw).Pairwise before := raw.listing_ascending
  refine List.Pairwise.eq_of_mem_iff (hascending q) ((hascending q').filter _) fun x => ?_
  obtain ⟨a, r⟩ := x
  rw [List.mem_filter, mem_reported_iff, mem_reported_iff, decide_eq_true_eq]
  constructor
  · rintro ⟨hlength, hat⟩
    exact ⟨⟨Nat.le_trans hlength hdepth, hat⟩, hlength⟩
  · rintro ⟨⟨-, hat⟩, hlength⟩
    exact ⟨hlength, hat⟩

/-- In what is left of a list a member stands after those before it that are left. -/
theorem idxOf_filter {xs : List Address} (hnodup : xs.Nodup) {i : Nat} (ha : xs[i]? = some a)
    {p : Address → Bool} (hp : p a = true) : (xs.filter p).idxOf a = (xs.take i).countP p := by
  have hsplit : xs = xs.take i ++ a :: xs.drop (i + 1) := by
    obtain ⟨hlt, rfl⟩ := List.getElem?_eq_some_iff.mp ha
    rw [List.getElem_cons_drop, List.take_append_drop]
  have hbefore : a ∉ (xs.take i).filter p := by
    intro hmem
    rw [hsplit] at hnodup
    have hapart := (List.nodup_append.mp hnodup).2.2 a (List.mem_of_mem_filter hmem)
    exact hapart a List.mem_cons_self rfl
  have hfilter : xs.filter p = (xs.take i).filter p ++ a :: (xs.drop (i + 1)).filter p := by
    conv_lhs => rw [hsplit, List.filter_append, List.filter_cons_of_pos hp]
  rw [hfilter, List.idxOf_append_of_notMem hbefore, List.idxOf_cons_self, Nat.add_zero,
    List.countP_eq_length_filter]

/-- The nodes that are kept before the place of an address come before it in the smaller capture,
too. -/
theorem keptBefore_placeOf (hdepth : q.maxDepth ≤ q'.maxDepth) (ha : q.Reports raw a) :
    (q'.snapshot time raw).keptBefore q.maxDepth (q'.placeOf raw a) = q.placeOf raw a := by
  obtain ⟨r, hr⟩ := ha
  obtain ⟨hlength, hat⟩ := mem_reported_iff.mp hr
  have hr' : (a, r) ∈ q'.reported raw :=
    mem_reported_iff.mpr ⟨Nat.le_trans hlength hdepth, hat⟩
  have hget : ((q'.reported raw).map Prod.fst)[q'.placeOf raw a]? = some a := by
    rw [List.getElem?_map, getElem?_placeOf hr']
    rfl
  have hnodup : ((q'.reported raw).map Prod.fst).Nodup := by
    refine (q'.reported_ascending raw).imp ?_
    rintro b _ h rfl
    exact List.lt_irrefl b h
  let kept (b : Address) : Bool := b.length ≤ q.maxDepth
  calc
    (q'.snapshot time raw).keptBefore q.maxDepth (q'.placeOf raw a) =
        (((q'.reported raw).map Prod.fst).take (q'.placeOf raw a)).countP kept := by
      rw [Snapshot.keptBefore, snapshot_nodes_eq, List.toList_toArray, ← List.map_take,
        ← List.map_take, List.countP_map, List.countP_map]
      rfl
    _ = (((q'.reported raw).map Prod.fst).filter kept).idxOf a :=
      (idxOf_filter hnodup hget (decide_eq_true hlength)).symm
    _ = q.placeOf raw a := by
      change _ = ((q.reported raw).map Prod.fst).idxOf a
      rw [reported_eq_filter hdepth, List.filter_map]
      rfl

/-- What is left of a captured node is the node of the smaller capture. -/
theorem narrowedNode_nodeAt (hattributes : ∀ a, a ∈ q.attributes → a ∈ q'.attributes)
    (hdepth : q.maxDepth ≤ q'.maxDepth) (hr : (a, r) ∈ q.reported raw) :
    (q'.snapshot time raw).narrowedNode q.attributes q.maxDepth
        (q'.nodeAt (q'.placeOf raw) (a, r)) = q.nodeAt (q.placeOf raw) (a, r) := by
  have hproperties : (r.properties.restrict q'.attributes).restrict q.attributes =
      r.properties.restrict q.attributes :=
    Properties.restrict_restrict hattributes r.properties
  have hparent : (if a = [] then none else some (q'.placeOf raw a.dropLast)).map
      ((q'.snapshot time raw).keptBefore q.maxDepth) =
        if a = [] then none else some (q.placeOf raw a.dropLast) := by
    split
    · rfl
    · have habove : q.Reports raw a.dropLast :=
        Reports.of_isPrefix ⟨r, hr⟩ (List.dropLast_prefix a)
      rw [Option.map_some, keptBefore_placeOf hdepth habove]
  have hchildren : (if a.length < q.maxDepth then
        (q'.nodeAt (q'.placeOf raw) (a, r)).children.map
          (·.map ((q'.snapshot time raw).keptBefore q.maxDepth))
      else none) = (q.nodeAt (q.placeOf raw) (a, r)).children := by
    by_cases hlt : a.length < q.maxDepth
    · simp only [nodeAt, if_pos hlt, if_pos (Nat.lt_of_lt_of_le hlt hdepth)]
      cases hreported : r.children with
      | none => rfl
      | some reported =>
          simp only [Option.map_some, List.map_map]
          refine congrArg some (List.map_congr_left fun index hindex => ?_)
          have hchild := reports_concat hr hlt hreported (List.mem_range.mp hindex)
          exact keptBefore_placeOf hdepth hchild
    · simp only [nodeAt, if_neg hlt]
  let kept := (q'.snapshot time raw).keptBefore q.maxDepth
  calc
    (q'.snapshot time raw).narrowedNode q.attributes q.maxDepth
          (q'.nodeAt (q'.placeOf raw) (a, r)) =
        ⟨r.ref, (r.properties.restrict q'.attributes).restrict q.attributes,
          if a.length < q.maxDepth then
            (q'.nodeAt (q'.placeOf raw) (a, r)).children.map (·.map kept) else none,
          (if a = [] then none else some (q'.placeOf raw a.dropLast)).map kept,
          a.length, a.getLastD 0⟩ := by
      rw [Snapshot.narrowedNode, Properties.foldl_clear_outside]
      rfl
    _ = q.nodeAt (q.placeOf raw) (a, r) := by
      rw [hproperties, hchildren, hparent]
      rfl

/-- A capture that asks for less is what is left of the nodes of one that asks for more. -/
theorem narrow?_eq (hattributes : ∀ a, a ∈ q.attributes → a ∈ q'.attributes)
    (hdepth : q.maxDepth ≤ q'.maxDepth) (time : Nat) (raw : RawNode) :
    (q'.snapshot time raw).narrow? q.attributes q.maxDepth = some (q.snapshot time raw) := by
  have hnodes : (((q'.snapshot time raw).nodes.toList.filter fun n => n.depth ≤ q.maxDepth).map
      ((q'.snapshot time raw).narrowedNode q.attributes q.maxDepth)).toArray =
        (q.snapshot time raw).nodes := by
    rw [snapshot_nodes_eq, snapshot_nodes_eq, List.toList_toArray, List.filter_map, List.map_map]
    have hreported : (q'.reported raw).filter ((fun n : SnapshotNode => n.depth ≤ q.maxDepth) ∘
        q'.nodeAt (q'.placeOf raw)) = q.reported raw := (reported_eq_filter hdepth raw).symm
    rw [hreported]
    refine congrArg List.toArray (List.map_congr_left fun x hx => ?_)
    exact narrowedNode_nodeAt hattributes hdepth hx
  have hpos := (q.snapshot time raw).nodes_pos
  simp only [Snapshot.narrow?, hnodes, dif_pos hpos]
  rfl

/-! ### Reported trees that agree -/

/-- A list of pairs is mapped like another one with the same first components, if pairs with the
same first component are. -/
theorem map_eq_map_of_fst {α β γ : Type} {xs ys : List (α × β)} {f : α × β → γ}
    (hfst : xs.map Prod.fst = ys.map Prod.fst)
    (h : ∀ x ∈ xs, ∀ y ∈ ys, x.1 = y.1 → f x = f y) : xs.map f = ys.map f := by
  induction xs generalizing ys with
  | nil =>
      obtain rfl := List.map_eq_nil_iff.mp hfst.symm
      rfl
  | cons x xs ih =>
      obtain ⟨y, ys, rfl, hxy, hrest⟩ := List.map_eq_cons_iff.mp hfst.symm
      have hothers := ih hrest.symm fun x' hx' y' hy' =>
        h x' (List.mem_cons_of_mem x hx') y' (List.mem_cons_of_mem y hy')
      rw [List.map_cons, List.map_cons, hothers,
        h x List.mem_cons_self y List.mem_cons_self hxy.symm]

section Agreement

variable (h : raw.AgreeWithin q.attributes q.maxDepth raw')

include h

theorem isSome_at?_eq (ha : a.length ≤ q.maxDepth) : (raw.at? a).isSome = (raw'.at? a).isSome := by
  have hrefs := congrArg Option.isSome (h.refs a ha)
  rwa [Option.isSome_map, Option.isSome_map] at hrefs

theorem length_children_eq {children children' : List RawNode} (ha : a.length < q.maxDepth)
    (hr : raw.at? a = some r) (hr' : raw'.at? a = some r') (hchildren : r.children = some children)
    (hchildren' : r'.children = some children') : children.length = children'.length := by
  have hat {raw r : RawNode} {children : List RawNode} (hr : raw.at? a = some r)
      (hchildren : r.children = some children) (index : Nat) :
      (raw.at? (a ++ [index])).isSome ↔ index < children.length := by
    rw [RawNode.at?_append, hr]
    simp [RawNode.at?, hchildren]
  have hsame (index : Nat) : index < children.length ↔ index < children'.length := by
    have hindex : (a ++ [index]).length ≤ q.maxDepth := by
      rw [List.length_append, List.length_singleton]
      omega
    rw [← hat hr hchildren, ← hat hr' hchildren', isSome_at?_eq h hindex]
  have hle := hsame children.length
  have hge := hsame children'.length
  omega

/-- Nodes with the same address are captured alike. -/
theorem nodeAt_congr (place : Address → Nat) (hr : (a, r) ∈ q.reported raw)
    (hr' : (a, r') ∈ q.reported raw') : q.nodeAt place (a, r) = q.nodeAt place (a, r') := by
  obtain ⟨hlength, hat⟩ := mem_reported_iff.mp hr
  obtain ⟨-, hat'⟩ := mem_reported_iff.mp hr'
  have href : r.ref = r'.ref := by
    have hrefs := h.refs a hlength
    rw [hat, hat'] at hrefs
    exact Option.some.inj hrefs
  have hproperties : r.properties.restrict q.attributes = r'.properties.restrict q.attributes :=
    Properties.restrict_congr (h.values a r r' hlength hat hat')
  have hchildren : (q.nodeAt place (a, r)).children = (q.nodeAt place (a, r')).children := by
    by_cases hlt : a.length < q.maxDepth
    · have homitted := h.omitted a r r' hlt hat hat'
      simp only [nodeAt, if_pos hlt]
      cases hcs : r.children with
      | none => rw [homitted.mp hcs]
      | some children =>
          cases hcs' : r'.children with
          | none =>
              rw [homitted.mpr hcs'] at hcs
              cases hcs
          | some children' =>
              rw [Option.map_some, Option.map_some, length_children_eq h hlt hat hat' hcs hcs']
    · simp only [nodeAt, if_neg hlt]
  calc
    q.nodeAt place (a, r) =
        ⟨r.ref, r.properties.restrict q.attributes, (q.nodeAt place (a, r)).children,
          if a = [] then none else some (place a.dropLast), a.length, a.getLastD 0⟩ := rfl
    _ = q.nodeAt place (a, r') := by
      rw [href, hproperties, hchildren]
      rfl

theorem nodes_eq_of_agree (time time' : Nat) :
    (q.snapshot time raw).nodes = (q.snapshot time' raw').nodes := by
  have haddresses : (q.reported raw).map Prod.fst = (q.reported raw').map Prod.fst := by
    refine List.Pairwise.eq_of_mem_iff (q.reported_ascending raw) (q.reported_ascending raw')
      fun a => ?_
    have hmem (raw : RawNode) : a ∈ (q.reported raw).map Prod.fst ↔ q.Reports raw a := by
      rw [List.mem_map]
      constructor
      · rintro ⟨⟨_, r⟩, hr, rfl⟩
        exact ⟨r, hr⟩
      · rintro ⟨r, hr⟩
        exact ⟨(a, r), hr, rfl⟩
    rw [hmem, hmem, reports_iff, reports_iff]
    exact and_congr_right fun ha => by rw [isSome_at?_eq h ha]
  have hplace : q.placeOf raw = q.placeOf raw' := by
    funext a
    rw [placeOf, placeOf, haddresses]
  rw [snapshot_nodes_eq, snapshot_nodes_eq, hplace]
  refine congrArg List.toArray (map_eq_map_of_fst haddresses ?_)
  rintro ⟨a, r⟩ hr ⟨_, r'⟩ hr' rfl
  exact nodeAt_congr h _ hr hr'

end Agreement

/-- A capture that asks for some attributes and some levels is what is left of one that asks for
more of both, after the deeper nodes were removed, the others numbered anew, their children omitted
at the last level, and the values of all other attributes cleared. Whatever else a provider answers,
an answer that agrees on the references, on the shape down to that depth and on those attributes
gives the same nodes. -/
theorem narrow?_snapshot (hattributes : ∀ a, a ∈ q.attributes → a ∈ q'.attributes)
    (hdepth : q.maxDepth ≤ q'.maxDepth) (time : Nat) (raw : RawNode) :
    (q'.snapshot time raw).narrow? q.attributes q.maxDepth = some (q.snapshot time raw) ∧
      ∀ raw' time', raw.AgreeWithin q.attributes q.maxDepth raw' →
        (q.snapshot time raw).nodes = (q.snapshot time' raw').nodes :=
  ⟨narrow?_eq hattributes hdepth time raw, fun _ time' h => nodes_eq_of_agree h time time'⟩

/-- A list with a cell that has a value and an icon. -/
def cells : RawNode :=
  .mk ⟨some 7, 1⟩ { type := some .table, label := some "list" } (some [
    .mk ⟨some 7, 2⟩ { type := some .cell, label := some "first", value := some "on" } (some [
      .mk ⟨some 7, 3⟩ { type := some .image, label := some "icon" } none]),
    .mk ⟨some 7, 4⟩ { type := some .cell, label := some "second" } (some [])])

/-- The same list with another value, and without what is in the cells. -/
def emptiedCells : RawNode :=
  .mk ⟨some 7, 1⟩ { type := some .window, label := some "list" } (some [
    .mk ⟨some 7, 2⟩ { label := some "first", value := some "off" } none,
    .mk ⟨some 7, 4⟩ { type := some .cell, label := some "second", enabled := some true } none])

/-- The labels of the list and its cells do not tell the two lists apart. -/
theorem narrow?_snapshot_cells :
    let labels : CaptureRequest := { attributes := .ofList [.label], maxDepth := 1 }
    (CaptureRequest.snapshot {} 5 cells).size = 4 ∧ (labels.snapshot 5 cells).size = 3 ∧
      (CaptureRequest.snapshot {} 5 cells).narrow? labels.attributes labels.maxDepth =
          some (labels.snapshot 5 cells) ∧
        cells.AgreeWithin labels.attributes labels.maxDepth emptiedCells ∧
          (labels.snapshot 5 cells).nodes = (labels.snapshot 9 emptiedCells).nodes := by
  intro labels
  have hattributes : ∀ a, a ∈ labels.attributes → a ∈ ({} : CaptureRequest).attributes :=
    fun _ _ => rfl
  have hdepth : labels.maxDepth ≤ ({} : CaptureRequest).maxDepth := by decide
  obtain ⟨hnarrow, hsame⟩ := narrow?_snapshot hattributes hdepth 5 cells
  have hagree : cells.AgreeWithin labels.attributes labels.maxDepth emptiedCells := by
    refine ⟨fun a ha => ?_, fun a r r' ha hr hr' => ?_, fun a r r' ha hr hr' k hk => ?_⟩
    · match a, ha with
      | [], _ | [0], _ | [1], _ | [_ + 2], _ => rfl
    · obtain rfl : a = [] := List.length_eq_zero_iff.mp (Nat.lt_one_iff.mp ha)
      cases hr
      cases hr'
      exact ⟨nofun, nofun⟩
    · obtain rfl := List.mem_singleton.mp (AttributeSet.mem_ofList.mp hk)
      match a, ha with
      | [], _ | [0], _ | [1], _ =>
          cases hr
          cases hr'
          rfl
      | [_ + 2], _ => cases hr
  exact ⟨by decide, by decide, hnarrow, hagree, hsame emptiedCells 9 hagree⟩

end CaptureRequest

end UiTree
