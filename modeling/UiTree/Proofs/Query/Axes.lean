import UiTree.Proofs.Query.Soundness

/-!
# What the axes list

The axes are defined by the relation of parents and children and by document order: a descendant is
a child or a child of a descendant, a following sibling is a later child of the same parent, and so
on. In the document of a capture an axis lists from the root, and from an element, exactly the nodes
that stand in its relation, each once; in document order, or backwards if the axis leads backwards.

## Implementation notes

An attribute has its element for a parent without being a child of it. The root above the root
element is the parent of the only element that has no other parent.
-/

namespace UiTree

open Query (Axis DocNode)

namespace Query

/-- Whether a node is an attribute. -/
def DocNode.isAttribute : DocNode → Bool
  | attributeAt _ _ => true
  | root | element _ => false

/-- Whether an axis leads backwards in document order. -/
def Axis.isReverse : Axis → Bool
  | parent | ancestor | ancestorOrSelf | precedingSibling => true
  | child | descendant | descendantOrSelf | self | followingSibling | attributes => false

/-- Whether an axis comes by one node before it comes by another. -/
def Axis.orders (axis : Axis) (a b : DocNode) : Bool :=
  if axis.isReverse then b.before a else a.before b

variable {i j k l : Nat} {a b : DocNode}

theorem DocNode.before_element_iff :
    (DocNode.element i).before (.element j) = true ↔ i < j := by
  simp [before, key]

theorem DocNode.before_root_element : DocNode.root.before (.element i) = true := by
  simp [before, key]

theorem DocNode.before_attributeAt_iff :
    (DocNode.attributeAt i k).before (.attributeAt i l) = true ↔ k < l := by
  simp [before, key]

theorem Axis.orders_irrefl (axis : Axis) (a : DocNode) : axis.orders a a = false := by
  simp [orders, DocNode.before]

end Query

namespace Document

variable {d : Document} {n m : DocNode} {i j k : Nat}

/-- One node is the parent of another. -/
inductive IsParent (d : Document) : DocNode → DocNode → Prop where
  | root {i : Nat} (hi : i < d.size) (h : d.parentOf? i = none) : IsParent d .root (.element i)
  | element {p i : Nat} (h : d.Above p i) : IsParent d (.element p) (.element i)
  | attributeAt {i k : Nat} (hk : k < (d.attributesOf i).length) :
    IsParent d (.element i) (.attributeAt i k)

/-- One node has another for a child. -/
def IsChild (d : Document) (n m : DocNode) : Prop :=
  d.IsParent n m ∧ m.isAttribute = false

/-- Two nodes are children of one parent. -/
def AreSiblings (d : Document) (n m : DocNode) : Prop :=
  ∃ parent, d.IsChild parent n ∧ d.IsChild parent m

/-- An axis leads from one node to another. -/
def OnAxis (d : Document) : Axis → DocNode → DocNode → Prop
  | .self, n, m => m = n
  | .child, n, m => d.IsChild n m
  | .descendant, n, m => Relation.TransGen d.IsChild n m
  | .descendantOrSelf, n, m => Relation.ReflTransGen d.IsChild n m
  | .parent, n, m => d.IsParent m n
  | .ancestor, n, m => Relation.TransGen d.IsParent m n
  | .ancestorOrSelf, n, m => Relation.ReflTransGen d.IsParent m n
  | .followingSibling, n, m => d.AreSiblings n m ∧ n.before m = true
  | .precedingSibling, n, m => d.AreSiblings n m ∧ m.before n = true
  | .attributes, n, m => d.IsParent n m ∧ m.isAttribute = true

/-! ### Parents and children of single nodes -/

theorem not_isParent_root : ¬ d.IsParent n .root :=
  nofun

theorem isParent_element_iff (hi : i < d.size) :
    d.IsParent n (.element i) ↔ n = d.parentNode i := by
  rw [parentNode]
  constructor
  · rintro (⟨-, h⟩ | h)
    · rw [h]
    · rw [h]
  · rintro rfl
    split
    · next p hp => exact .element hp
    · next h => exact .root hi h

theorem isChild_element_iff : d.IsChild (.element i) m ↔ ∃ j, m = .element j ∧ d.Above i j := by
  constructor
  · rintro ⟨h | h | h, hm⟩
    · exact ⟨_, rfl, h⟩
    · cases hm
  · rintro ⟨j, rfl, h⟩
    exact ⟨.element h, rfl⟩

theorem exists_element_of_isChild (h : d.IsChild n m) : ∃ j < d.size, m = .element j := by
  obtain ⟨hparent, hm⟩ := h
  cases hparent with
  | root hi => exact ⟨_, hi, rfl⟩
  | element h => exact ⟨_, lt_size_of_above h, rfl⟩
  | attributeAt => cases hm

theorem isChild_iff (hj : j < d.size) : d.IsChild n (.element j) ↔ n = d.parentNode j := by
  rw [IsChild, isParent_element_iff hj]
  exact and_iff_left rfl

/-! ### Descendants and ancestors -/

/-- The descendants of an element are the elements below it. -/
theorem transGen_isChild_iff :
    Relation.TransGen d.IsChild (.element i) m ↔
      ∃ j, m = .element j ∧ Relation.TransGen d.Above i j := by
  constructor
  · intro h
    induction h with
    | single hchild =>
        obtain ⟨j, rfl, hj⟩ := isChild_element_iff.mp hchild
        exact ⟨j, rfl, .single hj⟩
    | tail _ hchild ih =>
        obtain ⟨j, rfl, hpath⟩ := ih
        obtain ⟨k, rfl, hk⟩ := isChild_element_iff.mp hchild
        exact ⟨k, rfl, hpath.tail hk⟩
  · rintro ⟨j, rfl, h⟩
    exact h.lift DocNode.element fun _ _ h => isChild_element_iff.mpr ⟨_, rfl, h⟩

theorem reflTransGen_isParent_of_above (h : Relation.ReflTransGen d.Above i j) :
    Relation.ReflTransGen d.IsParent (.element i) (.element j) :=
  h.lift DocNode.element fun _ _ h => .element h

namespace InOrder

theorem size_pos (hd : d.InOrder) : 0 < d.size :=
  (hd.fills.bounds (List.mem_singleton_self 0)).2

theorem isParent_root_iff (hd : d.InOrder) : d.IsParent .root m ↔ m = .element 0 := by
  constructor
  · rintro ⟨hi, h⟩
    rw [(hd.parentOf?_eq_none_iff hi).mp h]
  · rintro rfl
    exact .root hd.size_pos hd.root

/-- The descendants of the root are all elements. -/
theorem transGen_isChild_root_iff (hd : d.InOrder) :
    Relation.TransGen d.IsChild .root m ↔ ∃ j < d.size, m = .element j := by
  constructor
  · intro h
    obtain ⟨_, -, hlast⟩ := Relation.TransGen.tail'_iff.mp h
    exact exists_element_of_isChild hlast
  · rintro ⟨j, hj, rfl⟩
    have hfirst : d.IsChild .root (.element 0) := ⟨hd.isParent_root_iff.mpr rfl, rfl⟩
    refine Relation.TransGen.head' hfirst ?_
    exact (hd.root_above hj).lift DocNode.element fun _ _ h => isChild_element_iff.mpr ⟨_, rfl, h⟩

/-- The ancestors of an element are the elements above it, and the root. -/
theorem transGen_isParent_iff (hd : d.InOrder) (hi : i < d.size) :
    Relation.TransGen d.IsParent m (.element i) ↔
      m = .root ∨ ∃ p, m = .element p ∧ Relation.TransGen d.Above p i := by
  constructor
  · intro h
    induction h using Relation.TransGen.head_induction_on with
    | single h =>
        cases h with
        | root => exact .inl rfl
        | element h => exact .inr ⟨_, rfl, .single h⟩
    | head h _ ih =>
        obtain rfl | ⟨p, rfl, hpath⟩ := ih
        · exact absurd h not_isParent_root
        · cases h with
          | root => exact .inl rfl
          | element h => exact .inr ⟨_, rfl, .head h hpath⟩
  · rintro (rfl | ⟨p, rfl, h⟩)
    · exact Relation.TransGen.head' (hd.isParent_root_iff.mpr rfl)
        (reflTransGen_isParent_of_above (hd.root_above hi))
    · exact h.lift DocNode.element fun _ _ h => .element h

theorem mem_ancestorNodes_iff (hd : d.InOrder) (hi : i < d.size) :
    m ∈ d.ancestorNodes i ↔ Relation.TransGen d.IsParent m (.element i) := by
  rw [hd.transGen_isParent_iff hi, ancestorNodes, List.mem_append, List.mem_singleton,
    List.mem_map, or_comm]
  simp only [hd.mem_ancestorsOf_iff hi, eq_comm, and_comm]

/-! ### Siblings -/

section

variable {earlier later : List Nat}

theorem mem_later_iff (h : (earlier ++ i :: later).Pairwise (· < ·)) :
    j ∈ later ↔ j ∈ earlier ++ i :: later ∧ i < j := by
  obtain ⟨-, hlater, hearlier⟩ := List.pairwise_append.mp h
  constructor
  · intro hj
    exact ⟨List.mem_append_right _ (List.mem_cons_of_mem i hj),
      (List.pairwise_cons.mp hlater).1 j hj⟩
  · rintro ⟨hj, hlt⟩
    obtain hj | hj := List.mem_append.mp hj
    · exact absurd (hearlier j hj i List.mem_cons_self) (Nat.lt_asymm hlt)
    · obtain rfl | hj := List.mem_cons.mp hj
      · exact absurd hlt (Nat.lt_irrefl _)
      · exact hj

theorem mem_earlier_iff (h : (earlier ++ i :: later).Pairwise (· < ·)) :
    j ∈ earlier ↔ j ∈ earlier ++ i :: later ∧ j < i := by
  obtain ⟨-, hlater, hearlier⟩ := List.pairwise_append.mp h
  constructor
  · intro hj
    exact ⟨List.mem_append_left _ hj, hearlier j hj i List.mem_cons_self⟩
  · rintro ⟨hj, hlt⟩
    obtain hj | hj := List.mem_append.mp hj
    · exact hj
    · obtain rfl | hj := List.mem_cons.mp hj
      · exact absurd hlt (Nat.lt_irrefl _)
      · exact absurd ((List.pairwise_cons.mp hlater).1 j hj) (Nat.lt_asymm hlt)

end

/-- The siblings of an element, itself among them, are the children of its parent in order. -/
theorem exists_siblings (hd : d.InOrder) (hi : i < d.size) :
    ∃ earlier later, d.siblingsOf i = earlier ++ i :: later ∧
      (d.siblingsOf i).Pairwise (· < ·) ∧
        ∀ m, d.AreSiblings (.element i) m ↔ ∃ j ∈ d.siblingsOf i, m = .element j := by
  have hsiblings (m : DocNode) :
      d.AreSiblings (.element i) m ↔ d.IsChild (d.parentNode i) m := by
    constructor
    · rintro ⟨parent, hparent, hm⟩
      obtain rfl := (isChild_iff hi).mp hparent
      exact hm
    · intro hm
      exact ⟨_, (isChild_iff hi).mpr rfl, hm⟩
  simp only [hsiblings]
  cases hparent : d.parentOf? i with
  | some p =>
      have hmem : i ∈ d.childrenOf p := hd.mem_childrenOf_iff.mpr hparent
      obtain ⟨earlier, later, hsplit⟩ := List.append_of_mem hmem
      have hlist : d.siblingsOf i = d.childrenOf p := by rw [siblingsOf, hparent]
      have hnode : d.parentNode i = .element p := by rw [parentNode, hparent]
      rw [hlist, hnode]
      refine ⟨earlier, later, hsplit, hd.children_ascending (lt_size_of_mem_childrenOf hmem), ?_⟩
      intro m
      simp only [isChild_element_iff, hd.mem_childrenOf_iff, and_comm]
  | none =>
      obtain rfl := (hd.parentOf?_eq_none_iff hi).mp hparent
      have hlist : d.siblingsOf 0 = [0] := by rw [siblingsOf, hparent]
      have hnode : d.parentNode 0 = .root := by rw [parentNode, hparent]
      rw [hlist, hnode]
      refine ⟨[], [], rfl, List.pairwise_singleton _ _, ?_⟩
      intro m
      rw [IsChild, hd.isParent_root_iff]
      simp only [List.mem_singleton, exists_eq_left]
      exact and_iff_left_of_imp fun h => h ▸ rfl

/-- The siblings after an element and those before it, nearest first. -/
theorem exists_along_siblings (hd : d.InOrder) (hi : i < d.size) : ∃ earlier later,
    d.along .followingSibling (.element i) = later.map .element ∧
      d.along .precedingSibling (.element i) = (earlier.map .element).reverse ∧
        (earlier ++ i :: later).Pairwise (· < ·) ∧
          ∀ m, d.AreSiblings (.element i) m ↔ ∃ j ∈ earlier ++ i :: later, m = .element j := by
  obtain ⟨earlier, later, hsplit, hascending, hsiblings⟩ := hd.exists_siblings hi
  rw [hsplit] at hascending hsiblings
  have hne : ∀ j ∈ earlier, (j != i) = true := by
    intro j hj
    rw [bne_iff_ne]
    exact Nat.ne_of_lt ((List.pairwise_append.mp hascending).2.2 j hj i List.mem_cons_self)
  refine ⟨earlier, later, ?_, ?_, hascending, hsiblings⟩
  · rw [along, hsplit, List.dropWhile_append_of_pos hne]
    simp
  · rw [along, hsplit, List.takeWhile_append_of_pos hne]
    simp

/-! ### The nodes on an axis -/

theorem mem_along_root_iff (hd : d.InOrder) (axis : Axis) :
    m ∈ d.along axis .root ↔ d.OnAxis axis .root m := by
  have hnone : ∀ n, ¬ Relation.TransGen d.IsParent n .root := by
    intro n h
    obtain ⟨_, -, hlast⟩ := Relation.TransGen.tail'_iff.mp h
    exact not_isParent_root hlast
  have helements : m ∈ (List.range d.size).map DocNode.element ↔
      ∃ j < d.size, m = .element j := by
    simp only [List.mem_map, List.mem_range, eq_comm]
  have hsiblings : ¬ d.AreSiblings .root m := by
    rintro ⟨_, ⟨hparent, -⟩, -⟩
    exact not_isParent_root hparent
  cases axis with
  | self => exact List.mem_singleton
  | child =>
      rw [along, if_neg (Nat.ne_of_gt hd.size_pos), List.mem_singleton, OnAxis, IsChild,
        hd.isParent_root_iff]
      exact (and_iff_left_of_imp fun h => h ▸ rfl).symm
  | descendant => exact helements.trans hd.transGen_isChild_root_iff.symm
  | descendantOrSelf =>
      rw [along, List.mem_cons, helements, OnAxis, Relation.reflTransGen_iff_eq_or_transGen,
        hd.transGen_isChild_root_iff]
  | parent => exact iff_of_false List.not_mem_nil not_isParent_root
  | ancestor => exact iff_of_false List.not_mem_nil (hnone m)
  | ancestorOrSelf =>
      rw [along, List.mem_singleton, OnAxis, Relation.reflTransGen_iff_eq_or_transGen, eq_comm]
      exact (or_iff_left (hnone m)).symm
  | followingSibling | precedingSibling =>
      exact iff_of_false List.not_mem_nil fun h => hsiblings h.1
  | attributes =>
      refine iff_of_false List.not_mem_nil ?_
      rintro ⟨h, hm⟩
      rw [hd.isParent_root_iff.mp h] at hm
      cases hm

theorem mem_along_element_iff (hd : d.InOrder) (hi : i < d.size) (axis : Axis) :
    m ∈ d.along axis (.element i) ↔ d.OnAxis axis (.element i) m := by
  have hdescendants : m ∈ (d.descendantsOf i).map DocNode.element ↔
      Relation.TransGen d.IsChild (.element i) m := by
    simp only [transGen_isChild_iff, List.mem_map, hd.mem_descendantsOf_iff hi, eq_comm, and_comm]
  obtain ⟨earlier, later, hfollowing, hpreceding, hascending, hsiblings⟩ :=
    hd.exists_along_siblings hi
  cases axis with
  | self => exact List.mem_singleton
  | child =>
      simp only [along, OnAxis, isChild_element_iff, List.mem_map, hd.mem_childrenOf_iff, eq_comm,
        and_comm]
  | descendant => exact hdescendants
  | descendantOrSelf =>
      rw [along, List.mem_cons, hdescendants, OnAxis, Relation.reflTransGen_iff_eq_or_transGen]
  | parent => exact List.mem_singleton.trans (isParent_element_iff hi).symm
  | ancestor => exact hd.mem_ancestorNodes_iff hi
  | ancestorOrSelf =>
      rw [along, List.mem_cons, hd.mem_ancestorNodes_iff hi, OnAxis,
        Relation.reflTransGen_iff_eq_or_transGen, eq_comm]
  | followingSibling =>
      rw [hfollowing, OnAxis, hsiblings]
      constructor
      · intro hm
        obtain ⟨j, hj, rfl⟩ := List.mem_map.mp hm
        obtain ⟨hmem, hlt⟩ := (mem_later_iff hascending).mp hj
        exact ⟨⟨j, hmem, rfl⟩, DocNode.before_element_iff.mpr hlt⟩
      · rintro ⟨⟨j, hj, rfl⟩, hbefore⟩
        have hlt := DocNode.before_element_iff.mp hbefore
        exact List.mem_map_of_mem ((mem_later_iff hascending).mpr ⟨hj, hlt⟩)
  | precedingSibling =>
      rw [hpreceding, List.mem_reverse, OnAxis, hsiblings]
      constructor
      · intro hm
        obtain ⟨j, hj, rfl⟩ := List.mem_map.mp hm
        obtain ⟨hmem, hlt⟩ := (mem_earlier_iff hascending).mp hj
        exact ⟨⟨j, hmem, rfl⟩, DocNode.before_element_iff.mpr hlt⟩
      · rintro ⟨⟨j, hj, rfl⟩, hbefore⟩
        have hlt := DocNode.before_element_iff.mp hbefore
        exact List.mem_map_of_mem ((mem_earlier_iff hascending).mpr ⟨hj, hlt⟩)
  | attributes =>
      rw [along, OnAxis, List.mem_map]
      constructor
      · rintro ⟨k, hk, rfl⟩
        exact ⟨.attributeAt (List.mem_range.mp hk), rfl⟩
      · rintro ⟨h | h | hk, hm⟩
        · cases hm
        · exact ⟨_, List.mem_range.mpr hk, rfl⟩

/-! ### The order of the nodes on an axis -/

theorem elements_ordered {is : List Nat} (h : is.Pairwise (· < ·)) :
    (is.map DocNode.element).Pairwise fun a b => a.before b = true :=
  List.pairwise_map.mpr (h.imp DocNode.before_element_iff.mpr)

theorem ancestorNodes_ordered (hd : d.InOrder) (i : Nat) :
    (.element i :: d.ancestorNodes i).Pairwise fun a b => b.before a = true := by
  have hdescending := hd.ancestorsWithin_descending d.size i
  have helements : ((i :: d.ancestorsOf i).map DocNode.element).Pairwise
      fun a b => b.before a = true :=
    List.pairwise_map.mpr (hdescending.imp DocNode.before_element_iff.mpr)
  rw [ancestorNodes, ← List.cons_append, ← List.map_cons]
  refine List.pairwise_append.mpr ⟨helements, List.pairwise_singleton _ _, ?_⟩
  intro a ha b hb
  obtain ⟨j, -, rfl⟩ := List.mem_map.mp ha
  obtain rfl := List.mem_singleton.mp hb
  exact DocNode.before_root_element

theorem along_root_ordered (d : Document) (axis : Axis) :
    (d.along axis .root).Pairwise fun a b => axis.orders a b = true := by
  have helements := elements_ordered (List.pairwise_lt_range (n := d.size))
  cases axis with
  | self | ancestorOrSelf => exact List.pairwise_singleton _ _
  | child =>
      rw [along]
      split
      · exact .nil
      · exact List.pairwise_singleton _ _
  | descendant => exact helements
  | descendantOrSelf =>
      refine List.pairwise_cons.mpr ⟨?_, helements⟩
      intro a ha
      obtain ⟨j, -, rfl⟩ := List.mem_map.mp ha
      exact DocNode.before_root_element (i := j)
  | parent | ancestor | followingSibling | precedingSibling | attributes => exact .nil

theorem along_element_ordered (hd : d.InOrder) (hi : i < d.size) (axis : Axis) :
    (d.along axis (.element i)).Pairwise fun a b => axis.orders a b = true := by
  obtain ⟨stop, -, -, -, hdescendants, -⟩ := hd.exists_range hi
  have hbelow : ((d.descendantsOf i).map DocNode.element).Pairwise
      fun a b => a.before b = true := by
    rw [hdescendants]
    exact elements_ordered List.pairwise_lt_range'
  obtain ⟨earlier, later, hfollowing, hpreceding, hascending, -⟩ := hd.exists_along_siblings hi
  obtain ⟨hearlier, hlater, -⟩ := List.pairwise_append.mp hascending
  cases axis with
  | self | parent => exact List.pairwise_singleton _ _
  | child => exact elements_ordered (hd.children_ascending hi)
  | descendant => exact hbelow
  | descendantOrSelf =>
      refine List.pairwise_cons.mpr ⟨?_, hbelow⟩
      intro a ha
      rw [hdescendants] at ha
      obtain ⟨j, hj, rfl⟩ := List.mem_map.mp ha
      exact DocNode.before_element_iff.mpr (List.mem_range'_1.mp hj).1
  | ancestor => exact (List.pairwise_cons.mp (hd.ancestorNodes_ordered i)).2
  | ancestorOrSelf => exact hd.ancestorNodes_ordered i
  | followingSibling =>
      rw [hfollowing]
      exact elements_ordered (List.pairwise_cons.mp hlater).2
  | precedingSibling =>
      rw [hpreceding]
      exact List.pairwise_reverse.mpr (elements_ordered hearlier)
  | attributes =>
      refine List.pairwise_map.mpr (List.pairwise_lt_range.imp ?_)
      intro k l hlt
      exact DocNode.before_attributeAt_iff.mpr hlt

end InOrder

theorem nodup_of_orders {axis : Axis} {nodes : List DocNode}
    (h : nodes.Pairwise fun a b => axis.orders a b = true) : nodes.Nodup := by
  refine h.imp ?_
  rintro a _ hbefore rfl
  rw [axis.orders_irrefl a] at hbefore
  cases hbefore

end Document

/-- From the root of the document of a capture, and from each of its elements, an axis lists exactly
the nodes that it leads to, each once: in document order, or backwards from the nearest one if the
axis leads backwards. What is below an element takes up the positions from it on and before some
other, and the walk lists them in order. -/
theorem CaptureRequest.document_along (q : CaptureRequest) (time : Nat) (raw : RawNode)
    (serial : Nat) {n : DocNode} (hn : ((q.snapshot time raw).document serial).1.Has n)
    (hattribute : n.isAttribute = false) :
    let d := ((q.snapshot time raw).document serial).1
    (∀ axis, (∀ m, m ∈ d.along axis n ↔ d.OnAxis axis n m) ∧ (d.along axis n).Nodup ∧
      (d.along axis n).Pairwise fun a b => axis.orders a b = true) ∧
    ∀ i, n = .element i → ∃ stop, i < stop ∧ stop ≤ d.size ∧
      (∀ j, Relation.ReflTransGen d.Above i j ↔ i ≤ j ∧ j < stop) ∧
        d.descendantsOf i = List.range' (i + 1) (stop - (i + 1)) ∧
          ∀ steps, d.size ≤ steps → d.walk steps (d.childrenOf i) = d.descendantsOf i := by
  intro d
  have hd : d.InOrder := q.document_inOrder time raw serial
  cases n with
  | root =>
      refine ⟨fun axis => ⟨fun m => hd.mem_along_root_iff axis, ?_, ?_⟩, nofun⟩
      · exact Document.nodup_of_orders (Document.InOrder.along_root_ordered d axis)
      · exact Document.InOrder.along_root_ordered d axis
  | element i =>
      have hi : i < d.size := hn
      refine ⟨fun axis => ⟨fun m => hd.mem_along_element_iff hi axis, ?_, ?_⟩, ?_⟩
      · exact Document.nodup_of_orders (hd.along_element_ordered hi axis)
      · exact hd.along_element_ordered hi axis
      · rintro j ⟨⟩
        exact hd.exists_range hi
  | attributeAt i k => cases hattribute

/-- The root element has three children, and the first of them has a child. The last of the three
finds the second before the first, and not the child between them. -/
theorem CaptureRequest.document_along_last :
    let leaf (key : UInt64) : RawNode := .mk ⟨none, key⟩ {} none
    let raw : RawNode := .mk ⟨none, 1⟩ {} (some [.mk ⟨none, 2⟩ {} (some [leaf 3]), leaf 4, leaf 5])
    let d := ((CaptureRequest.snapshot {} 0 raw).document 0).1
    d.Has (.element 4) ∧ (DocNode.element 4).isAttribute = false ∧
      d.along .precedingSibling (.element 4) = [.element 3, .element 1] ∧
        ∀ m, d.OnAxis .precedingSibling (.element 4) m ↔ m = .element 3 ∨ m = .element 1 := by
  intro leaf raw d
  have hsize : 4 < d.size := by decide +kernel
  have hlist : d.along .precedingSibling (.element 4) = [.element 3, .element 1] := by
    decide +kernel
  have hn : d.Has (.element 4) := hsize
  obtain ⟨haxes, -⟩ := CaptureRequest.document_along {} 0 raw 0 hn rfl
  obtain ⟨hmem, -, -⟩ := haxes .precedingSibling
  refine ⟨hn, rfl, hlist, fun m => ?_⟩
  rw [← hmem m, hlist, List.mem_cons, List.mem_singleton]

end UiTree
