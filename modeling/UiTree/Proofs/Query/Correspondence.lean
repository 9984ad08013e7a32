import Mathlib.Data.List.Forall2
import UiTree.Query.Axis
import UiTree.Proofs.Snapshot.Restriction

/-!
# Nodes of two documents of one tree

Two captures of one tree may hold different attributes, so an attribute of an element may stand at
different places in its list. Nodes of the two documents correspond when they are the same element,
or attributes of the same name and text. Corresponding nodes stand in the same order, and the steps
of a path lead from corresponding nodes to corresponding nodes.

## Implementation notes

Corresponding lists are compared member by member, in order. Along the attribute axis the lists
differ until the test of the step has been applied; every other axis lists the same elements.
-/

namespace UiTree.Ascending

variable {α β : Type} {R : α → β → Prop} {before : α → α → Bool} {before' : β → β → Bool}

theorem insert_forall₂
    (hbefore : ∀ a b a' b', R a b → R a' b' → before a a' = before' b b')
    {a : α} {b : β} (hab : R a b) {as : List α} {bs : List β} (h : List.Forall₂ R as bs) :
    List.Forall₂ R (insert before a as) (insert before' b bs) := by
  induction h with
  | nil => exact .cons hab .nil
  | cons hhead htail ih =>
      rw [insert, insert, hbefore _ _ _ _ hab hhead, hbefore _ _ _ _ hhead hab]
      split
      · exact .cons hab (.cons hhead htail)
      · split
        · exact .cons hhead ih
        · exact .cons hhead htail

/-- Lists that correspond member by member do so in ascending order, if the orders do. -/
theorem ofList_forall₂
    (hbefore : ∀ a b a' b', R a b → R a' b' → before a a' = before' b b')
    {as : List α} {bs : List β} (h : List.Forall₂ R as bs) :
    List.Forall₂ R (ofList before as) (ofList before' bs) := by
  induction h with
  | nil => exact .nil
  | cons hhead _ ih => exact insert_forall₂ hbefore hhead ih

end UiTree.Ascending

namespace UiTree.Document

/-- The attributes of every element stand in the order in which attributes are listed. -/
def AttributesInOrder (d : Document) : Prop :=
  ∀ i, ((d.attributesOf i).map Prod.fst).Sublist DocumentAttribute.all

/-- Two documents have the same elements, and these have the same attributes among those that show
a given set. Both list attributes in order. -/
structure AgreeOn (s : AttributeSet) (d d' : Document) : Prop where
  size : d.size = d'.size
  type : ∀ i, (d.element? i).map Element.type = (d'.element? i).map Element.type
  childrenOf : ∀ i, d.childrenOf i = d'.childrenOf i
  parentOf : ∀ i, d.parentOf? i = d'.parentOf? i
  attributes : ∀ i, (d.attributesOf i).filter (fun x => s.has x.1.source) =
    (d'.attributesOf i).filter (fun x => s.has x.1.source)
  left : d.AttributesInOrder
  right : d'.AttributesInOrder

end UiTree.Document

namespace UiTree

theorem Snapshot.document_attributesInOrder (s : Snapshot) (serial : Nat) :
    (s.document serial).1.AttributesInOrder := by
  intro i
  simp only [document, Document.attributesOf, Document.element?, Array.getElem?_map]
  cases s.nodes[i]? with
  | none => simp
  | some n => exact n.element_attributes_sublist

/-- Restriction to a set leaves the attributes of the element that show the set. -/
theorem SnapshotNode.element_attributes_restrict (n : SnapshotNode) (s : AttributeSet) :
    (n.restrict s).element.attributes.filter (fun x => s.has x.1.source) =
      n.element.attributes.filter (fun x => s.has x.1.source) := by
  simp only [element, List.filter_filterMap]
  congr 1
  funext a
  by_cases ha : s.has a.source = true
  · rw [text?_restrict ha]
  · cases (n.restrict s).text? a <;> cases n.text? a <;> simp [Option.filter, ha]

/-- Snapshots whose nodes are the same within a set of attributes make documents that agree on the
set, if it holds the type of elements. -/
theorem Snapshot.document_agreeOn {s s' : Snapshot} {as : AttributeSet}
    (htype : Attribute.type ∈ as)
    (h : s.nodes.map (·.restrict as) = s'.nodes.map (·.restrict as)) (serial serial' : Nat) :
    (s.document serial).1.AgreeOn as (s'.document serial').1 := by
  have hlookup {α : Type} (f : Element → α) (hf : ∀ n : SnapshotNode, f (n.restrict as).element =
      f n.element) (i : Nat) :
      ((s.document serial).1.element? i).map f = ((s'.document serial').1.element? i).map f := by
    have hrestricted (t : Snapshot) (serial : Nat) : ((t.document serial).1.element? i).map f =
        ((t.nodes.map (·.restrict as))[i]?).map fun n => f n.element := by
      simp [document, Document.element?, Function.comp_def, hf]
    rw [hrestricted, hrestricted, h]
  have htype' : as.has .type = true := htype
  exact {
    size := by simpa [document, Document.size] using congrArg Array.size h
    type := hlookup _ fun n => by
      simp [SnapshotNode.element, SnapshotNode.restrict, Properties.restrict, htype']
    childrenOf := fun i => congrArg (·.getD []) (hlookup Element.children (fun n => rfl) i)
    parentOf := fun i => by
      have := congrArg (·.bind id) (hlookup Element.parent (fun n => rfl) i)
      simpa [Document.parentOf?, Option.bind_map] using this
    attributes := fun i => by
      have hkept := hlookup (fun e => e.attributes.filter fun x => as.has x.1.source)
        (fun n => n.element_attributes_restrict as) i
      have hgetD (x : Option Element) :
          ((x.map Element.attributes).getD []).filter (fun x => as.has x.1.source) =
            (x.map fun e => e.attributes.filter fun x => as.has x.1.source).getD [] := by
        cases x <;> rfl
      simp only [Document.attributesOf, hgetD, hkept]
    left := s.document_attributesInOrder serial
    right := s'.document_attributesInOrder serial' }

end UiTree

namespace UiTree.DocumentAttribute

/-- The place of an attribute in the order in which attributes are listed. -/
def rank (a : DocumentAttribute) : Nat := all.idxOf a

theorem pairwise_rank : all.Pairwise fun a b => a.rank < b.rank := by
  decide

/-- In a list that keeps the order, places compare as ranks do. -/
theorem lt_iff_rank_lt {as : List DocumentAttribute} (h : as.Sublist all) {k l : Nat}
    {a b : DocumentAttribute} (hk : as[k]? = some a) (hl : as[l]? = some b) :
    k < l ↔ a.rank < b.rank := by
  have hpairwise := List.pairwise_iff_getElem.mp (pairwise_rank.sublist h)
  obtain ⟨hk', rfl⟩ := List.getElem?_eq_some_iff.mp hk
  obtain ⟨hl', rfl⟩ := List.getElem?_eq_some_iff.mp hl
  constructor
  · exact hpairwise k l hk' hl'
  · intro hrank
    rcases Nat.lt_trichotomy k l with hlt | rfl | hgt
    · exact hlt
    · omega
    · have := hpairwise l k hl' hk' hgt
      omega

end UiTree.DocumentAttribute

namespace UiTree.Query

variable {s : AttributeSet} {d d' : Document}

/-- Nodes of two documents correspond: they are the same element, or attributes of the same element
with the same name and text. -/
inductive DocNode.Corresponds (d d' : Document) : DocNode → DocNode → Prop where
  | root : Corresponds d d' .root .root
  | element (i : Nat) : Corresponds d d' (.element i) (.element i)
  | attributeAt {i k l : Nat} {x : DocumentAttribute × String}
      (left : (d.attributesOf i)[k]? = some x) (right : (d'.attributesOf i)[l]? = some x) :
      Corresponds d d' (.attributeAt i k) (.attributeAt i l)

namespace DocNode.Corresponds

variable {n n' m m' : DocNode}

theorem textOf (h : Corresponds d d' n n') : d.textOf n = d'.textOf n' := by
  cases h with
  | root | element => rfl
  | attributeAt left right => simp [Document.textOf, Document.attributeAt?, left, right]

theorem owner (h : Corresponds d d' n n') : n.owner? = n'.owner? := by
  cases h <;> rfl

/-- Corresponding nodes stand in the same order. -/
theorem before (hagree : d.AgreeOn s d') (h : Corresponds d d' n n') (h' : Corresponds d d' m m') :
    n.before m = n'.before m' := by
  cases h with
  | root => cases h' <;> simp [DocNode.before, key]
  | element i => cases h' <;> simp [DocNode.before, key]
  | @attributeAt i k l x left right =>
      cases h' with
      | root => simp [DocNode.before, key]
      | element => simp [DocNode.before, key]
      | @attributeAt j k' l' y left' right' =>
          by_cases hij : i = j
          · subst hij
            have hleft := DocumentAttribute.lt_iff_rank_lt (hagree.left i)
              (k := k) (l := k') (a := x.1) (b := y.1) (by simp [left]) (by simp [left'])
            have hright := DocumentAttribute.lt_iff_rank_lt (hagree.right i)
              (k := l) (l := l') (a := x.1) (b := y.1) (by simp [right]) (by simp [right'])
            simp [DocNode.before, key, hleft, hright]
          · have hij' : (i == j) = false := by simpa using hij
            simp [DocNode.before, key, hij']

end DocNode.Corresponds

open DocNode (Corresponds)

theorem inOrder_corresponds (hagree : d.AgreeOn s d') {ns ns' : List DocNode}
    (h : List.Forall₂ (Corresponds d d') ns ns') :
    List.Forall₂ (Corresponds d d') (DocNode.inOrder ns) (DocNode.inOrder ns') :=
  Ascending.ofList_forall₂ (fun _ _ _ _ h h' => h.before hagree h') h

theorem elements_correspond (is : List Nat) :
    List.Forall₂ (Corresponds d d') (is.map .element) (is.map .element) := by
  induction is with
  | nil => exact .nil
  | cons i is ih => exact .cons (.element i) ih

theorem walk_eq (h : d.AgreeOn s d') (steps : Nat) (stack : List Nat) :
    d.walk steps stack = d'.walk steps stack := by
  induction steps generalizing stack with
  | zero => rfl
  | succ steps ih =>
      cases stack with
      | nil => rfl
      | cons i stack => rw [Document.walk, Document.walk, h.childrenOf, ih]

theorem ancestorsWithin_eq (h : d.AgreeOn s d') (levels i : Nat) :
    d.ancestorsWithin levels i = d'.ancestorsWithin levels i := by
  induction levels generalizing i with
  | zero => rfl
  | succ levels ih =>
      rw [Document.ancestorsWithin, Document.ancestorsWithin, h.parentOf]
      cases d'.parentOf? i with
      | none => rfl
      | some p => simp only [ih]

/-- Off the attribute axis, corresponding nodes are listed along every axis. -/
theorem along_corresponds (h : d.AgreeOn s d') {axis : Axis} (haxis : axis ≠ .attributes)
    {n n' : DocNode} (hn : Corresponds d d' n n') :
    List.Forall₂ (Corresponds d d') (d.along axis n) (d'.along axis n') := by
  have hparent (i : Nat) : Corresponds d d' (d.parentNode i) (d'.parentNode i) := by
    rw [Document.parentNode, Document.parentNode, h.parentOf]
    cases d'.parentOf? i with
    | none => exact .root
    | some p => exact .element p
  have hancestors (i : Nat) :
      List.Forall₂ (Corresponds d d') (d.ancestorNodes i) (d'.ancestorNodes i) := by
    rw [Document.ancestorNodes, Document.ancestorNodes, Document.ancestorsOf,
      Document.ancestorsOf, ancestorsWithin_eq h, h.size]
    exact List.rel_append (elements_correspond _) (.cons .root .nil)
  have hdescendants (i : Nat) : List.Forall₂ (Corresponds d d')
      ((d.descendantsOf i).map .element) ((d'.descendantsOf i).map .element) := by
    rw [Document.descendantsOf, Document.descendantsOf, walk_eq h, h.childrenOf, h.size]
    exact elements_correspond _
  have hsiblings (i : Nat) : d.siblingsOf i = d'.siblingsOf i := by
    rw [Document.siblingsOf, Document.siblingsOf, h.parentOf]
    cases d'.parentOf? i with
    | none => rfl
    | some p => exact h.childrenOf p
  cases hn with
  | root =>
      cases axis with
      | self | ancestorOrSelf => exact .cons .root .nil
      | child =>
          rw [Document.along, Document.along, h.size]
          split
          · exact .nil
          · exact .cons (.element 0) .nil
      | descendant =>
          rw [Document.along, Document.along, h.size]
          exact elements_correspond _
      | descendantOrSelf =>
          rw [Document.along, Document.along, h.size]
          exact .cons .root (elements_correspond _)
      | parent | ancestor | followingSibling | precedingSibling => exact .nil
      | attributes => exact absurd rfl haxis
  | element i =>
      cases axis with
      | self => exact .cons (.element i) .nil
      | child =>
          rw [Document.along, Document.along, h.childrenOf]
          exact elements_correspond _
      | descendant => exact hdescendants i
      | descendantOrSelf => exact .cons (.element i) (hdescendants i)
      | parent => exact .cons (hparent i) .nil
      | ancestor => exact hancestors i
      | ancestorOrSelf => exact .cons (.element i) (hancestors i)
      | followingSibling =>
          rw [Document.along, Document.along, hsiblings]
          exact elements_correspond _
      | precedingSibling =>
          rw [Document.along, Document.along, hsiblings, ← List.map_reverse]
          exact elements_correspond _
      | attributes => exact absurd rfl haxis
  | @attributeAt i k l x left right =>
      cases axis with
      | self => exact .cons (.attributeAt left right) .nil
      | parent => exact .cons (.element i) .nil
      | ancestor => exact .cons (.element i) (hancestors i)
      | ancestorOrSelf =>
          exact .cons (.attributeAt left right) (.cons (.element i) (hancestors i))
      | child | descendant | descendantOrSelf | followingSibling | precedingSibling => exact .nil
      | attributes => exact absurd rfl haxis

/-- A test treats corresponding nodes alike. -/
theorem passes_corresponds (h : d.AgreeOn s d') (axis : Axis) (test : NodeTest)
    {n n' : DocNode} (hn : Corresponds d d' n n') :
    d.passes axis test n = d'.passes axis test n' := by
  have htype (i : Nat) (type : ElementType) :
      (d.element? i).any (·.type = type) = (d'.element? i).any (·.type = type) := by
    have := congrArg (·.any (· = type)) (h.type i)
    simpa [Option.any_map] using this
  cases hn with
  | root =>
      cases test with
      | element type => cases type <;> rfl
      | anyNode | anyName | named => rfl
  | element i =>
      cases test with
      | element type =>
          cases type with
          | none => rfl
          | some type => exact htype i type
      | anyNode | anyName | named => rfl
  | attributeAt left right =>
      cases test with
      | named a => simp [Document.passes, Document.attributeAt?, left, right]
      | element type => cases type <;> rfl
      | anyNode | anyName => rfl

/-- The places in a list at which a test holds lead to the members for which it holds. -/
theorem places_forall₂ {α : Type} (p : α → Bool) (xs : List α) :
    List.Forall₂ (fun k x => xs[k]? = some x)
      ((List.range xs.length).filter fun k => (xs[k]?).any p) (xs.filter p) := by
  have hall : (List.range xs.length).map (xs[·]?) = xs.map some := by
    apply List.ext_getElem
    · simp
    · intro k hk hk'
      simp
  have hmap : ((List.range xs.length).filter fun k => (xs[k]?).any p).map (xs[·]?) =
      (xs.filter p).map some := by
    calc
      _ = ((List.range xs.length).map (xs[·]?)).filter (·.any p) := List.filter_map.symm
      _ = (xs.map some).filter (·.any p) := by rw [hall]
      _ = (xs.filter p).map some := List.filter_map
  rw [← List.forall₂_eq_eq_eq, List.forall₂_map_left_iff, List.forall₂_map_right_iff] at hmap
  exact hmap

theorem forall₂_of_common {α β γ : Type} {R : α → γ → Prop} {S : β → γ → Prop}
    {T : α → β → Prop} (h : ∀ a b c, R a c → S b c → T a b) {as : List α} {bs : List β}
    {cs : List γ} (has : List.Forall₂ R as cs) (hbs : List.Forall₂ S bs cs) :
    List.Forall₂ T as bs := by
  induction has generalizing bs with
  | nil =>
      cases hbs
      exact .nil
  | cons hac _ ih =>
      cases hbs with
      | cons hbc hbs => exact .cons (h _ _ _ hac hbc) (ih hbs)

/-- Whether a test along the attribute axis lets an attribute pass. -/
def NodeTest.admits : NodeTest → DocumentAttribute → Bool
  | .anyNode, _ | .anyName, _ => true
  | .named a, b => b = a
  | .element _, _ => false

theorem passes_attributeAt (d : Document) (test : NodeTest) (i k : Nat)
    (hk : k < (d.attributesOf i).length) :
    d.passes .attributes test (.attributeAt i k) =
      ((d.attributesOf i)[k]?).any fun x => test.admits x.1 := by
  cases test with
  | named a => rfl
  | element type => cases type <;> simp [Document.passes, NodeTest.admits, hk]
  | anyNode | anyName => simp [Document.passes, NodeTest.admits, hk]

/-- Every attribute that a test lets pass is among those that it reads. -/
theorem admits_reads {test : NodeTest} {a : DocumentAttribute} (h : test.admits a = true) :
    a.source ∈ testReads .attributes test := by
  cases test with
  | anyNode | anyName => simp [testReads]
  | named b =>
      have hab : a = b := by simpa [NodeTest.admits] using h
      simp [testReads, hab]
  | element => simp [NodeTest.admits] at h

/-- The attributes of an element that pass a test correspond, if the documents agree on them. -/
theorem attributes_correspond (h : d.AgreeOn s d') {test : NodeTest}
    (hreads : ∀ a, a ∈ testReads .attributes test → a ∈ s) (i : Nat) :
    List.Forall₂ (Corresponds d d')
      ((d.along .attributes (.element i)).filter (d.passes .attributes test))
      ((d'.along .attributes (.element i)).filter (d'.passes .attributes test)) := by
  have hplaces (d : Document) :
      (d.along .attributes (.element i)).filter (d.passes .attributes test) =
        ((List.range (d.attributesOf i).length).filter fun k =>
          ((d.attributesOf i)[k]?).any fun x => test.admits x.1).map (.attributeAt i) := by
    rw [Document.along, List.filter_map]
    congr 1
    apply List.filter_congr
    intro k hk
    exact passes_attributeAt d test i k (List.mem_range.mp hk)
  have hadmitted : (d.attributesOf i).filter (fun x => test.admits x.1) =
      (d'.attributesOf i).filter (fun x => test.admits x.1) := by
    have hnarrow (xs : List (DocumentAttribute × String)) : xs.filter (fun x => test.admits x.1) =
        (xs.filter fun x => s.has x.1.source).filter fun x => test.admits x.1 := by
      rw [List.filter_filter]
      apply List.filter_congr
      intro x _
      by_cases hx : test.admits x.1 = true
      · have hsource : s.has x.1.source = true := hreads _ (admits_reads hx)
        simp [hx, hsource]
      · simp [hx]
    rw [hnarrow, h.attributes, ← hnarrow]
  have hleft := places_forall₂ (fun x => test.admits x.1) (d.attributesOf i)
  have hright := places_forall₂ (fun x => test.admits x.1) (d'.attributesOf i)
  rw [← hadmitted] at hright
  rw [hplaces, hplaces, List.forall₂_map_left_iff, List.forall₂_map_right_iff]
  exact forall₂_of_common (fun _ _ _ hk hl => .attributeAt hk hl) hleft hright

/-- What passes the test of a step along its axis corresponds, if the documents agree on what the
step reads. -/
theorem passing_corresponds (h : d.AgreeOn s d') {axis : Axis} {test : NodeTest}
    (hreads : ∀ a, a ∈ testReads axis test → a ∈ s) {n n' : DocNode}
    (hn : Corresponds d d' n n') :
    List.Forall₂ (Corresponds d d') ((d.along axis n).filter (d.passes axis test))
      ((d'.along axis n').filter (d'.passes axis test)) := by
  by_cases haxis : axis = .attributes
  · subst haxis
    cases hn with
    | element i => exact attributes_correspond h hreads i
    | root | attributeAt => exact .nil
  · refine List.rel_filter ?_ (along_corresponds h haxis hn)
    intro m m' hm
    simp only [passes_corresponds h axis test hm]

end UiTree.Query
