import Mathlib.Data.List.Sort
import UiTree.Proofs.Query.Soundness
import UiTree.Proofs.Snapshot.Arena

/-!
# Selecting elements by a test

An expression decides a test of snapshot nodes if at every element of a document it is true exactly
when the test holds of the node behind the element. Comparisons of an attribute with a text decide
such tests, and the connectives join them. The path that looks for all elements with such an
expression as its predicate selects the positions of the nodes that pass the test.

## Implementation notes

An element lists an attribute at most once, but it is enough to know which texts the selected
attributes have.
-/

namespace UiTree

namespace Ascending

variable {α : Type} {before : α → α → Bool}

theorem pairwise_insert (hseparates : Separates before)
    (htrans : ∀ a b c, before a b = true → before b c = true → before a c = true) (a : α)
    {bs : List α} (h : bs.Pairwise fun b c => before b c = true) :
    (insert before a bs).Pairwise fun b c => before b c = true := by
  induction bs with
  | nil => exact List.pairwise_singleton _ a
  | cons b bs ih =>
      obtain ⟨hb, hbs⟩ := List.pairwise_cons.mp h
      rw [insert]
      split
      · next hab =>
        refine List.pairwise_cons.mpr ⟨List.forall_mem_cons.mpr ⟨hab, ?_⟩, h⟩
        exact fun c hc => htrans a b c hab (hb c hc)
      · split
        · next hba =>
          refine List.pairwise_cons.mpr ⟨fun c hc => ?_, ih hbs⟩
          rcases (mem_insert hseparates).mp hc with rfl | hc
          · exact hba
          · exact hb c hc
        · exact h

theorem pairwise_ofList (hseparates : Separates before)
    (htrans : ∀ a b c, before a b = true → before b c = true → before a c = true) (as : List α) :
    (ofList before as).Pairwise fun b c => before b c = true := by
  induction as with
  | nil => exact .nil
  | cons a as ih => exact pairwise_insert hseparates htrans a ih

theorem pairwise_ofList_lt (as : List Nat) :
    (ofList (fun p q => decide (p < q)) as).Pairwise (· < ·) := by
  have hpairwise := pairwise_ofList Query.separates_lt (fun a b c => by
    simp only [decide_eq_true_eq]
    exact Nat.lt_trans) as
  simpa only [decide_eq_true_eq] using hpairwise

/-- There is one ascending list of some numbers. -/
theorem ofList_lt_eq {as bs : List Nat} (hbs : bs.Pairwise (· < ·)) (h : ∀ a, a ∈ as ↔ a ∈ bs) :
    ofList (fun p q => decide (p < q)) as = bs := by
  refine (pairwise_ofList_lt as).eq_of_mem_iff hbs fun a => ?_
  rw [mem_ofList Query.separates_lt, h]

end Ascending

namespace Snapshot

variable {s : Snapshot} {p : SnapshotNode → Bool} {j : Nat}

theorem mem_positions_iff : j ∈ s.positions p ↔ ∃ n, s.node? j = some n ∧ p n = true := by
  simp only [positions, List.mem_filterMap, Prod.exists, List.mem_zipIdx_iff_getElem?,
    Array.getElem?_toList, node?, Option.ite_none_right_eq_some, Option.some.injEq]
  constructor
  · rintro ⟨n, i, hn, hp, rfl⟩
    exact ⟨n, hn, hp⟩
  · rintro ⟨n, hn, hp⟩
    exact ⟨n, j, hn, hp, rfl⟩

theorem positions_ascending (s : Snapshot) (p : SnapshotNode → Bool) :
    (s.positions p).Pairwise (· < ·) := by
  have hplaces : s.nodes.toList.zipIdx.Pairwise fun x y => x.2 < y.2 := by
    rw [← List.pairwise_map, List.zipIdx_map_snd]
    exact List.pairwise_lt_range'
  refine hplaces.filterMap _ fun x y hlt i hi k hk => ?_
  obtain ⟨-, ⟨⟩⟩ := Option.ite_none_right_eq_some.mp hi
  obtain ⟨-, ⟨⟩⟩ := Option.ite_none_right_eq_some.mp hk
  exact hlt

end Snapshot

theorem SnapshotNode.mem_element_attributes_iff {n : SnapshotNode} {a : DocumentAttribute}
    {t : String} : (a, t) ∈ n.element.attributes ↔ n.text? a = some t := by
  simp only [element, List.mem_filterMap, Option.map_eq_some_iff, Prod.mk.injEq]
  constructor
  · rintro ⟨b, -, u, hu, rfl, rfl⟩
    exact hu
  · intro h
    exact ⟨a, a.mem_all, t, h, rfl, rfl⟩

end UiTree

namespace UiTree.Query

variable {s : Snapshot} {j : Nat} {n : SnapshotNode} {e e' : Expr}
  {test test' : SnapshotNode → Bool}

/-- At every element of a document the expression is true exactly if a test holds of the node that
the element was made of. -/
def Expr.Decides (e : Expr) (test : SnapshotNode → Bool) : Prop :=
  ∀ (s : Snapshot) (serial j : Nat) (n : SnapshotNode), s.node? j = some n →
    ∀ position size, eval (s.document serial).1 e ⟨.element j, position, size⟩ =
      .ok (.truth (test n))

theorem Expr.Decides.and (h : e.Decides test) (h' : e'.Decides test') :
    (Expr.binary .and e e').Decides fun n => test n && test' n := by
  intro s serial j n hn position size
  rw [eval, h s serial j n hn, ok_bind]
  beta_reduce
  cases test n with
  | false => rfl
  | true =>
      rw [h' s serial j n hn]
      rfl

theorem Expr.Decides.or (h : e.Decides test) (h' : e'.Decides test') :
    (Expr.binary .or e e').Decides fun n => test n || test' n := by
  intro s serial j n hn position size
  rw [eval, h s serial j n hn, ok_bind]
  beta_reduce
  cases test n with
  | true => rfl
  | false =>
      rw [h' s serial j n hn]
      rfl

theorem Expr.Decides.not (h : e.Decides test) :
    (Expr.call .not [e]).Decides fun n => !test n := by
  intro s serial j n hn position size
  simp only [eval, evalAll, h s serial j n hn]
  rfl

/-- The attributes with a name are found by their places in the list of the element. -/
theorem mem_filter_named_iff {d : Document} {m : DocNode} {a : DocumentAttribute} :
    m ∈ (d.along .attributes (.element j)).filter (d.passes .attributes (.named a)) ↔
      ∃ k t, m = .attributeAt j k ∧ (d.attributesOf j)[k]? = some (a, t) := by
  simp only [List.mem_filter, Document.along, List.mem_map, List.mem_range]
  constructor
  · rintro ⟨⟨k, -, rfl⟩, hpasses⟩
    obtain ⟨⟨b, t⟩, hat, hb⟩ := (Option.any_eq_true _ _).mp hpasses
    obtain rfl : b = a := of_decide_eq_true hb
    exact ⟨k, t, rfl, hat⟩
  · rintro ⟨k, t, rfl, hat⟩
    refine ⟨⟨k, (List.getElem?_eq_some_iff.mp hat).1, rfl⟩, ?_⟩
    exact (Option.any_eq_true _ _).mpr ⟨(a, t), hat, decide_eq_true rfl⟩

/-- The attribute of an element with a name. -/
def Expr.attribute (a : DocumentAttribute) : Expr :=
  .path false [.mk .attributes (.named a) []]

/-- The attributes of an element with a name have the text that the node shows under it, if any. -/
theorem eval_attribute (hn : s.node? j = some n) (serial : Nat) (a : DocumentAttribute)
    (position size : Nat) :
    ∃ ns, eval (s.document serial).1 (.attribute a) ⟨.element j, position, size⟩ =
        .ok (.nodes ns) ∧
      ∀ t, t ∈ ns.map (s.document serial).1.textOf ↔ n.text? a = some t := by
  have hattributes : (s.document serial).1.attributesOf j = n.element.attributes := by
    have hnode : s.nodes[j]? = some n := hn
    simp [Snapshot.document, Document.attributesOf, Document.element?, hnode]
  have htext {k : Nat} {b : DocumentAttribute} {t : String}
      (hat : ((s.document serial).1.attributesOf j)[k]? = some (b, t)) :
      (s.document serial).1.textOf (.attributeAt j k) = t := by
    rw [Document.textOf, Document.attributeAt?, hat]
    rfl
  refine ⟨DocNode.inOrder (((s.document serial).1.along .attributes (.element j)).filter
    ((s.document serial).1.passes .attributes (.named a))), ?_, fun t => ?_⟩
  · simp only [Expr.attribute, eval, evalSteps, collect, evalStep, evalPredicates, ok_bind,
      List.append_nil, Bool.false_eq_true, if_false]
  · rw [← SnapshotNode.mem_element_attributes_iff, ← hattributes, List.mem_map]
    simp only [DocNode.mem_inOrder, mem_filter_named_iff]
    constructor
    · rintro ⟨_, ⟨k, u, rfl, hat⟩, rfl⟩
      rw [htext hat]
      exact List.mem_of_getElem? hat
    · intro hmem
      obtain ⟨k, hat⟩ := List.mem_iff_getElem?.mp hmem
      exact ⟨_, ⟨k, t, rfl, hat⟩, htext hat⟩

section Attributes

variable {texts : List String} {found : Option String}

theorem head?_eq_of_mem_iff (h : ∀ t, t ∈ texts ↔ found = some t) : texts.head? = found := by
  cases texts with
  | nil =>
      cases found with
      | none => rfl
      | some t => exact absurd ((h t).mpr rfl) List.not_mem_nil
  | cons t texts => exact ((h t).mp List.mem_cons_self).symm

theorem any_eq_of_mem_iff (h : ∀ t, t ∈ texts ↔ found = some t) (v : String) :
    (texts.any (· == v)) = (found == some v) := by
  rw [Bool.eq_iff_iff, List.any_eq_true, beq_iff_eq, ← h]
  simp

end Attributes

/-- The text of the attribute is equal to a given one. -/
theorem decides_equal (a : DocumentAttribute) (v : String) :
    (Expr.binary .equal (.attribute a) (.literal v)).Decides fun n => n.text? a == some v := by
  intro s serial j n hn position size
  obtain ⟨ns, hns, htexts⟩ := eval_attribute hn serial a position size
  rw [eval_comparison (by decide) (by decide), hns, ok_bind, eval, ok_bind]
  beta_reduce
  rw [← any_eq_of_mem_iff htexts v, List.any_map]
  rfl

/-- A function of two texts is called with the text of the attribute, which is empty if the
attribute is not there, and with a given text. -/
theorem decides_call {f : Function} {compare : String → String → Bool}
    (hf : ∀ d ns v c, applyFunction d f [.nodes ns, .text v] c =
      .ok (.truth (compare ((Value.nodes ns).toText d) v)))
    (a : DocumentAttribute) (v : String) :
    (Expr.call f [.attribute a, .literal v]).Decides fun n =>
      compare ((n.text? a).getD "") v := by
  intro s serial j n hn position size
  obtain ⟨ns, hns, htexts⟩ := eval_attribute hn serial a position size
  have htext : (Value.nodes ns).toText (s.document serial).1 = (n.text? a).getD "" := by
    rw [← head?_eq_of_mem_iff htexts, List.head?_map]
    rfl
  simp only [eval, evalAll, hns, ok_bind, hf, htext]

theorem decides_startsWith (a : DocumentAttribute) (v : String) :
    (Expr.call .startsWith [.attribute a, .literal v]).Decides fun n =>
      Text.startsWith ((n.text? a).getD "") v :=
  decides_call (fun _ _ _ _ => rfl) a v

theorem decides_contains (a : DocumentAttribute) (v : String) :
    (Expr.call .contains [.attribute a, .literal v]).Decides fun n =>
      Text.contains ((n.text? a).getD "") v :=
  decides_call (fun _ _ _ _ => rfl) a v

/-- The nodes that a predicate holds for are kept, if where they stand in the list does not matter
to it. -/
theorem keep_eq_filter {predicate : Context → Evaluated Value} {holds : DocNode → Bool}
    {ns : List DocNode} (size before : Nat)
    (h : ∀ m ∈ ns, ∀ position, ∃ v, predicate ⟨m, position, size⟩ = .ok v ∧
      v.holdsAt position = holds m) :
    keep predicate size before ns = .ok (ns.filter holds) := by
  induction ns generalizing before with
  | nil => rfl
  | cons m ns ih =>
      obtain ⟨hm, hns⟩ := List.forall_mem_cons.mp h
      obtain ⟨v, hv, hholds⟩ := hm (before + 1)
      rw [keep, hv, ok_bind, ih (before + 1) hns, ok_bind, List.filter_cons, hholds]

theorem collect_eq_flatMap {select : DocNode → Evaluated (List DocNode)}
    {found : DocNode → List DocNode} {ns : List DocNode} (h : ∀ m ∈ ns, select m = .ok (found m)) :
    collect select ns = .ok (ns.flatMap found) := by
  induction ns with
  | nil => rfl
  | cons m ns ih =>
      obtain ⟨hm, hns⟩ := List.forall_mem_cons.mp h
      rw [collect, hm, ok_bind, ih hns, ok_bind, List.flatMap_cons]

/-- Whether a node of a document is an element made of a snapshot node that passes a test. -/
def DocNode.passes (s : Snapshot) (test : SnapshotNode → Bool) : DocNode → Bool
  | .element j => (s.node? j).any test
  | _ => false

theorem passes_iff {m : DocNode} :
    m.passes s test = true ↔ ∃ j n, m = .element j ∧ s.node? j = some n ∧ test n = true := by
  cases m with
  | root => simp [DocNode.passes]
  | attributeAt i k => simp [DocNode.passes]
  | element j => simp [DocNode.passes, Option.any_eq_true]

section Children

variable {d : Document} {m : DocNode}

/-- Only elements are children, and they all pass the test for elements. -/
theorem exists_of_mem_children (hd : d.Closed) {i : DocNode} (hi : d.Has i)
    (hm : m ∈ d.along .child i) : ∃ j, m = .element j ∧ j < d.size := by
  have hhas := Document.along_has hd .child hi m hm
  cases i with
  | root =>
      rw [Document.along] at hm
      split at hm
      · cases hm
      · obtain rfl := List.mem_singleton.mp hm
        exact ⟨0, rfl, hhas⟩
  | element i =>
      obtain ⟨j, -, rfl⟩ := List.mem_map.mp hm
      exact ⟨j, rfl, hhas⟩
  | attributeAt i k => cases hm

theorem filter_anyName_children (hd : d.Closed) {i : DocNode} (hi : d.Has i) :
    (d.along .child i).filter (d.passes .child .anyName) = d.along .child i := by
  rw [List.filter_eq_self]
  intro m hm
  obtain ⟨j, rfl, -⟩ := exists_of_mem_children hd hi hm
  rfl

end Children

/-- The children of a node that a predicate holds for. -/
theorem evalStep_children {serial : Nat} (hd : (s.document serial).1.Closed) (h : e.Decides test)
    {i : DocNode} (hi : (s.document serial).1.Has i) :
    evalStep (s.document serial).1 (.mk .child .anyName [e]) i =
      .ok (((s.document serial).1.along .child i).filter (DocNode.passes s test)) := by
  rw [evalStep, filter_anyName_children hd hi, evalPredicates,
    keep_eq_filter _ _ ?_, ok_bind, evalPredicates]
  intro m hm position
  obtain ⟨j, rfl, hj⟩ := exists_of_mem_children hd hi hm
  have hlt : j < s.size := by simpa [Snapshot.document, Document.size, Snapshot.size] using hj
  have hn : s.node? j = some s.nodes[j] := Array.getElem?_eq_getElem hlt
  refine ⟨_, h s serial j _ hn _ _, ?_⟩
  simp [DocNode.passes, hn, Value.holdsAt, Value.toTruth]

/-- Every element is a child of the root or of another element. -/
theorem exists_mem_children (hlinked : s.Linked) (serial : Nat) (hj : s.node? j = some n) :
    ∃ i ∈ (s.document serial).1.along .descendantOrSelf .root,
      .element j ∈ (s.document serial).1.along .child i := by
  by_cases hne : j = 0
  · subst hne
    refine ⟨.root, List.mem_cons_self, ?_⟩
    have hsize : (s.document serial).1.size ≠ 0 := by
      simpa [Snapshot.document, Document.size] using Nat.ne_of_gt s.nodes_pos
    rw [Document.along, if_neg hsize]
    exact List.mem_singleton.mpr rfl
  · obtain ⟨p, above, children, -, -, hp, hchildren, hchild, -⟩ := hlinked.parent j n hj hne
    have hnode : s.nodes[p]? = some above := hp
    refine ⟨.element p, List.mem_cons_of_mem _ (List.mem_map.mpr ⟨p, ?_, rfl⟩), ?_⟩
    · have hlt := (Array.getElem?_eq_some_iff.mp hnode).1
      simpa [Snapshot.document, Document.size] using hlt
    · refine List.mem_map.mpr ⟨j, ?_, rfl⟩
      have hmem := List.mem_of_getElem? hchild
      simpa [Document.childrenOf, Document.element?, Snapshot.document, hnode,
        SnapshotNode.element, hchildren] using hmem

/-- All elements that an expression is true at. -/
def Expr.everywhere (e : Expr) : Expr :=
  .path true [.anywhere, .mk .child .anyName [e]]

/-- The path finds the elements that pass the test, and nothing else. -/
theorem eval_everywhere (hlinked : s.Linked) {serial : Nat} (hd : (s.document serial).1.Closed)
    (h : e.Decides test) :
    ∃ ns, eval (s.document serial).1 e.everywhere .start = .ok (.nodes ns) ∧
      ∀ m, m ∈ ns ↔ m.passes s test = true := by
  have hfirst : evalStep (s.document serial).1 .anywhere .root =
      .ok ((s.document serial).1.along .descendantOrSelf .root) := by
    have hall : ((s.document serial).1.along .descendantOrSelf .root).filter
        ((s.document serial).1.passes .descendantOrSelf .anyNode) =
          (s.document serial).1.along .descendantOrSelf .root :=
      List.filter_eq_self.mpr fun _ _ => rfl
    rw [Step.anywhere, evalStep, evalPredicates, hall]
  have hroot : (s.document serial).1.Has .root := trivial
  have hsecond : collect (evalStep (s.document serial).1 (.mk .child .anyName [e]))
      (DocNode.inOrder ((s.document serial).1.along .descendantOrSelf .root)) = _ :=
    collect_eq_flatMap fun i hi => evalStep_children hd h
      (Document.along_has hd .descendantOrSelf hroot i (DocNode.mem_inOrder.mp hi))
  refine ⟨DocNode.inOrder ((DocNode.inOrder
    ((s.document serial).1.along .descendantOrSelf .root)).flatMap fun i =>
      ((s.document serial).1.along .child i).filter (DocNode.passes s test)), ?_, fun m => ?_⟩
  · simp only [Expr.everywhere, Context.start, eval, evalSteps, collect, hfirst, hsecond, ok_bind,
      List.append_nil, if_true]
  · simp only [DocNode.mem_inOrder, List.mem_flatMap, List.mem_filter]
    constructor
    · rintro ⟨i, -, -, hpasses⟩
      exact hpasses
    · intro hpasses
      obtain ⟨j, n, rfl, hn, -⟩ := passes_iff.mp hpasses
      obtain ⟨i, hi, hchild⟩ := exists_mem_children hlinked serial hn
      exact ⟨i, hi, hchild, hpasses⟩

/-- A query for all elements that pass a test selects the positions of the nodes that pass it. -/
theorem evaluate_everywhere (hlinked : s.Linked) {serial : Nat}
    (hd : (s.document serial).1.Closed) (h : e.Decides test) {q : Compiled}
    (hq : q.expr = e.everywhere) :
    q.evaluate (s.document serial).1 (s.document serial).2 = .ok (s.positions test) := by
  obtain ⟨ns, hns, hmem⟩ := eval_everywhere hlinked hd h
  rw [← hq] at hns
  have hhas : ∀ m ∈ ns, (s.document serial).1.Has m := by
    intro m hm
    obtain ⟨j, n, rfl, hn, -⟩ := passes_iff.mp ((hmem m).mp hm)
    have hlt : j < s.nodes.size := (Array.getElem?_eq_some_iff.mp hn).1
    simpa [Document.Has, Snapshot.document, Document.size] using hlt
  rw [evaluate_of_eval hns hhas, DocNode.owners,
    Ascending.ofList_lt_eq (s.positions_ascending test) fun j => ?_]
  rw [List.mem_filterMap, Snapshot.mem_positions_iff]
  constructor
  · rintro ⟨m, hm, hj⟩
    obtain ⟨i, n, rfl, hn, htest⟩ := passes_iff.mp ((hmem m).mp hm)
    cases hj
    exact ⟨n, hn, htest⟩
  · rintro ⟨n, hn, htest⟩
    exact ⟨.element j, (hmem _).mpr (passes_iff.mpr ⟨j, n, rfl, hn, htest⟩), rfl⟩

end UiTree.Query
