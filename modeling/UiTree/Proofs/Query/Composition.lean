import UiTree.Proofs.Query.NodeSets

/-!
# Paths compose

What some steps select from a set of nodes is the union of what they select from each of its nodes.
A step numbers the nodes that it lists from one node apart from those that it lists from another, so
this holds for predicates that ask for positions too. Hence steps that follow others select from
each node that those select.
-/

namespace UiTree.Query

open DocNode (Ordered)

/-- A step occurs in an expression: in one of its paths, or in a predicate of a step that does. -/
inductive Step.OccursIn (s : Step) : Expr → Prop where
  | left {op : Operator} {a b : Expr} (h : s.OccursIn a) : s.OccursIn (.binary op a b)
  | right {op : Operator} {a b : Expr} (h : s.OccursIn b) : s.OccursIn (.binary op a b)
  | part {parts : List Expr} {e : Expr} (he : e ∈ parts) (h : s.OccursIn e) :
      s.OccursIn (.union parts)
  | argument {f : Function} {arguments : List Expr} {e : Expr} (he : e ∈ arguments)
      (h : s.OccursIn e) : s.OccursIn (.call f arguments)
  | step {absolute : Bool} {steps : List Step} (h : s ∈ steps) : s.OccursIn (.path absolute steps)
  | predicate {absolute : Bool} {steps : List Step} {t : Step} {e : Expr} (ht : t ∈ steps)
      (he : e ∈ t.predicates) (h : s.OccursIn e) : s.OccursIn (.path absolute steps)

/-- A step occurs in a query that is compiled from some text. -/
def Step.Accepted (s : Step) : Prop :=
  ∃ text q, compile text = .ok q ∧ s.OccursIn q.expr

theorem Step.OccursIn.wellFormed {s : Step} {e : Expr} (h : s.OccursIn e) (he : e.WellFormed) :
    s.WellFormed := by
  induction h with
  | left _ ih =>
      cases he with
      | binary left right => exact ih left
  | right _ ih =>
      cases he with
      | binary left right => exact ih right
  | part hmem _ ih =>
      cases he with
      | union two select parts_wf => exact ih (parts_wf _ hmem)
  | argument hmem _ ih =>
      cases he with
      | call accepts counts arguments_wf => exact ih (arguments_wf _ hmem)
  | step hs =>
      cases he with
      | path start fits predicates_wf => exact ⟨fits _ hs, predicates_wf _ hs⟩
  | predicate ht hmem _ ih =>
      cases he with
      | path start fits predicates_wf => exact ih (predicates_wf _ ht _ hmem)

theorem Step.Accepted.wellFormed {s : Step} (h : s.Accepted) : s.WellFormed := by
  obtain ⟨text, q, hq, hs⟩ := h
  exact hs.wellFormed (compile_eq_ok hq).1

variable {d : Document} {s : Step} {p q steps : List Step} {as bs ns : List DocNode} {n : DocNode}

/-- Steps go on from what the steps before them have selected. -/
theorem evalSteps_append (p q : List Step) (ns : List DocNode) :
    evalSteps d (p ++ q) ns = evalSteps d p ns >>= evalSteps d q := by
  induction p generalizing ns with
  | nil => rw [List.nil_append, evalSteps, ok_bind]
  | cons s p ih =>
      rw [List.cons_append, evalSteps, evalSteps]
      cases hfound : collect (evalStep d s) ns with
      | error fault => rfl
      | ok found =>
          rw [ok_bind, ok_bind]
          exact ih (DocNode.inOrder found)

/-- The nodes that a step selects from a node. -/
def Step.selected (d : Document) (s : Step) (n : DocNode) : List DocNode :=
  (evalStep d s n).toOption.getD []

/-- The nodes that some steps select from a node, one after the other. -/
def selected (d : Document) : List Step → DocNode → List DocNode
  | [], n => [n]
  | s :: ss, n => DocNode.inOrder ((s.selected d n).flatMap (selected d ss))

theorem evalStep_eq_selected (hd : d.Closed) (hs : s.WellFormed) (hn : d.Has n) :
    evalStep d s n = .ok (s.selected d n) ∧ ∀ m ∈ s.selected d n, d.Has m := by
  obtain ⟨ms, hms, hhas⟩ := evalStep_returns hd (fun e he => (hs.2 e he).sound hd) hn
  have hselected : s.selected d n = ms := by
    rw [Step.selected, hms]
    rfl
  rw [hselected]
  exact ⟨hms, hhas⟩

/-- What steps select from a set of nodes is the union of what they select from each of them. -/
theorem evalSteps_eq_selected (hd : d.Closed) (h : ∀ s ∈ steps, s.WellFormed)
    (hns : ∀ n ∈ ns, d.Has n) (hordered : Ordered ns) :
    evalSteps d steps ns = .ok (DocNode.inOrder (ns.flatMap (selected d steps))) := by
  induction steps generalizing ns with
  | nil =>
      have hsame : ns.flatMap (selected d []) = ns := List.flatMap_singleton' ns
      rw [evalSteps, hsame, hordered.inOrder_eq]
  | cons s ss ih =>
      obtain ⟨hs, hss⟩ := List.forall_mem_cons.mp h
      have hcollect : collect (evalStep d s) ns = .ok (ns.flatMap (s.selected d)) :=
        collect_eq_flatMap fun n hn => (evalStep_eq_selected hd hs (hns n hn)).1
      have hfound : ∀ m ∈ DocNode.inOrder (ns.flatMap (s.selected d)), d.Has m := by
        intro m hm
        obtain ⟨n, hn, hm⟩ := List.mem_flatMap.mp (DocNode.mem_inOrder.mp hm)
        exact (evalStep_eq_selected hd hs (hns n hn)).2 m hm
      rw [evalSteps, hcollect, ok_bind, ih hss hfound (DocNode.inOrder_ordered _)]
      refine congrArg _ (DocNode.inOrder_congr fun k => ?_)
      simp only [selected, List.mem_flatMap, DocNode.mem_inOrder]
      constructor
      · rintro ⟨m, ⟨n, hn, hm⟩, hk⟩
        exact ⟨n, hn, m, hm, hk⟩
      · rintro ⟨n, hn, m, hm, hk⟩
        exact ⟨m, ⟨n, hn, hm⟩, hk⟩

theorem evalSteps_singleton (hd : d.Closed) (h : ∀ s ∈ steps, s.WellFormed) (hn : d.Has n) :
    evalSteps d steps [n] = .ok (selected d steps n) := by
  rw [evalSteps_eq_selected hd h (List.forall_mem_singleton.mpr hn) (ordered_singleton n),
    List.flatMap_singleton]
  cases steps with
  | nil => exact congrArg _ (ordered_singleton n).inOrder_eq
  | cons s ss => exact congrArg _ (DocNode.inOrder_ordered _).inOrder_eq

theorem selected_has (hd : d.Closed) (h : ∀ s ∈ steps, s.WellFormed) (hn : d.Has n) :
    ∀ m ∈ selected d steps n, d.Has m := by
  have hpredicates : ∀ s ∈ steps, ∀ e ∈ s.predicates, e.Sound d :=
    fun s hs e he => ((h s hs).2 e he).sound hd
  obtain ⟨ms, hms, hhas⟩ := evalSteps_returns hd hpredicates (List.forall_mem_singleton.mpr hn)
  rw [evalSteps_singleton hd h hn] at hms
  cases hms
  exact hhas

theorem selected_ordered (hd : d.Closed) (h : ∀ s ∈ steps, s.WellFormed) (hn : d.Has n) :
    Ordered (selected d steps n) :=
  evalSteps_ordered (evalSteps_singleton hd h hn) (ordered_singleton n)

/-- The value of a path is what its steps select from the root, or from the node of the context. -/
theorem eval_path (hd : d.Closed) (h : ∀ s ∈ steps, s.WellFormed) (absolute : Bool) {c : Context}
    (hc : d.Has c.node) :
    eval d (.path absolute steps) c =
      .ok (.nodes (selected d steps (if absolute then .root else c.node))) := by
  have hstart : d.Has (if absolute then .root else c.node) := by
    cases absolute with
    | false => exact hc
    | true => exact trivial
  rw [eval, evalSteps_singleton hd h hstart]
  rfl

/-- The value of a relative path is what its steps select from the node of the context. -/
theorem eval_relative (hd : d.Closed) (h : ∀ s ∈ steps, s.WellFormed) {c : Context}
    (hc : d.Has c.node) :
    eval d (.path false steps) c = .ok (.nodes (selected d steps c.node)) :=
  eval_path hd h false hc

/-- Steps that follow others select from a node, in document order and each node once, what they
select from the nodes that the others select from it. -/
theorem selected_append (hd : d.Closed) (hp : ∀ s ∈ p, s.WellFormed) (hq : ∀ s ∈ q, s.WellFormed)
    (hn : d.Has n) :
    selected d (p ++ q) n = DocNode.inOrder ((selected d p n).flatMap (selected d q)) := by
  have hboth : ∀ s ∈ p ++ q, s.WellFormed := List.forall_mem_append.mpr ⟨hp, hq⟩
  have heval := evalSteps_singleton hd hboth hn
  rw [evalSteps_append, evalSteps_singleton hd hp hn, ok_bind,
    evalSteps_eq_selected hd hq (selected_has hd hp hn) (selected_ordered hd hp hn)] at heval
  exact (Except.ok.inj heval).symm

theorem mem_selected_append (hd : d.Closed) (hp : ∀ s ∈ p, s.WellFormed)
    (hq : ∀ s ∈ q, s.WellFormed) (hn : d.Has n) {k : DocNode} :
    k ∈ selected d (p ++ q) n ↔ ∃ m ∈ selected d p n, k ∈ selected d q m := by
  rw [selected_append hd hp hq hn, DocNode.mem_inOrder, List.mem_flatMap]

theorem mem_selected_singleton {k : DocNode} : k ∈ selected d [s] n ↔ k ∈ s.selected d n := by
  simp only [selected, DocNode.mem_inOrder, List.flatMap_singleton']

/-- A step selects from a union of two sets what it selects from either of them, and from a set what
it selects from each node by itself. -/
theorem exists_evalSteps_union (hd : d.Closed) (hs : s.WellFormed) (has : ∀ n ∈ as, d.Has n)
    (hbs : ∀ n ∈ bs, d.Has n) :
    ∃ ms ms' both, evalSteps d [s] as = .ok ms ∧ evalSteps d [s] bs = .ok ms' ∧
      evalSteps d [s] (DocNode.inOrder (as ++ bs)) = .ok both ∧ Ordered both ∧
        (∀ k, k ∈ ms ↔ ∃ n ∈ as, k ∈ s.selected d n) ∧ ∀ k, k ∈ both ↔ k ∈ ms ∨ k ∈ ms' := by
  have hsingle {ns : List DocNode} (hns : ∀ n ∈ ns, d.Has n) :
      evalSteps d [s] ns = .ok (DocNode.inOrder (ns.flatMap (s.selected d))) := by
    rw [evalSteps, collect_eq_flatMap fun n hn => (evalStep_eq_selected hd hs (hns n hn)).1]
    rfl
  have hboth : ∀ n ∈ DocNode.inOrder (as ++ bs), d.Has n := by
    intro n hn
    exact (List.mem_append.mp (DocNode.mem_inOrder.mp hn)).elim (has n) (hbs n)
  refine ⟨_, _, _, hsingle has, hsingle hbs, hsingle hboth, DocNode.inOrder_ordered _, ?_, ?_⟩
  · intro k
    rw [DocNode.mem_inOrder, List.mem_flatMap]
  · intro k
    simp only [DocNode.mem_inOrder, List.mem_flatMap, List.mem_append, or_and_right, exists_or]

/-- In the document of a capture, steps of accepted queries that follow others select from a node
exactly what they select from the nodes that those select from it, in document order and each node
once. Each of them selects from a union of two sets what it selects from either, and from a set what
it selects from each node, by itself, whose place it counts from. -/
theorem eval_path_append (hp : ∀ s ∈ p, s.Accepted) (hq : ∀ s ∈ q, s.Accepted)
    (request : CaptureRequest) (raw : RawNode) (time serial : Nat) {c : Context}
    (hc : ((request.snapshot time raw).document serial).1.Has c.node) :
    let d := ((request.snapshot time raw).document serial).1
    (∃ ms ns, ∃ found : DocNode → List DocNode,
      eval d (.path false p) c = .ok (.nodes ms) ∧
        (∀ m ∈ ms, ∀ position size,
          eval d (.path false q) ⟨m, position, size⟩ = .ok (.nodes (found m))) ∧
          eval d (.path false (p ++ q)) c = .ok (.nodes ns) ∧ Ordered ns ∧
            ∀ k, k ∈ ns ↔ ∃ m ∈ ms, k ∈ found m) ∧
    ∀ s ∈ p ++ q, ∃ found : DocNode → List DocNode,
      (∀ n, d.Has n → evalStep d s n = .ok (found n)) ∧
        ∀ as bs, (∀ n ∈ as, d.Has n) → (∀ n ∈ bs, d.Has n) →
          ∃ ms ms' both, evalSteps d [s] as = .ok ms ∧ evalSteps d [s] bs = .ok ms' ∧
            evalSteps d [s] (DocNode.inOrder (as ++ bs)) = .ok both ∧ Ordered both ∧
              (∀ k, k ∈ ms ↔ ∃ n ∈ as, k ∈ found n) ∧ ∀ k, k ∈ both ↔ k ∈ ms ∨ k ∈ ms' := by
  intro d
  have hd : d.Closed := snapshot_document_closed request raw time serial
  have hfirst : ∀ s ∈ p, s.WellFormed := fun s hs => (hp s hs).wellFormed
  have hsecond : ∀ s ∈ q, s.WellFormed := fun s hs => (hq s hs).wellFormed
  have hboth : ∀ s ∈ p ++ q, s.WellFormed := List.forall_mem_append.mpr ⟨hfirst, hsecond⟩
  refine ⟨⟨selected d p c.node, selected d (p ++ q) c.node, selected d q,
    eval_relative hd hfirst hc, ?_, eval_relative hd hboth hc, ?_, ?_⟩, ?_⟩
  · intro m hm position size
    exact eval_relative hd hsecond (selected_has hd hfirst hc m hm)
  · rw [selected_append hd hfirst hsecond hc]
    exact DocNode.inOrder_ordered _
  · intro k
    rw [selected_append hd hfirst hsecond hc, DocNode.mem_inOrder, List.mem_flatMap]
  · intro s hs
    refine ⟨s.selected d, fun n hn => (evalStep_eq_selected hd (hboth s hs) hn).1, ?_⟩
    exact fun as bs has hbs => exists_evalSteps_union hd (hboth s hs) has hbs

/-- Siblings that follow are numbered anew from each child of the window. -/
theorem eval_path_append_window :
    let d := ((CaptureRequest.snapshot {} 0 window).document 0).1
    d.Has (.element 0) ∧ ∃ q children next, ∃ found : DocNode → List DocNode, ∃ ms ns,
      compile "*/following-sibling::*[position()]" = .ok q ∧
      q.expr = .path false [children, next] ∧
      eval d (.path false [children]) ⟨.element 0, 1, 1⟩ = .ok (.nodes ms) ∧
      (∀ m ∈ ms, ∀ position size,
        eval d (.path false [next]) ⟨m, position, size⟩ = .ok (.nodes (found m))) ∧
      eval d (.path false [children, next]) ⟨.element 0, 1, 1⟩ = .ok (.nodes ns) ∧
      Ordered ns ∧ ∀ k, k ∈ ns ↔ ∃ m ∈ ms, k ∈ found m := by
  intro d
  obtain ⟨q, absolute, steps, hq, hexpr, hshape⟩ := exists_path_of_compile
    (p := fun absolute steps => !absolute && steps.length == 2)
    (by decide +kernel : (compile "*/following-sibling::*[position()]").toOption.any _ = true)
  simp only [Bool.and_eq_true, Bool.not_eq_true', beq_iff_eq] at hshape
  obtain ⟨rfl, htwo⟩ := hshape
  obtain ⟨children, next, rfl⟩ := List.length_eq_two.mp htwo
  have hchildren : children.Accepted := ⟨_, q, hq, hexpr ▸ .step (by simp)⟩
  have hnext : next.Accepted := ⟨_, q, hq, hexpr ▸ .step (by simp)⟩
  have hsize : 0 < d.size := by decide +kernel
  have hc : d.Has (.element 0) := hsize
  obtain ⟨ms, ns, found, hfound⟩ := (eval_path_append (List.forall_mem_singleton.mpr hchildren)
    (List.forall_mem_singleton.mpr hnext) {} window 0 0 (c := ⟨.element 0, 1, 1⟩) hc).1
  exact ⟨hc, q, children, next, found, ms, ns, hq, hexpr, hfound⟩

end UiTree.Query
