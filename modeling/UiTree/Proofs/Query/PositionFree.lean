import UiTree.Proofs.Query.Composition

/-!
# Predicates that do not ask for positions

An expression that calls `position` and `last` only in predicates of inner paths has the same value
wherever its node stands among the nodes that it was listed with. A predicate of this kind, unless
its value is a number, selects the nodes that pass it one by one, so a step with such predicates
lists the nodes of its axis that pass its test and all of them.
-/

namespace UiTree.Query

/-- The position and the size of the context do not matter: `position` and `last` are called at most
in the predicates of inner paths. -/
inductive Expr.PositionFree : Expr → Prop where
  | binary {op : Operator} {a b : Expr} (left : a.PositionFree) (right : b.PositionFree) :
      PositionFree (.binary op a b)
  | union {parts : List Expr} (parts_free : ∀ e ∈ parts, e.PositionFree) :
      PositionFree (.union parts)
  | path {absolute : Bool} {steps : List Step} : PositionFree (.path absolute steps)
  | literal {text : String} : PositionFree (.literal text)
  | number {value : Float} : PositionFree (.number value)
  | call {f : Function} {arguments : List Expr} (position : f ≠ .position) (last : f ≠ .last)
      (arguments_free : ∀ e ∈ arguments, e.PositionFree) : PositionFree (.call f arguments)

variable {d : Document} {e : Expr} {c c' : Context} {n k : DocNode} {ns : List DocNode}

theorem evalParts_congr {parts : List Expr} (h : ∀ e ∈ parts, eval d e c = eval d e c') :
    evalParts d parts c = evalParts d parts c' := by
  induction parts with
  | nil => rw [evalParts, evalParts]
  | cons e es ih =>
      obtain ⟨he, hes⟩ := List.forall_mem_cons.mp h
      rw [evalParts, evalParts, he, ih hes]

theorem evalAll_congr {arguments : List Expr} (h : ∀ e ∈ arguments, eval d e c = eval d e c') :
    evalAll d arguments c = evalAll d arguments c' := by
  induction arguments with
  | nil => rw [evalAll, evalAll]
  | cons e es ih =>
      obtain ⟨he, hes⟩ := List.forall_mem_cons.mp h
      rw [evalAll, evalAll, he, ih hes]

theorem applyFunction_congr {f : Function} (hposition : f ≠ .position) (hlast : f ≠ .last)
    (hnode : c.node = c'.node) (vs : List Value) :
    applyFunction d f vs c = applyFunction d f vs c' := by
  cases f with
  | position => exact absurd rfl hposition
  | last => exact absurd rfl hlast
  | stringLength => simp only [applyFunction, hnode]
  | not | contains | startsWith | count => rfl

/-- Without `position` and `last` only the node of the context matters. -/
theorem Expr.PositionFree.eval_eq (h : e.PositionFree) (hnode : c.node = c'.node) :
    eval d e c = eval d e c' := by
  induction h with
  | binary _ _ iha ihb => cases ‹Operator› <;> simp only [eval, iha, ihb]
  | union _ ih => rw [eval, eval, evalParts_congr ih]
  | path => rw [eval, eval, hnode]
  | literal => rw [eval, eval]
  | number => rw [eval, eval]
  | call hposition hlast _ ih =>
      simp only [eval, evalAll_congr ih, applyFunction_congr hposition hlast hnode]

/-- A predicate that does not ask for the position of a node: it calls neither `position` nor `last`
outside of inner paths, and its value is not a number. -/
structure Expr.Positionless (e : Expr) : Prop where
  free : e.PositionFree
  noNumber : e.kind ≠ .number

/-- A predicate that does not observe, in a document, where a node stands among others: its value at
the node is the same wherever this is, and it is not a number. -/
structure Expr.Steady (d : Document) (e : Expr) : Prop where
  same : ∀ n, d.Has n → ∀ position size position' size',
    eval d e ⟨n, position, size⟩ = eval d e ⟨n, position', size'⟩
  noNumber : ∀ c, d.Has c.node → ∀ x, eval d e c ≠ .ok (.number x)

theorem Expr.Positionless.steady (h : e.Positionless) (d : Document) : e.Steady d := by
  refine ⟨fun n _ _ _ _ _ => h.free.eval_eq rfl, fun c _ x hx => ?_⟩
  exact h.noNumber (kind_of_eval hx).symm

/-- Whether a predicate holds at a node. -/
def Expr.holds (d : Document) (e : Expr) (n : DocNode) : Bool :=
  (eval d e ⟨n, 1, 1⟩).toOption.any Value.toTruth

theorem holdsAt_eq_toTruth {v : Value} (h : ∀ x, v ≠ .number x) (position : Nat) :
    v.holdsAt position = v.toTruth := by
  cases v with
  | number x => exact absurd rfl (h x)
  | nodes | text | truth => rfl

theorem Expr.Steady.keep_eq (he : e.Steady d) (hsound : e.Sound d) (hns : ∀ n ∈ ns, d.Has n) :
    keep (eval d e) ns.length 0 ns = .ok (ns.filter (e.holds d)) := by
  refine keep_eq_filter ns.length 0 fun m hm position => ?_
  obtain ⟨v, hv, -⟩ := hsound ⟨m, 1, 1⟩ (hns m hm)
  refine ⟨v, (he.same m (hns m hm) _ _ _ _).trans hv, ?_⟩
  have hnumber (x : Float) : v ≠ .number x := by
    rintro rfl
    exact he.noNumber ⟨m, 1, 1⟩ (hns m hm) x hv
  rw [holdsAt_eq_toTruth hnumber, Expr.holds, hv]
  rfl

theorem evalPredicates_eq_filter {predicates : List Expr}
    (h : ∀ e ∈ predicates, e.Steady d ∧ e.Sound d) (hns : ∀ n ∈ ns, d.Has n) :
    evalPredicates d predicates ns =
      .ok (ns.filter fun n => predicates.all fun e => e.holds d n) := by
  induction predicates generalizing ns with
  | nil => simp [evalPredicates]
  | cons e es ih =>
      obtain ⟨⟨he, hsound⟩, hes⟩ := List.forall_mem_cons.mp h
      have hkept : ∀ n ∈ ns.filter (e.holds d), d.Has n :=
        fun n hn => hns n (List.mem_of_mem_filter hn)
      rw [evalPredicates, he.keep_eq hsound hns, ok_bind, ih hes hkept, List.filter_filter]
      simp only [List.all_cons, Bool.and_comm]

/-- A step selects the nodes of its axis that pass its test and all its predicates, if these do not
ask for positions. -/
theorem mem_selected_iff (hd : d.Closed) {axis : Axis} {test : NodeTest} {predicates : List Expr}
    (h : ∀ e ∈ predicates, e.Positionless ∧ e.WellFormed) (hn : d.Has n) :
    k ∈ (Step.mk axis test predicates).selected d n ↔
      k ∈ d.along axis n ∧ d.passes axis test k = true ∧ ∀ e ∈ predicates, e.holds d k = true := by
  have hsteady : ∀ e ∈ predicates, e.Steady d ∧ e.Sound d :=
    fun e he => ⟨(h e he).1.steady d, (h e he).2.sound hd⟩
  have hlisted : ∀ m ∈ (d.along axis n).filter (d.passes axis test), d.Has m :=
    fun m hm => Document.along_has hd axis hn m (List.mem_of_mem_filter hm)
  have hselected : (Step.mk axis test predicates).selected d n =
      ((d.along axis n).filter (d.passes axis test)).filter
        fun m => predicates.all fun e => e.holds d m := by
    rw [Step.selected, evalStep, evalPredicates_eq_filter hsteady hlisted]
    rfl
  rw [hselected, List.mem_filter, List.mem_filter, List.all_eq_true, and_assoc]

/-- A step with a test that every node passes selects the nodes of its axis. -/
theorem mem_selected_bare (axis : Axis) :
    k ∈ (Step.mk axis .anyNode []).selected d n ↔ k ∈ d.along axis n := by
  have hselected : (Step.mk axis .anyNode []).selected d n =
      (d.along axis n).filter (d.passes axis .anyNode) := by
    rw [Step.selected, evalStep, evalPredicates]
    rfl
  have hpasses : d.passes axis .anyNode k = true := by
    simp only [Document.passes]
  rw [hselected, List.mem_filter]
  exact and_iff_left hpasses

end UiTree.Query
