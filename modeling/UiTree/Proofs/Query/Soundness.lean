import Mathlib.Data.List.Forall2
import UiTree.Query.Evaluation
import UiTree.Proofs.Query.WellFormed
import UiTree.Proofs.Document.Preorder

/-!
# Evaluation of well-formed expressions

A well-formed expression has a value at every node of a closed document: every axis stays inside
the document, an expression that selects nodes has a set of nodes for its value, and no argument of
a call is missing. A compiled query therefore never stops with a fault on the document of a capture
and its index.
-/

namespace UiTree.Document

open Query (Axis DocNode)

/-- A node belongs to the document. -/
def Has (d : Document) : DocNode → Prop
  | .root => True
  | .element i => i < d.size
  | .attributeAt i k => i < d.size ∧ k < (d.attributesOf i).length

variable {d : Document}

theorem has_root (d : Document) : d.Has .root :=
  trivial

theorem lt_size_of_owner? {n : DocNode} {i : Nat} (hn : d.Has n) (hi : n.owner? = some i) :
    i < d.size := by
  cases n with
  | root => cases hi
  | element j =>
      cases hi
      exact hn
  | attributeAt j k =>
      cases hi
      exact hn.1

theorem walk_lt (hd : d.Closed) (steps : Nat) {stack : List Nat}
    (hstack : ∀ c ∈ stack, c < d.size) : ∀ c ∈ d.walk steps stack, c < d.size := by
  induction steps generalizing stack with
  | zero => simp [walk]
  | succ steps ih =>
      cases stack with
      | nil => simp [walk]
      | cons i stack =>
          rw [walk, List.forall_mem_cons]
          obtain ⟨hi, hstack⟩ := List.forall_mem_cons.mp hstack
          exact ⟨hi, ih (List.forall_mem_append.mpr ⟨hd.child i, hstack⟩)⟩

theorem ancestorsWithin_lt (hd : d.Closed) (levels i : Nat) :
    ∀ p ∈ d.ancestorsWithin levels i, p < d.size := by
  induction levels generalizing i with
  | zero => simp [ancestorsWithin]
  | succ levels ih =>
      rw [ancestorsWithin]
      split
      · next p hp => simpa using ⟨hd.up i p hp, ih p⟩
      · simp

theorem siblingsOf_lt (hd : d.Closed) {i : Nat} (hi : i < d.size) :
    ∀ s ∈ d.siblingsOf i, s < d.size := by
  rw [siblingsOf]
  split
  · next p hp => exact hd.child p
  · simpa using hi

theorem has_map_element {is : List Nat} (h : ∀ i ∈ is, i < d.size) :
    ∀ m ∈ is.map DocNode.element, d.Has m := by
  simpa [Has] using h

theorem parentNode_has (hd : d.Closed) (i : Nat) : d.Has (d.parentNode i) := by
  rw [parentNode]
  split
  · next p hp => exact hd.up i p hp
  · trivial

theorem ancestorNodes_has (hd : d.Closed) (i : Nat) : ∀ m ∈ d.ancestorNodes i, d.Has m := by
  intro m hm
  rcases List.mem_append.mp hm with hm | hm
  · exact has_map_element (d.ancestorsWithin_lt hd d.size i) m hm
  · exact List.mem_singleton.mp hm ▸ trivial

/-- No axis leaves the document. -/
theorem along_has (hd : d.Closed) (axis : Axis) {n : DocNode} (hn : d.Has n) :
    ∀ m ∈ d.along axis n, d.Has m := by
  have hrange : ∀ m ∈ (List.range d.size).map DocNode.element, d.Has m :=
    has_map_element (by simp)
  have hdescendants (i : Nat) : ∀ m ∈ (d.descendantsOf i).map DocNode.element, d.Has m :=
    has_map_element (walk_lt hd d.size (hd.child i))
  have hcons {m : DocNode} {ms : List DocNode} (hm : d.Has m) (hms : ∀ m ∈ ms, d.Has m) :
      ∀ m' ∈ m :: ms, d.Has m' := by
    simpa using ⟨hm, hms⟩
  unfold along
  split
  · exact hcons hn (by simp)
  · split
    · simp
    · next hsize => exact hcons (Nat.pos_of_ne_zero hsize) (by simp)
  · next i => exact has_map_element (hd.child i)
  · exact hrange
  · next i => exact hdescendants i
  · exact hcons trivial hrange
  · next i => exact hcons hn (hdescendants i)
  · next i => exact hcons (parentNode_has hd i) (by simp)
  · exact hcons hn.1 (by simp)
  · next i => exact ancestorNodes_has hd i
  · next i k => exact hcons hn.1 (ancestorNodes_has hd i)
  · exact hcons trivial (by simp)
  · next i => exact hcons hn (ancestorNodes_has hd i)
  · next i k => exact hcons hn (hcons hn.1 (ancestorNodes_has hd i))
  · next i =>
    apply has_map_element
    intro s hs
    exact siblingsOf_lt hd hn s ((List.dropWhile_sublist _).mem (List.mem_of_mem_drop hs))
  · next i =>
    intro m hm
    refine has_map_element ?_ m (List.mem_reverse.mp hm)
    intro s hs
    exact siblingsOf_lt hd hn s ((List.takeWhile_sublist _).mem hs)
  · next i =>
    intro m hm
    obtain ⟨k, hk, rfl⟩ := List.mem_map.mp hm
    exact ⟨hn, List.mem_range.mp hk⟩
  · simp

end UiTree.Document

namespace UiTree.Query

variable {d : Document}

/-- The nodes of a set belong to the document. -/
def Value.Within (d : Document) : Value → Prop
  | .nodes ns => ∀ n ∈ ns, d.Has n
  | .text _ | .number _ | .truth _ => True

/-- A value that an expression may have: its nodes belong to the document, and it is a set of nodes
if the expression selects nodes. -/
structure Value.Fits (d : Document) (e : Expr) (v : Value) : Prop where
  within : v.Within d
  nodes : e.selectsNodes = true → ∃ ns, v = .nodes ns

/-- The expression has a fitting value at every node of the document. -/
def Expr.Sound (d : Document) (e : Expr) : Prop :=
  ∀ c, d.Has c.node → Returns (eval d e c) (Value.Fits d e)

/-- Any operator but the connectives compares the values of its operands. -/
theorem eval_comparison {op : Operator} (hor : op ≠ .or) (hand : op ≠ .and) (a b : Expr)
    (c : Context) :
    eval d (.binary op a b) c =
      (do
        let left ← eval d a c
        let right ← eval d b c
        .ok (.truth (Value.compare d op left right))) := by
  rw [eval]
  · exact hor
  · exact hand

/-- The kinds of values. -/
inductive Kind where
  | nodes | text | number | truth
deriving DecidableEq, Repr

/-- The kind of a value. -/
def Value.kind : Value → Kind
  | .nodes _ => .nodes
  | .text _ => .text
  | .number _ => .number
  | .truth _ => .truth

/-- The kind of the values of a function. -/
def Function.kind : Function → Kind
  | .position | .last | .count | .stringLength => .number
  | .not | .contains | .startsWith => .truth

/-- The kind of the values of an expression. -/
def Expr.kind : Expr → Kind
  | .binary _ _ _ => .truth
  | .union _ | .path _ _ => .nodes
  | .literal _ => .text
  | .number _ => .number
  | .call f _ => f.kind

theorem kind_of_applyFunction {f : Function} {vs : List Value} {c : Context} {v : Value}
    (h : applyFunction d f vs c = .ok v) : v.kind = f.kind := by
  cases f with
  | position | last =>
      cases h
      rfl
  | not =>
      obtain ⟨_, -, h⟩ := bind_eq_ok.mp h
      cases h
      rfl
  | contains | startsWith | count =>
      obtain ⟨_, -, h⟩ := bind_eq_ok.mp h
      obtain ⟨_, -, h⟩ := bind_eq_ok.mp h
      cases h
      rfl
  | stringLength =>
      rw [applyFunction] at h
      split at h
      · cases h
        rfl
      · obtain ⟨_, -, h⟩ := bind_eq_ok.mp h
        cases h
        rfl

/-- The kind of the value is known from the expression. -/
theorem kind_of_eval {e : Expr} {c : Context} {v : Value} (h : eval d e c = .ok v) :
    v.kind = e.kind := by
  cases e with
  | binary op a b =>
      by_cases hor : op = .or
      · subst hor
        rw [eval] at h
        obtain ⟨_, -, h⟩ := bind_eq_ok.mp h
        split at h
        · cases h
          rfl
        · obtain ⟨_, -, h⟩ := bind_eq_ok.mp h
          cases h
          rfl
      by_cases hand : op = .and
      · subst hand
        rw [eval] at h
        obtain ⟨_, -, h⟩ := bind_eq_ok.mp h
        split at h
        · obtain ⟨_, -, h⟩ := bind_eq_ok.mp h
          cases h
          rfl
        · cases h
          rfl
      · rw [eval_comparison hor hand] at h
        obtain ⟨_, -, h⟩ := bind_eq_ok.mp h
        obtain ⟨_, -, h⟩ := bind_eq_ok.mp h
        cases h
        rfl
  | union | path =>
      rw [eval] at h
      obtain ⟨_, -, h⟩ := bind_eq_ok.mp h
      cases h
      rfl
  | literal | number =>
      rw [eval] at h
      cases h
      rfl
  | call f arguments =>
      rw [eval] at h
      obtain ⟨_, -, h⟩ := bind_eq_ok.mp h
      exact kind_of_applyFunction h

theorem Value.fits_of_truth (op : Operator) (a b : Expr) (x : Bool) :
    Value.Fits d (.binary op a b) (.truth x) :=
  ⟨trivial, by simp [Expr.selectsNodes]⟩

theorem Value.nodesOr_returns {e : Expr} {v : Value} (hv : v.Fits d e)
    (he : e.selectsNodes = true) (fault : EvaluationFault) :
    Returns (v.nodesOr fault) fun ns => ∀ n ∈ ns, d.Has n := by
  obtain ⟨ns, rfl⟩ := hv.nodes he
  exact .ok hv.within

theorem keep_returns {predicate : Context → Evaluated Value} {P : Value → Prop} (size : Nat)
    {ns : List DocNode} (hns : ∀ n ∈ ns, d.Has n)
    (h : ∀ c, d.Has c.node → Returns (predicate c) P) (before : Nat) :
    Returns (keep predicate size before ns) fun kept => kept.Sublist ns := by
  induction ns generalizing before with
  | nil => exact .ok (.refl [])
  | cons n rest ih =>
      obtain ⟨hn, hrest⟩ := List.forall_mem_cons.mp hns
      apply (h ⟨n, before + 1, size⟩ hn).bind
      intro v _
      refine (ih hrest (before + 1)).bind fun kept hkept => .ok ?_
      split
      · exact hkept.cons_cons n
      · exact hkept.cons n

theorem collect_returns {select : DocNode → Evaluated (List DocNode)} {ns : List DocNode}
    (hns : ∀ n ∈ ns, d.Has n)
    (h : ∀ n, d.Has n → Returns (select n) fun ms => ∀ m ∈ ms, d.Has m) :
    Returns (collect select ns) fun ms => ∀ m ∈ ms, d.Has m := by
  induction ns with
  | nil => exact .ok (by simp)
  | cons n rest ih =>
      obtain ⟨hn, hrest⟩ := List.forall_mem_cons.mp hns
      apply (h n hn).bind
      intro found hfound
      refine (ih hrest).bind fun more hmore => .ok ?_
      exact List.forall_mem_append.mpr ⟨hfound, hmore⟩

theorem evalPredicates_returns {predicates : List Expr} (h : ∀ p ∈ predicates, p.Sound d)
    {ns : List DocNode} (hns : ∀ n ∈ ns, d.Has n) :
    Returns (evalPredicates d predicates ns) fun kept => kept.Sublist ns := by
  induction predicates generalizing ns with
  | nil => exact .ok (.refl ns)
  | cons p ps ih =>
      obtain ⟨hp, hps⟩ := List.forall_mem_cons.mp h
      apply (keep_returns ns.length hns hp 0).bind
      intro kept hkept
      refine (ih hps fun n hn => hns n (hkept.mem hn)).mono fun left hleft => ?_
      exact hleft.trans hkept

theorem evalStep_returns (hd : d.Closed) {s : Step} (h : ∀ p ∈ s.predicates, p.Sound d)
    {n : DocNode} (hn : d.Has n) :
    Returns (evalStep d s n) fun ms => ∀ m ∈ ms, d.Has m := by
  obtain ⟨axis, test, predicates⟩ := s
  have hfiltered : ∀ m ∈ (d.along axis n).filter (d.passes axis test), d.Has m :=
    fun m hm => Document.along_has hd axis hn m (List.mem_filter.mp hm).1
  rw [evalStep]
  apply (evalPredicates_returns h hfiltered).mono
  intro kept hkept m hm
  exact hfiltered m (hkept.mem hm)

theorem evalSteps_returns (hd : d.Closed) {steps : List Step}
    (h : ∀ s ∈ steps, ∀ p ∈ s.predicates, p.Sound d) {ns : List DocNode}
    (hns : ∀ n ∈ ns, d.Has n) :
    Returns (evalSteps d steps ns) fun ms => ∀ m ∈ ms, d.Has m := by
  induction steps generalizing ns with
  | nil => exact .ok hns
  | cons s ss ih =>
      obtain ⟨hs, hss⟩ := List.forall_mem_cons.mp h
      rw [evalSteps]
      refine (collect_returns hns fun n hn => evalStep_returns hd hs hn).bind fun found hfound => ?_
      exact ih hss (by simpa using hfound)

theorem evalParts_returns {parts : List Expr} (h : ∀ e ∈ parts, e.Sound d)
    (hselect : ∀ e ∈ parts, e.selectsNodes = true) {c : Context} (hc : d.Has c.node) :
    Returns (evalParts d parts c) fun ms => ∀ m ∈ ms, d.Has m := by
  induction parts with
  | nil => exact .ok (by simp)
  | cons e es ih =>
      obtain ⟨he, hes⟩ := List.forall_mem_cons.mp h
      obtain ⟨hselect, hselects⟩ := List.forall_mem_cons.mp hselect
      rw [evalParts]
      apply (he c hc).bind
      intro v hv
      apply (Value.nodesOr_returns hv hselect _).bind
      intro found hfound
      refine (ih hes hselects).bind fun more hmore => .ok ?_
      exact List.forall_mem_append.mpr ⟨hfound, hmore⟩

theorem evalAll_returns {arguments : List Expr} (h : ∀ e ∈ arguments, e.Sound d) {c : Context}
    (hc : d.Has c.node) :
    Returns (evalAll d arguments c) fun vs => List.Forall₂ (Value.Fits d) arguments vs := by
  induction arguments with
  | nil => exact .ok .nil
  | cons e es ih =>
      obtain ⟨he, hes⟩ := List.forall_mem_cons.mp h
      rw [evalAll]
      apply (he c hc).bind
      intro v hv
      exact (ih hes).bind fun vs hvs => .ok (.cons hv hvs)

/-- A call with as many arguments as its function takes misses none of them. -/
theorem applyFunction_returns {f : Function} {arguments : List Expr} {vs : List Value}
    (haccepts : f.accepts arguments.length = true)
    (hcounts : f = .count → ∀ e ∈ arguments, e.selectsNodes = true)
    (hvs : List.Forall₂ (Value.Fits d) arguments vs) (c : Context) :
    Returns (applyFunction d f vs c) (Value.Fits d (.call f arguments)) := by
  have hfits (v : Value) (h : v.Within d) : v.Fits d (.call f arguments) :=
    ⟨h, by simp [Expr.selectsNodes]⟩
  have hlength := hvs.length_eq
  have hargument (i : Nat) (hi : i < vs.length) :
      Returns (argument f vs i) fun v => vs[i]? = some v := by
    rw [argument, List.getElem?_eq_getElem hi]
    exact .ok rfl
  cases f with
  | position | last => exact .ok (hfits _ trivial)
  | not =>
      have hone : arguments.length = 1 := by simpa [Function.accepts] using haccepts
      exact (hargument 0 (by omega)).bind fun v _ => .ok (hfits _ trivial)
  | contains | startsWith =>
      have htwo : arguments.length = 2 := by simpa [Function.accepts] using haccepts
      apply (hargument 0 (by omega)).bind
      intro v _
      exact (hargument 1 (by omega)).bind fun w _ => .ok (hfits _ trivial)
  | count =>
      match arguments, vs, hvs, haccepts with
      | [e], [v], .cons hv .nil, _ =>
        have hselects := hcounts rfl e (by simp)
        refine (Returns.ok rfl : Returns (argument .count [v] 0) (· = v)).bind ?_
        rintro _ rfl
        apply (Value.nodesOr_returns hv hselects _).bind
        intro ns _
        exact .ok (hfits _ trivial)
  | stringLength =>
      rw [applyFunction]
      split
      · exact .ok (hfits _ trivial)
      · next hne =>
        have hpos : 0 < vs.length := List.length_pos_iff.mpr (by simpa using hne)
        obtain ⟨v, hv, -⟩ := hargument 0 hpos
        rw [hv]
        exact .ok (hfits _ trivial)

/-- An expression that a parser accepts has a fitting value everywhere in a closed document. -/
theorem Expr.WellFormed.sound (hd : d.Closed) {e : Expr} (h : e.WellFormed) : e.Sound d := by
  induction h with
  | @binary op a b _ _ iha ihb =>
      intro c hc
      by_cases hor : op = .or
      · subst hor
        rw [eval]
        apply (iha c hc).bind
        intro v _
        split
        · exact .ok (Value.fits_of_truth ..)
        · exact (ihb c hc).bind fun w _ => .ok (Value.fits_of_truth ..)
      by_cases hand : op = .and
      · subst hand
        rw [eval]
        apply (iha c hc).bind
        intro v _
        split
        · exact (ihb c hc).bind fun w _ => .ok (Value.fits_of_truth ..)
        · exact .ok (Value.fits_of_truth ..)
      · rw [eval_comparison hor hand]
        apply (iha c hc).bind
        intro v _
        exact (ihb c hc).bind fun w _ => .ok (Value.fits_of_truth ..)
  | union _ hselect _ ih =>
      intro c hc
      rw [eval]
      refine (evalParts_returns ih hselect hc).bind fun ns hns => .ok ⟨?_, fun _ => ⟨_, rfl⟩⟩
      simpa [Value.Within] using hns
  | @path absolute steps _ _ _ ih =>
      intro c hc
      rw [eval]
      have hstart : ∀ n ∈ [if absolute then .root else c.node], d.Has n := by
        cases absolute with
        | true => simp [Document.Has]
        | false => simpa using hc
      exact (evalSteps_returns hd ih hstart).bind fun ns hns => .ok ⟨hns, fun _ => ⟨ns, rfl⟩⟩
  | literal | number =>
      intro c hc
      rw [eval]
      exact .ok ⟨trivial, by simp [Expr.selectsNodes]⟩
  | call haccepts hcounts _ ih =>
      intro c hc
      rw [eval]
      apply (evalAll_returns ih hc).bind
      intro vs hvs
      exact applyFunction_returns haccepts hcounts hvs c

theorem separates_lt : Ascending.Separates fun p q : Nat => decide (p < q) := by
  intro p q hpq hqp
  simp only [decide_eq_false_iff_not] at hpq hqp
  omega

/-- The elements of the document of a snapshot stand at the positions of the nodes that they were
made of. -/
theorem positionsOf_eq {s : Snapshot} {serial : Nat} {ns : List DocNode}
    (hns : ∀ n ∈ ns, (s.document serial).1.Has n) :
    positionsOf (s.document serial).2 ns = .ok (ns.filterMap DocNode.owner?) := by
  induction ns with
  | nil => rfl
  | cons n rest ih =>
      obtain ⟨hn, hrest⟩ := List.forall_mem_cons.mp hns
      rw [positionsOf, List.filterMap_cons]
      cases hi : n.owner? with
      | none => exact ih hrest
      | some i =>
          have hnode : (s.document serial).2.node? i = some i := by
            have hlt : i < s.nodes.size := by
              simpa [Snapshot.document, Document.size] using Document.lt_size_of_owner? hn hi
            simp [Snapshot.document, NodeIndex.node?, Snapshot.size, hlt]
          simp only [hnode, ih hrest]
          rfl

/-- The elements that some nodes are or belong to, ascending, each once. -/
def DocNode.owners (ns : List DocNode) : List Nat :=
  Ascending.ofList (fun p q => decide (p < q)) (ns.filterMap owner?)

theorem DocNode.mem_owners {ns : List DocNode} {p : Nat} :
    p ∈ owners ns ↔ ∃ n ∈ ns, n.owner? = some p := by
  rw [owners, Ascending.mem_ofList separates_lt, List.mem_filterMap]

/-- A query selects the elements that are among the nodes of its value, or have an attribute among
them. -/
theorem evaluate_of_eval {q : Compiled} {s : Snapshot} {serial : Nat} {ns : List DocNode}
    (h : eval (s.document serial).1 q.expr .start = .ok (.nodes ns))
    (hns : ∀ n ∈ ns, (s.document serial).1.Has n) :
    q.evaluate (s.document serial).1 (s.document serial).2 = .ok (DocNode.owners ns) := by
  rw [Compiled.evaluate, if_neg (by simp [Snapshot.belongsTo_document]), h]
  simp only [ok_bind, Value.nodesOr, positionsOf_eq hns, DocNode.owners]

theorem lt_size_of_mem_owners {s : Snapshot} {serial : Nat} {ns : List DocNode} {p : Nat}
    (hns : ∀ n ∈ ns, (s.document serial).1.Has n) (hp : p ∈ DocNode.owners ns) : p < s.size := by
  obtain ⟨n, hn, howner⟩ := DocNode.mem_owners.mp hp
  simpa [Snapshot.document, Document.size, Snapshot.size] using
    Document.lt_size_of_owner? (hns n hn) howner

/-- A query whose expression was checked has a result on every snapshot with a closed document, and
selects positions of its nodes. -/
theorem evaluate_returns {q : Compiled} (hwf : q.expr.WellFormed)
    (hselects : q.expr.selectsNodes = true) {s : Snapshot} {serial : Nat}
    (hclosed : (s.document serial).1.Closed) :
    Returns (q.evaluate (s.document serial).1 (s.document serial).2) fun positions =>
      ∀ p ∈ positions, p < s.size := by
  obtain ⟨v, hv, hfits⟩ := hwf.sound hclosed .start trivial
  obtain ⟨ns, rfl⟩ := hfits.nodes hselects
  rw [evaluate_of_eval hv hfits.within]
  exact .ok fun p hp => lt_size_of_mem_owners hfits.within hp

/-- A query that was compiled selects nodes from every node of a closed document. -/
theorem exists_nodes_of_compile {text : String} {q : Compiled} (h : compile text = .ok q)
    {d : Document} (hd : d.Closed) {c : Context} (hc : d.Has c.node) :
    ∃ ns, eval d q.expr c = .ok (.nodes ns) ∧ ∀ n ∈ ns, d.Has n := by
  obtain ⟨hwf, hselects, -⟩ := compile_eq_ok h
  obtain ⟨v, hv, hfits⟩ := hwf.sound hd c hc
  obtain ⟨ns, rfl⟩ := hfits.nodes hselects
  exact ⟨ns, hv, hfits.within⟩

theorem snapshot_document_closed (request : CaptureRequest) (raw : RawNode) (time serial : Nat) :
    ((request.snapshot time raw).document serial).1.Closed :=
  (request.document_inOrder time raw serial).closed

/-- A window with two buttons. -/
def window : RawNode :=
  .mk ⟨some 100, 1⟩ { type := some .window, label := some "root" } (some [
    .mk ⟨some 100, 2⟩ { type := some .button, label := some "Login", name := some "in" } (some []),
    .mk ⟨some 100, 3⟩ { type := some .button, label := some "Cancel" } none])

/-- Whatever text was compiled and whatever tree was captured, the query has a result on the
document of the capture and its index, and selects positions of captured nodes. -/
theorem evaluate_document_snapshot {text : String} {q : Compiled} (h : compile text = .ok q)
    (request : CaptureRequest) (raw : RawNode) (time serial : Nat) :
    ∃ positions,
      q.evaluate ((request.snapshot time raw).document serial).1
          ((request.snapshot time raw).document serial).2 = .ok positions ∧
        ∀ p ∈ positions, p < (request.snapshot time raw).size := by
  obtain ⟨hwf, hselects, -⟩ := compile_eq_ok h
  exact evaluate_returns hwf hselects (snapshot_document_closed request raw time serial)

/-- The nested counts and calls of this query pass the checks, and it has a result on a window with
two buttons. -/
theorem evaluate_document_snapshot_window : ∃ q,
    compile "//*[count(@label | @name) > 1]/.. | //*[contains(@label, 'o')][last()]" = .ok q ∧
      ∃ positions,
        q.evaluate ((CaptureRequest.snapshot {} 0 window).document 7).1
            ((CaptureRequest.snapshot {} 0 window).document 7).2 = .ok positions ∧
          ∀ p ∈ positions, p < (CaptureRequest.snapshot {} 0 window).size := by
  obtain ⟨q, hq⟩ := exists_eq_ok_of_isOk (x := compile
    "//*[count(@label | @name) > 1]/.. | //*[contains(@label, 'o')][last()]") (by decide +kernel)
  exact ⟨q, hq, evaluate_document_snapshot hq {} window 0 7⟩

end UiTree.Query
