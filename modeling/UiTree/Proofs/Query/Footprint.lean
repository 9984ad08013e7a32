import UiTree.Proofs.Query.Correspondence
import UiTree.Proofs.Query.Soundness

/-!
# Queries see the attributes they read

In two documents that agree on the attributes that an expression reads, the expression has
corresponding values at corresponding nodes. Hence a compiled query selects the same positions in
every capture of a tree that holds at least the attributes it reads.
-/

namespace UiTree.Query

variable {s : AttributeSet} {d d' : Document}

/-- Values of two documents correspond: they are the same, or sets of corresponding nodes. -/
inductive Value.Corresponds (d d' : Document) : Value → Value → Prop where
  | nodes {ns ns' : List DocNode} (h : List.Forall₂ (DocNode.Corresponds d d') ns ns') :
      Corresponds d d' (.nodes ns) (.nodes ns')
  | text (s : String) : Corresponds d d' (.text s) (.text s)
  | number (x : Float) : Corresponds d d' (.number x) (.number x)
  | truth (b : Bool) : Corresponds d d' (.truth b) (.truth b)

namespace Value.Corresponds

variable {v v' w w' : Value}

theorem toTruth (h : Corresponds d d' v v') : v.toTruth = v'.toTruth := by
  cases h with
  | nodes h => cases h <;> rfl
  | text | number | truth => rfl

theorem toText (h : Corresponds d d' v v') : v.toText d = v'.toText d' := by
  cases h with
  | nodes h =>
      cases h with
      | nil => rfl
      | cons h _ => exact h.textOf
  | text | number | truth => rfl

theorem toNumber (h : Corresponds d d' v v') : v.toNumber d = v'.toNumber d' := by
  cases h with
  | nodes h => exact congrArg textToNumber (toText (.nodes h))
  | text | number | truth => rfl

theorem holdsAt (h : Corresponds d d' v v') (position : Nat) :
    v.holdsAt position = v'.holdsAt position := by
  cases h with
  | nodes h => exact toTruth (.nodes h)
  | text | number | truth => rfl

theorem equal (h : Corresponds d d' v v') (h' : Corresponds d d' w w') :
    v.equal d w = v'.equal d' w' := by
  have htruth := congrArg₂ (· == ·) h.toTruth h'.toTruth
  have hnumber := congrArg₂ (· == ·) h.toNumber h'.toNumber
  have htext := congrArg₂ (· == ·) h.toText h'.toText
  cases h <;> cases h' <;> assumption

theorem compareSingle (op : Operator) (h : Corresponds d d' v v')
    (h' : Corresponds d d' w w') : v.compareSingle d op w = v'.compareSingle d' op w' := by
  cases op <;>
    simp only [Value.compareSingle, h.equal h', h.toNumber, h'.toNumber, h.toTruth, h'.toTruth]

theorem any_eq {f f' : DocNode → Bool} (hf : ∀ n n', DocNode.Corresponds d d' n n' → f n = f' n')
    {ns ns' : List DocNode} (h : List.Forall₂ (DocNode.Corresponds d d') ns ns') :
    ns.any f = ns'.any f' := by
  induction h with
  | nil => rfl
  | cons h _ ih => simp only [List.any_cons, hf _ _ h, ih]

theorem textOf {n n' : DocNode} (h : DocNode.Corresponds d d' n n') :
    Corresponds d d' (.text (d.textOf n)) (.text (d'.textOf n')) :=
  h.textOf ▸ .text _

theorem compare (op : Operator) (h : Corresponds d d' v v') (h' : Corresponds d d' w w') :
    v.compare d op w = v'.compare d' op w' := by
  cases h with
  | nodes hns =>
      cases h' with
      | nodes hms =>
          exact any_eq (fun n n' hn => any_eq
            (fun m m' hm => compareSingle op (textOf hn) (textOf hm)) hms) hns
      | truth b =>
          have htruth := toTruth (.nodes hns)
          simp only [Value.compare, htruth]
          exact compareSingle op (.truth _) (.truth b)
      | text | number =>
          exact any_eq (fun n n' hn => compareSingle op (textOf hn) (by constructor)) hns
  | truth b =>
      cases h' with
      | nodes hms =>
          have htruth := toTruth (.nodes hms)
          simp only [Value.compare, htruth]
          exact compareSingle op (.truth b) (.truth _)
      | text | number | truth => exact compareSingle op (.truth b) (by constructor)
  | text s =>
      cases h' with
      | nodes hms => exact any_eq (fun m m' hm => compareSingle op (.text s) (textOf hm)) hms
      | text | number | truth => exact compareSingle op (.text s) (by constructor)
  | number x =>
      cases h' with
      | nodes hms => exact any_eq (fun m m' hm => compareSingle op (.number x) (textOf hm)) hms
      | text | number | truth => exact compareSingle op (.number x) (by constructor)

theorem nodesOr (h : Corresponds d d' v v') (fault : EvaluationFault) :
    Related (List.Forall₂ (DocNode.Corresponds d d')) (v.nodesOr fault) (v'.nodesOr fault) := by
  cases h with
  | nodes h => exact .ok h
  | text | number | truth => exact .error fault

end Value.Corresponds

theorem Expr.mem_allRead {a : Attribute} {es : List Expr} :
    a ∈ Expr.allRead es ↔ ∃ e ∈ es, a ∈ e.reads := by
  induction es with
  | nil => simp [Expr.allRead]
  | cons e es ih => simp [Expr.allRead, ih]

theorem Step.mem_reads {a : Attribute} {s : Step} :
    a ∈ s.reads ↔ a ∈ testReads s.axis s.test ∨ ∃ p ∈ s.predicates, a ∈ p.reads := by
  obtain ⟨axis, test, predicates⟩ := s
  simp [Step.reads, Step.axis, Step.test, Step.predicates, Expr.mem_allRead]

theorem Step.mem_allRead {a : Attribute} {ss : List Step} :
    a ∈ Step.allRead ss ↔ ∃ s ∈ ss, a ∈ s.reads := by
  induction ss with
  | nil => simp [Step.allRead]
  | cons s ss ih => simp [Step.allRead, ih]

/-- Contexts of two documents correspond: at corresponding nodes, the same position among as
many. -/
structure Context.Corresponds (d d' : Document) (c c' : Context) : Prop where
  node : DocNode.Corresponds d d' c.node c'.node
  position : c.position = c'.position
  size : c.size = c'.size

/-- In corresponding contexts, the expression has corresponding values. -/
def Expr.Transfers (d d' : Document) (e : Expr) : Prop :=
  ∀ c c', Context.Corresponds d d' c c' →
    Related (Value.Corresponds d d') (eval d e c) (eval d' e c')

theorem keep_corresponds {predicate predicate' : Context → Evaluated Value}
    (h : ∀ c c', Context.Corresponds d d' c c' →
      Related (Value.Corresponds d d') (predicate c) (predicate' c'))
    (size before : Nat) {ns ns' : List DocNode}
    (hns : List.Forall₂ (DocNode.Corresponds d d') ns ns') :
    Related (List.Forall₂ (DocNode.Corresponds d d')) (keep predicate size before ns)
      (keep predicate' size before ns') := by
  induction hns generalizing before with
  | nil => exact .ok .nil
  | cons hn _ ih =>
      apply (h ⟨_, before + 1, size⟩ ⟨_, before + 1, size⟩ ⟨hn, rfl, rfl⟩).bind
      intro v v' hv
      refine (ih (before + 1)).bind fun kept kept' hkept => .ok ?_
      rw [hv.holdsAt]
      split
      · exact .cons hn hkept
      · exact hkept

theorem collect_corresponds {select select' : DocNode → Evaluated (List DocNode)}
    (h : ∀ n n', DocNode.Corresponds d d' n n' →
      Related (List.Forall₂ (DocNode.Corresponds d d')) (select n) (select' n'))
    {ns ns' : List DocNode} (hns : List.Forall₂ (DocNode.Corresponds d d') ns ns') :
    Related (List.Forall₂ (DocNode.Corresponds d d')) (collect select ns)
      (collect select' ns') := by
  induction hns with
  | nil => exact .ok .nil
  | cons hn _ ih =>
      apply (h _ _ hn).bind
      intro found found' hfound
      exact ih.bind fun more more' hmore => .ok (List.rel_append hfound hmore)

theorem evalPredicates_corresponds {predicates : List Expr}
    (h : ∀ p ∈ predicates, p.Transfers d d') {ns ns' : List DocNode}
    (hns : List.Forall₂ (DocNode.Corresponds d d') ns ns') :
    Related (List.Forall₂ (DocNode.Corresponds d d')) (evalPredicates d predicates ns)
      (evalPredicates d' predicates ns') := by
  induction predicates generalizing ns ns' with
  | nil => exact .ok hns
  | cons p ps ih =>
      obtain ⟨hp, hps⟩ := List.forall_mem_cons.mp h
      rw [evalPredicates, evalPredicates, hns.length_eq]
      exact (keep_corresponds hp ns'.length 0 hns).bind fun kept kept' hkept => ih hps hkept

theorem evalStep_corresponds (hagree : d.AgreeOn s d') {step : Step}
    (hreads : ∀ a, a ∈ testReads step.axis step.test → a ∈ s)
    (h : ∀ p ∈ step.predicates, p.Transfers d d') {n n' : DocNode}
    (hn : DocNode.Corresponds d d' n n') :
    Related (List.Forall₂ (DocNode.Corresponds d d')) (evalStep d step n)
      (evalStep d' step n') := by
  obtain ⟨axis, test, predicates⟩ := step
  rw [evalStep, evalStep]
  exact evalPredicates_corresponds h (passing_corresponds hagree hreads hn)

theorem evalSteps_corresponds (hagree : d.AgreeOn s d') {steps : List Step}
    (hreads : ∀ a, a ∈ Step.allRead steps → a ∈ s)
    (h : ∀ step ∈ steps, ∀ p ∈ step.predicates, p.Transfers d d') {ns ns' : List DocNode}
    (hns : List.Forall₂ (DocNode.Corresponds d d') ns ns') :
    Related (List.Forall₂ (DocNode.Corresponds d d')) (evalSteps d steps ns)
      (evalSteps d' steps ns') := by
  induction steps generalizing ns ns' with
  | nil => exact .ok hns
  | cons step steps ih =>
      obtain ⟨hstep, hsteps⟩ := List.forall_mem_cons.mp h
      have htest (a : Attribute) (ha : a ∈ testReads step.axis step.test) : a ∈ s :=
        hreads a (Step.mem_allRead.mpr ⟨step, by simp, Step.mem_reads.mpr (.inl ha)⟩)
      have hrest (a : Attribute) (ha : a ∈ Step.allRead steps) : a ∈ s := by
        obtain ⟨other, hother, ha⟩ := Step.mem_allRead.mp ha
        exact hreads a (Step.mem_allRead.mpr ⟨other, by simp [hother], ha⟩)
      rw [evalSteps, evalSteps]
      refine (collect_corresponds (fun n n' hn =>
        evalStep_corresponds hagree htest hstep hn) hns).bind fun found found' hfound => ?_
      exact ih hrest hsteps (inOrder_corresponds hagree hfound)

theorem evalParts_corresponds {parts : List Expr} (h : ∀ e ∈ parts, e.Transfers d d')
    {c c' : Context} (hc : Context.Corresponds d d' c c') :
    Related (List.Forall₂ (DocNode.Corresponds d d')) (evalParts d parts c)
      (evalParts d' parts c') := by
  induction parts with
  | nil => exact .ok .nil
  | cons e es ih =>
      obtain ⟨he, hes⟩ := List.forall_mem_cons.mp h
      rw [evalParts, evalParts]
      apply (he c c' hc).bind
      intro v v' hv
      apply (hv.nodesOr _).bind
      intro found found' hfound
      exact (ih hes).bind fun more more' hmore => .ok (List.rel_append hfound hmore)

theorem evalAll_corresponds {arguments : List Expr} (h : ∀ e ∈ arguments, e.Transfers d d')
    {c c' : Context} (hc : Context.Corresponds d d' c c') :
    Related (List.Forall₂ (Value.Corresponds d d')) (evalAll d arguments c)
      (evalAll d' arguments c') := by
  induction arguments with
  | nil => exact .ok .nil
  | cons e es ih =>
      obtain ⟨he, hes⟩ := List.forall_mem_cons.mp h
      rw [evalAll, evalAll]
      apply (he c c' hc).bind
      intro v v' hv
      exact (ih hes).bind fun vs vs' hvs => .ok (.cons hv hvs)

theorem argument_corresponds (f : Function) {vs vs' : List Value}
    (h : List.Forall₂ (Value.Corresponds d d') vs vs') (i : Nat) :
    Related (Value.Corresponds d d') (argument f vs i) (argument f vs' i) := by
  have hlength := h.length_eq
  rw [argument, argument]
  by_cases hi : i < vs.length
  · have hi' : i < vs'.length := hlength ▸ hi
    rw [List.getElem?_eq_getElem hi, List.getElem?_eq_getElem hi']
    exact .ok (h.get hi hi')
  · rw [List.getElem?_eq_none (by omega), List.getElem?_eq_none (by omega)]
    exact .error _

theorem applyFunction_corresponds (f : Function) {vs vs' : List Value}
    (h : List.Forall₂ (Value.Corresponds d d') vs vs') {c c' : Context}
    (hc : Context.Corresponds d d' c c') :
    Related (Value.Corresponds d d') (applyFunction d f vs c) (applyFunction d' f vs' c') := by
  have hargument := argument_corresponds f h
  cases f with
  | position =>
      rw [applyFunction, applyFunction, hc.position]
      exact .ok (.number _)
  | last =>
      rw [applyFunction, applyFunction, hc.size]
      exact .ok (.number _)
  | not =>
      apply (hargument 0).bind
      intro v v' hv
      exact hv.toTruth ▸ .ok (.truth _)
  | contains | startsWith =>
      apply (hargument 0).bind
      intro v v' hv
      apply (hargument 1).bind
      intro w w' hw
      rw [hv.toText, hw.toText]
      exact .ok (.truth _)
  | count =>
      apply (hargument 0).bind
      intro v v' hv
      apply (hv.nodesOr _).bind
      intro ns ns' hns
      rw [hns.length_eq]
      exact .ok (.number _)
  | stringLength =>
      cases h with
      | nil =>
          rw [applyFunction, applyFunction, hc.node.textOf]
          exact .ok (.number _)
      | @cons v v' _ _ hv _ =>
          have hlength : (v.toText d).length = (v'.toText d').length := by rw [hv.toText]
          exact .ok (hlength ▸ .number _)

/-- An expression has corresponding values in documents that agree on what it reads. -/
theorem Expr.WellFormed.transfers (hagree : d.AgreeOn s d') {e : Expr} (h : e.WellFormed)
    (hreads : ∀ a, a ∈ e.reads → a ∈ s) : e.Transfers d d' := by
  induction h with
  | @binary op a b _ _ iha ihb =>
      have iha := iha fun x hx => hreads x (by simp [Expr.reads, hx])
      have ihb := ihb fun x hx => hreads x (by simp [Expr.reads, hx])
      intro c c' hc
      by_cases hor : op = .or
      · subst hor
        rw [eval, eval]
        apply (iha c c' hc).bind
        intro v v' hv
        rw [hv.toTruth]
        split
        · exact .ok (.truth true)
        · exact (ihb c c' hc).bind fun w w' hw => hw.toTruth ▸ .ok (.truth _)
      by_cases hand : op = .and
      · subst hand
        rw [eval, eval]
        apply (iha c c' hc).bind
        intro v v' hv
        rw [hv.toTruth]
        split
        · exact (ihb c c' hc).bind fun w w' hw => hw.toTruth ▸ .ok (.truth _)
        · exact .ok (.truth false)
      · rw [eval_comparison hor hand, eval_comparison hor hand]
        apply (iha c c' hc).bind
        intro v v' hv
        exact (ihb c c' hc).bind fun w w' hw => hv.compare op hw ▸ .ok (.truth _)
  | @union parts _ _ _ ih =>
      have ih (e : Expr) (he : e ∈ parts) := ih e he fun x hx =>
        hreads x (Expr.mem_allRead.mpr ⟨e, he, hx⟩)
      intro c c' hc
      rw [eval, eval]
      apply (evalParts_corresponds ih hc).bind
      intro ns ns' hns
      exact .ok (.nodes (inOrder_corresponds hagree hns))
  | @path absolute steps _ _ _ ih =>
      have ih (step : Step) (hstep : step ∈ steps) (p : Expr) (hp : p ∈ step.predicates) :=
        ih step hstep p hp fun x hx =>
          hreads x (Step.mem_allRead.mpr ⟨step, hstep, Step.mem_reads.mpr (.inr ⟨p, hp, hx⟩)⟩)
      intro c c' hc
      rw [eval, eval]
      have hstart : List.Forall₂ (DocNode.Corresponds d d')
          [if absolute then .root else c.node] [if absolute then .root else c'.node] := by
        cases absolute with
        | true => exact .cons .root .nil
        | false => exact .cons hc.node .nil
      exact (evalSteps_corresponds hagree hreads ih hstart).bind fun ns ns' hns => .ok (.nodes hns)
  | literal =>
      intro c c' _
      rw [eval, eval]
      exact .ok (.text _)
  | number =>
      intro c c' _
      rw [eval, eval]
      exact .ok (.number _)
  | @call f arguments _ _ _ ih =>
      have ih (e : Expr) (he : e ∈ arguments) := ih e he fun x hx =>
        hreads x (Expr.mem_allRead.mpr ⟨e, he, hx⟩)
      intro c c' hc
      rw [eval, eval]
      exact (evalAll_corresponds ih hc).bind fun vs vs' hvs => applyFunction_corresponds f hvs hc

theorem positionsOf_corresponds {x x' : NodeIndex} (hx : ∀ i, x.node? i = x'.node? i)
    {ns ns' : List DocNode} (h : List.Forall₂ (DocNode.Corresponds d d') ns ns') :
    positionsOf x ns = positionsOf x' ns' := by
  induction h with
  | nil => rfl
  | cons h _ ih => simp only [positionsOf, h.owner, hx, ih]

/-- A query evaluates alike on two snapshots whose nodes are the same within the attributes it
reads. -/
theorem evaluate_congr {text : String} {q : Compiled} (h : compile text = .ok q)
    {t t' : Snapshot}
    (hnodes : t.nodes.map (·.restrict q.attributes) = t'.nodes.map (·.restrict q.attributes))
    (serial serial' : Nat) :
    q.evaluate (t.document serial).1 (t.document serial).2 =
      q.evaluate (t'.document serial').1 (t'.document serial').2 := by
  obtain ⟨hwf, -, hattributes⟩ := compile_eq_ok h
  have htype : Attribute.type ∈ q.attributes := by simp [hattributes]
  have hreads (a : Attribute) (ha : a ∈ q.expr.reads) : a ∈ q.attributes := by
    simp [hattributes, ha]
  have hagree := Snapshot.document_agreeOn htype hnodes serial serial'
  have hsize : t.size = t'.size := by simpa [Snapshot.size] using congrArg Array.size hnodes
  have hindex (i : Nat) : (t.document serial).2.node? i = (t'.document serial').2.node? i := by
    simp [Snapshot.document, NodeIndex.node?, hsize]
  rw [Compiled.evaluate, Compiled.evaluate, if_neg (by simp [Snapshot.belongsTo_document]),
    if_neg (by simp [Snapshot.belongsTo_document])]
  apply Related.eq
  apply (hwf.transfers hagree hreads .start .start ⟨.root, rfl, rfl⟩).bind
  intro v v' hv
  apply (hv.nodesOr _).bind
  intro ns ns' hns
  rw [positionsOf_corresponds hindex hns]
  cases positionsOf (t'.document serial').2 ns' with
  | ok positions => exact .ok rfl
  | error fault => exact .error fault

end UiTree.Query
