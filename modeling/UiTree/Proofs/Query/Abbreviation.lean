import UiTree.Proofs.Query.Continuation
import UiTree.Proofs.Query.PositionFree

/-!
# Two slashes and the descendant axis

Two slashes stand for a step to the node and everything below it. The children of these nodes are
the descendants of the node, so a step to children after two slashes selects what the same step
along the descendant axis selects. The two ways list the nodes in different groups, hence this is so
only for predicates that do not ask for positions.
-/

namespace UiTree

namespace Document

variable {d : Document} {n m k : Query.DocNode}

open Query (Axis DocNode)

/-- An axis lists the nodes that it leads to, from any node but an attribute. -/
theorem InOrder.mem_along_iff (hd : d.InOrder) (hn : d.Has n) (hattribute : n.isAttribute = false)
    (axis : Axis) : m ∈ d.along axis n ↔ d.OnAxis axis n m := by
  cases n with
  | root => exact hd.mem_along_root_iff axis
  | element i => exact hd.mem_along_element_iff hn axis
  | attributeAt i k => cases hattribute

/-- The descendant axes do not lead from an attribute anywhere, and never to an attribute. -/
theorem isAttribute_of_mem_descendantOrSelf (h : m ∈ d.along .descendantOrSelf n) :
    n.isAttribute = false ∧ m.isAttribute = false := by
  have helements {is : List Nat} (hm : m ∈ is.map DocNode.element) : m.isAttribute = false := by
    obtain ⟨i, -, rfl⟩ := List.mem_map.mp hm
    rfl
  cases n with
  | root =>
      obtain rfl | hm := List.mem_cons.mp h
      · exact ⟨rfl, rfl⟩
      · exact ⟨rfl, helements hm⟩
  | element i =>
      obtain rfl | hm := List.mem_cons.mp h
      · exact ⟨rfl, rfl⟩
      · exact ⟨rfl, helements hm⟩
  | attributeAt i k => cases h

/-- The descendants of a node are the children of the node and of everything below it. -/
theorem InOrder.mem_descendant_iff (hd : d.InOrder) (hn : d.Has n) :
    k ∈ d.along .descendant n ↔ ∃ m ∈ d.along .descendantOrSelf n, k ∈ d.along .child m := by
  cases hattribute : n.isAttribute with
  | true =>
      obtain ⟨i, l, rfl⟩ : ∃ i l, n = .attributeAt i l := by
        cases n with
        | root | element => cases hattribute
        | attributeAt i l => exact ⟨i, l, rfl⟩
      refine iff_of_false List.not_mem_nil ?_
      rintro ⟨m, hm, -⟩
      cases (isAttribute_of_mem_descendantOrSelf hm).1
  | false =>
      have hchild (m : DocNode) (hm : m ∈ d.along .descendantOrSelf n) :
          k ∈ d.along .child m ↔ d.IsChild m k :=
        hd.mem_along_iff (along_has hd.closed _ hn m hm) (isAttribute_of_mem_descendantOrSelf hm).2
          .child
      rw [hd.mem_along_iff hn hattribute, OnAxis, Relation.TransGen.tail'_iff]
      constructor
      · rintro ⟨m, hbelow, hk⟩
        have hm : m ∈ d.along .descendantOrSelf n :=
          (hd.mem_along_iff hn hattribute .descendantOrSelf).mpr hbelow
        exact ⟨m, hm, (hchild m hm).mpr hk⟩
      · rintro ⟨m, hm, hk⟩
        exact ⟨m, (hd.mem_along_iff hn hattribute .descendantOrSelf).mp hm, (hchild m hm).mp hk⟩

end Document

namespace Query

/-! ### Reading a step along another axis -/

section Reading

namespace Parser

variable {stop : Nat} {inner : Parser Expr} {ts ts' rest : List Located} {s : Step}
  {test : NodeTest} {before all : List Step}

/-- A test is read in the same way for all axes but that of attributes. -/
theorem nodeTest_axis {a b : Axis} (ha : a ≠ .attributes) (hb : b ≠ .attributes) :
    nodeTest stop a ts = nodeTest stop b ts := by
  unfold nodeTest
  split
  · rfl
  · rfl
  · rw [if_neg ha, if_neg hb]
  · rfl

/-- A test by itself is a step to children, if no colons follow it. -/
theorem step_of_nodeTest {a : Axis} {preds : List Expr} (ha : a ≠ .attributes)
    (htest : nodeTest stop a ts = .ok (test, ts'))
    (hpreds : predicates stop inner ts' = .ok (preds, rest))
    (hcolon : eat? .doubleColon ts' = none) :
    step stop inner ts = .ok (.mk .child test preds, rest) := by
  have hbegins : eat? .dot ts = none ∧ eat? .dotDot ts = none ∧ axis ts = .ok (.child, ts) := by
    unfold nodeTest at htest
    split at htest
    · exact ⟨rfl, rfl, rfl⟩
    · exact ⟨rfl, rfl, rfl⟩
    · next name offset more hmore =>
      rw [if_neg ha] at htest
      cases htest
      refine ⟨rfl, rfl, axis_eq_child rfl ?_⟩
      rintro _ _ _ ⟨⟩
      exact hcolon
    · cases htest
  obtain ⟨hdot, hdotDot, haxis⟩ := hbegins
  have hchild : nodeTest stop .child ts = nodeTest stop a ts := nodeTest_axis (by decide) ha
  rw [step_eq hdot hdotDot, haxis, ok_bind, hchild, htest, ok_bind, hpreds, ok_bind]

theorem eat?_eq_none_of_predicates {preds : List Expr}
    (h : predicates stop inner ts = .ok (preds, [])) : eat? .doubleColon ts = none := by
  refine Option.eq_none_iff_forall_ne_some.mpr fun after hafter => ?_
  obtain ⟨offset, rfl⟩ := exists_of_eat? hafter
  have hstop : predicates stop inner (⟨.symbol .doubleColon, offset⟩ :: after) =
      .ok ([], ⟨.symbol .doubleColon, offset⟩ :: after) :=
    repeatWith_stop rfl _
  cases hstop.symm.trans h

/-- A turn of the loop adds to the steps. -/
theorem length_lt_of_stepNext (h : stepNext stop inner before ts = some (.ok (all, rest))) :
    before.length < all.length := by
  have hvalue (wrap : Step → List Step) (hwrap : ∀ s, before.length < (wrap s).length)
      {after : List Located}
      (h : (step stop inner after >>= fun x => .ok (wrap x.1, x.2)) = .ok (all, rest)) :
      before.length < all.length := by
    obtain ⟨x, -, hx⟩ := bind_eq_ok.mp h
    cases hx
    exact hwrap x.1
  unfold stepNext at h
  split at h
  · exact hvalue (fun s => before ++ [s]) (by simp) (Option.some.inj h)
  · obtain ⟨after, -, h⟩ := Option.map_eq_some_iff.mp h
    exact hvalue (fun s => before ++ [.anywhere, s]) (by simp) h

/-- A path of one step consists of the step. -/
theorem step_of_steps (h : steps stop inner [] ts = .ok ([s], rest)) :
    step stop inner ts = .ok (s, rest) := by
  rw [steps_eq] at h
  obtain ⟨⟨first, ts'⟩, hfirst, hloop⟩ := bind_eq_ok.mp h
  have hmore {before all : List Step} {ts rest : List Located} (hbefore : 1 ≤ before.length)
      (hnext : stepNext stop inner before ts = some (.ok (all, rest))) : 2 ≤ all.length :=
    Nat.lt_of_le_of_lt hbefore (length_lt_of_stepNext hnext)
  have hone : 1 ≤ ([] ++ [first] : List Step).length := Nat.le_refl 1
  obtain ⟨heq, rfl⟩ | htwo := repeatWith_cases (fun _ _ _ => hmore hone)
    (fun _ _ _ _ htwo => hmore (Nat.le_of_succ_le htwo)) _ hloop
  · cases heq
    exact hfirst
  · exact absurd htwo (by simp)

end Parser

variable {offset : Nat} {ts : List Located} {test : NodeTest} {predicates : List Expr}

/-- A text that begins with the name of an axis and two colons begins with these tokens. -/
theorem exists_of_tokens_axis {a : Axis} {cs : List Char}
    (h : tokens 0 offset (a.name.toList ++ ("::".toList ++ cs)) = .ok ts) :
    ∃ offset₁ offset₂ found,
      ts = ⟨.name a.name, offset⟩ :: ⟨.symbol .doubleColon, offset₁⟩ :: found ∧
        tokens 0 offset₂ cs = .ok found := by
  have hends : (Token.name a.name).EndsBefore ("::".toList ++ cs) :=
    name_endsBefore (by decide) a.name (':' :: cs)
  have hcolons (offset : Nat) : tokens 0 offset ("::".toList ++ cs) = _ :=
    tokens_spelled (.symbol .doubleColon) (fun _ _ => id) offset
  rw [tokens_spelled (spelled_name (isName_axis a)) hends, hcolons] at h
  obtain ⟨colons, hread, heq⟩ := bind_eq_ok.mp h
  cases heq
  obtain ⟨found, hfound, heq⟩ := bind_eq_ok.mp hread
  cases heq
  exact ⟨_, _, found, rfl, hfound⟩

/-- What is read as a step along the descendant axis after the name of the axis and two colons is
read by itself as a step to children. -/
theorem spellsStep_of_descendant {shape : String} {q : Compiled}
    (h : compile ("/descendant::" ++ shape) = .ok q)
    (hexpr : q.expr = .path true [.mk .descendant test predicates]) :
    SpellsStep ("descendant::" ++ shape).toList (.mk .descendant test predicates) ∧
      SpellsStep shape.toList (.mk .child test predicates) := by
  obtain ⟨ts, stop, depth, hts, hlevel⟩ := exists_tokens_of_compile h
  have htext : ("descendant::" ++ shape).toList =
      Axis.descendant.name.toList ++ ("::".toList ++ shape.toList) := by
    rw [String.toList_append]
    rfl
  have hslash : (Token.symbol .slash).EndsBefore ("descendant::" ++ shape).toList := by
    rw [htext]
    rintro _ ⟨⟩
    exact nofun
  have hwhole : ("/descendant::" ++ shape).toList =
      Symbol.slash.text.toList ++ ("descendant::" ++ shape).toList := by
    rw [String.toList_append, String.toList_append]
    rfl
  rw [hwhole, tokens_spelled (.symbol .slash) hslash] at hts
  obtain ⟨ts, hnamed, heq⟩ := bind_eq_ok.mp hts
  cases heq
  have haxis := hnamed
  rw [htext] at haxis
  obtain ⟨_, _, found, rfl, hfound⟩ := exists_of_tokens_axis haxis
  rw [hexpr] at hlevel
  obtain ⟨-, hpath⟩ := Parser.path_of_level hlevel rfl
  simp only [Parser.path, Parser.startsStep, if_true] at hpath
  obtain ⟨⟨all, rest⟩, hsteps, heq⟩ := bind_eq_ok.mp hpath
  cases heq
  have hstep := Parser.step_of_steps hsteps
  refine ⟨spellsStep_of_step hnamed hstep, ?_⟩
  rw [Parser.step_eq rfl rfl, Parser.axis, Parser.ofName?_axisName, ok_bind] at hstep
  obtain ⟨⟨_, ts'⟩, htest, hstep⟩ := bind_eq_ok.mp hstep
  obtain ⟨⟨preds, rest⟩, hpreds, hvalue⟩ := bind_eq_ok.mp hstep
  cases hvalue
  have hne : Axis.descendant ≠ .attributes := by decide
  exact spellsStep_of_step hfound
    (Parser.step_of_nodeTest hne htest hpreds (Parser.eat?_eq_none_of_predicates hpreds))

end Reading

/-! ### Selecting along another axis -/

variable {d : Document} {n k : DocNode} {test : NodeTest} {predicates : List Expr}
  {steps added added' : List Step}

/-- A test asks the same of a child as of a descendant. -/
theorem passes_child_eq (d : Document) (test : NodeTest) (n : DocNode) :
    d.passes .child test n = d.passes .descendant test n := by
  cases test <;> cases n <;> rfl

/-- After two slashes a step to children selects what the step to descendants selects, if its
predicates do not ask for positions. -/
theorem mem_selected_anywhere_iff (hd : d.InOrder)
    (h : ∀ e ∈ predicates, e.Positionless ∧ e.WellFormed) (hn : d.Has n) :
    k ∈ selected d [.anywhere, .mk .child test predicates] n ↔
      k ∈ selected d [.mk .descendant test predicates] n := by
  have hanywhere : k ∈ selected d [.anywhere, .mk .child test predicates] n ↔
      ∃ m ∈ d.along .descendantOrSelf n, k ∈ (Step.mk .child test predicates).selected d m := by
    rw [selected, DocNode.mem_inOrder, List.mem_flatMap]
    simp only [Step.anywhere, mem_selected_bare, mem_selected_singleton]
  rw [hanywhere, mem_selected_singleton, mem_selected_iff hd.closed h hn, hd.mem_descendant_iff hn]
  constructor
  · rintro ⟨m, hm, hk⟩
    have hmHas : d.Has m := Document.along_has hd.closed _ hn m hm
    obtain ⟨hchild, hpasses, hholds⟩ := (mem_selected_iff hd.closed h hmHas).mp hk
    exact ⟨⟨m, hm, hchild⟩, (passes_child_eq d test k).symm.trans hpasses, hholds⟩
  · rintro ⟨⟨m, hm, hchild⟩, hpasses, hholds⟩
    have hmHas : d.Has m := Document.along_has hd.closed _ hn m hm
    refine ⟨m, hm, (mem_selected_iff hd.closed h hmHas).mpr ⟨hchild, ?_, hholds⟩⟩
    exact (passes_child_eq d test k).trans hpasses

/-- Two queries select the same nodes, and the same elements, of every capture. -/
def Compiled.SelectsLike (q r : Compiled) : Prop :=
  ∀ (request : CaptureRequest) (raw : RawNode) (time serial : Nat),
    let (d, x) := (request.snapshot time raw).document serial
    (∀ c, d.Has c.node →
      ∃ ns, eval d q.expr c = .ok (.nodes ns) ∧ eval d r.expr c = .ok (.nodes ns)) ∧
    ∃ positions, q.evaluate d x = .ok positions ∧ r.evaluate d x = .ok positions

/-- Queries that have the same value everywhere select alike. -/
theorem selectsLike_of_eval_eq {text : String} {q r : Compiled} (hq : compile text = .ok q)
    (h : ∀ d : Document, d.InOrder → ∀ c, d.Has c.node → eval d q.expr c = eval d r.expr c) :
    q.SelectsLike r := by
  intro request raw time serial
  have hd := request.document_inOrder time raw serial
  refine ⟨fun c hc => ?_, ?_⟩
  · obtain ⟨ns, hns, -⟩ := exists_nodes_of_compile hq hd.closed hc
    exact ⟨ns, hns, (h _ hd c hc).symm.trans hns⟩
  · obtain ⟨ns, hns, hhas⟩ := exists_nodes_of_compile hq hd.closed (c := .start) trivial
    exact ⟨_, evaluate_of_eval hns hhas,
      evaluate_of_eval ((h _ hd .start trivial).symm.trans hns) hhas⟩

/-- The steps of a path that was compiled are well-formed. -/
theorem wellFormed_of_compile {text : String} {q : Compiled} {absolute : Bool}
    (hq : compile text = .ok q) (hexpr : q.expr = .path absolute steps) :
    ∀ s ∈ steps, s.WellFormed := by
  intro s hs
  have hoccurs : s.OccursIn q.expr := by
    rw [hexpr]
    exact .step hs
  exact hoccurs.wellFormed (compile_eq_ok hq).1

/-- Steps that select the same from each node can stand for each other at the end of a path. -/
theorem selected_append_congr (hd : d.Closed) (hsteps : ∀ s ∈ steps, s.WellFormed)
    (hadded : ∀ s ∈ added, s.WellFormed) (hadded' : ∀ s ∈ added', s.WellFormed)
    (h : ∀ m, d.Has m → ∀ k, k ∈ selected d added m ↔ k ∈ selected d added' m) (hn : d.Has n) :
    selected d (steps ++ added) n = selected d (steps ++ added') n := by
  rw [selected_append hd hsteps hadded hn, selected_append hd hsteps hadded' hn]
  refine DocNode.inOrder_congr fun k => ?_
  simp only [List.mem_flatMap]
  exact exists_congr fun m => and_congr_right fun hm => h m (selected_has hd hsteps hn m hm) k

/-- A path that ends in two slashes and a step to children selects like the one that ends in the
same step to descendants. -/
theorem selectsLike_anywhere {text text' : String} {q r : Compiled} {absolute : Bool}
    (hq : compile text = .ok q) (hr : compile text' = .ok r)
    (hexpr : q.expr = .path absolute (steps ++ [.anywhere, .mk .child test predicates]))
    (hexpr' : r.expr = .path absolute (steps ++ [.mk .descendant test predicates]))
    (h : ∀ e ∈ predicates, e.Positionless) : q.SelectsLike r := by
  have hall := wellFormed_of_compile hq hexpr
  have hall' := wellFormed_of_compile hr hexpr'
  obtain ⟨hsteps, hadded⟩ := List.forall_mem_append.mp hall
  obtain ⟨-, hadded'⟩ := List.forall_mem_append.mp hall'
  have hpredicates : ∀ e ∈ predicates, e.Positionless ∧ e.WellFormed :=
    fun e he => ⟨h e he, (hadded' _ (List.mem_singleton_self _)).2 e he⟩
  refine selectsLike_of_eval_eq hq fun d hd c hc => ?_
  have hsame (n : DocNode) (hn : d.Has n) :=
    selected_append_congr hd.closed hsteps hadded hadded'
      (fun m hm k => mem_selected_anywhere_iff (k := k) hd hpredicates hm) hn
  rw [hexpr, hexpr', eval_path hd.closed hall absolute hc, eval_path hd.closed hall' absolute hc]
  cases absolute with
  | true => rw [if_pos rfl, hsame .root trivial]
  | false => rw [if_neg Bool.false_ne_true, hsame c.node hc]

/-- Whatever step to descendants is written, if its predicates do not ask for positions, the step
may as well be written after two slashes without the axis: from the root, and after every path, the
two queries are accepted and select the same. -/
theorem compile_anywhere_selectsLike {shape : String} {q : Compiled}
    (h : compile ("/descendant::" ++ shape) = .ok q)
    (hexpr : q.expr = .path true [.mk .descendant test predicates])
    (hpredicates : ∀ e ∈ predicates, e.Positionless) :
    (∃ r, compile ("//" ++ shape) = .ok r ∧ r.SelectsLike q) ∧
    ∀ text p absolute steps, SpellsPath text p absolute steps →
      ∃ r r', compile (text ++ ("//" ++ shape)) = .ok r ∧
        compile (text ++ ("/descendant::" ++ shape)) = .ok r' ∧ r.SelectsLike r' := by
  obtain ⟨hdescendant, hchild⟩ := spellsStep_of_descendant h hexpr
  refine ⟨?_, fun text p absolute steps hpath => ?_⟩
  · obtain ⟨r, hr, hrexpr⟩ := hchild.exists_compile_anywhere
    have hfirst : r.expr = .path true ([] ++ [.anywhere, .mk .child test predicates]) := hrexpr
    exact ⟨r, hr, selectsLike_anywhere hr h hfirst hexpr hpredicates⟩
  · have hhead : ("descendant::" ++ shape).toList.head? ≠ some '/' := by
      rw [String.toList_append]
      exact fun heq => nomatch heq
    have hslashes : Continues ("//" ++ shape).toList [.anywhere, .mk .child test predicates] := by
      rw [String.toList_append]
      exact hchild.doubleSlash
    have hslash :
        Continues ("/descendant::" ++ shape).toList [.mk .descendant test predicates] := by
      have hcontinues := hdescendant.slash hhead
      rw [String.toList_append] at hcontinues ⊢
      exact hcontinues
    obtain ⟨r, hr, hrexpr⟩ := hpath.append hslashes
    obtain ⟨r', hr', hrexpr'⟩ := hpath.append hslash
    exact ⟨r, r', hr, hr', selectsLike_anywhere hr hr' hrexpr hrexpr' hpredicates⟩

/-- Tables with a last cell may be asked for after two slashes, everywhere and below the elements of
a window. The position that is asked for is one in an inner path. -/
theorem compile_anywhere_selectsLike_table :
    let shape := "Table[Cell[last()]]"
    ∃ q test inner p front, compile ("/descendant::" ++ shape) = .ok q ∧
      q.expr = .path true [.mk .descendant test [.path false inner]] ∧
      SpellsPath "/Window/*" p true front ∧
      (∃ r, compile ("//" ++ shape) = .ok r ∧ r.SelectsLike q) ∧
      ∃ r r', compile ("/Window/*" ++ ("//" ++ shape)) = .ok r ∧
        compile ("/Window/*" ++ ("/descendant::" ++ shape)) = .ok r' ∧ r.SelectsLike r' := by
  intro shape
  obtain ⟨q, absolute, steps, hq, hexpr, hshape⟩ := exists_path_of_compile
    (p := fun absolute steps => absolute && steps.length == 1 && steps.all fun s =>
      s.axis == .descendant && s.predicates.length == 1 &&
        s.predicates.all fun e => e.path?.any fun x => !x.1)
    (by decide +kernel : (compile ("/descendant::" ++ shape)).toOption.any _ = true)
  simp only [Bool.and_eq_true, beq_iff_eq] at hshape
  obtain ⟨⟨rfl, hone⟩, hstep⟩ := hshape
  obtain ⟨⟨axis, test, predicates⟩, rfl⟩ := List.length_eq_one_iff.mp hone
  simp only [List.all_cons, List.all_nil, Bool.and_true, Bool.and_eq_true, beq_iff_eq] at hstep
  obtain ⟨⟨rfl, hone⟩, hinner⟩ := hstep
  obtain ⟨e, rfl⟩ := List.length_eq_one_iff.mp hone
  simp only [Step.predicates, List.all_cons, List.all_nil, Bool.and_true] at hinner
  obtain ⟨⟨_, inner⟩, hpath, hrelative⟩ := (Option.any_eq_true _ _).mp hinner
  obtain rfl := Expr.eq_path_of_path? hpath
  simp only [Bool.not_eq_true'] at hrelative
  subst hrelative
  obtain ⟨p, _, front, hp, hpexpr, hfront⟩ := exists_path_of_compile
    (p := fun absolute steps => absolute && !steps.isEmpty)
    (by decide +kernel : (compile "/Window/*").toOption.any _ = true)
  simp only [Bool.and_eq_true, Bool.not_eq_true', List.isEmpty_eq_false_iff] at hfront
  obtain ⟨rfl, hne⟩ := hfront
  have hwindow : SpellsPath "/Window/*" p true front := ⟨hp, hpexpr, hne, by decide +kernel⟩
  have hpositionless : ∀ e ∈ [Expr.path false inner], e.Positionless :=
    List.forall_mem_singleton.mpr ⟨.path, by rintro ⟨⟩⟩
  obtain ⟨hroot, hbelow⟩ := compile_anywhere_selectsLike hq hexpr hpositionless
  exact ⟨q, test, inner, p, front, hq, hexpr, hwindow, hroot, hbelow _ _ _ _ hwindow⟩

end Query

end UiTree
