import UiTree.Proofs.Query.Abbreviation

/-!
# Steps that include the node they start from

The three axes that are named for the node itself list it together with its ancestors, with its
descendants, or alone. From an attribute the axis of descendants lists nothing, not even the
attribute. So a path that goes on with such a step keeps what it had selected, except that along the
axis of descendants it loses the elements that only their attributes stood for.
-/

namespace UiTree.Query

variable {d : Document} {n k : DocNode} {text : String} {q : Compiled} {absolute : Bool}
  {steps : List Step} {axis : Axis} {p : Nat}

/-- The value that a path has when a query starts. -/
theorem eval_start (hd : d.Closed) (hq : compile text = .ok q)
    (hexpr : q.expr = .path absolute steps) :
    eval d q.expr .start = .ok (.nodes (selected d steps .root)) := by
  have hstart : d.Has Context.start.node := d.has_root
  rw [hexpr, eval_path hd (wellFormed_of_compile hq hexpr) absolute hstart]
  cases absolute <;> rfl

/-- A path selects the elements that its nodes are or belong to. -/
theorem evaluate_start {s : Snapshot} {serial : Nat} (hd : (s.document serial).1.Closed)
    (hq : compile text = .ok q) (hexpr : q.expr = .path absolute steps) :
    q.evaluate (s.document serial).1 (s.document serial).2 =
      .ok (DocNode.owners (selected (s.document serial).1 steps .root)) :=
  evaluate_of_eval (eval_start hd hq hexpr)
    (selected_has hd (wellFormed_of_compile hq hexpr) (Document.has_root _))

/-- A step that every node passes goes on to the nodes of its axis. -/
theorem mem_selected_append_bare (hd : d.Closed)
    (h : ∀ s ∈ steps ++ [.mk axis .anyNode []], s.WellFormed) (hn : d.Has n) :
    k ∈ selected d (steps ++ [.mk axis .anyNode []]) n ↔
      ∃ m ∈ selected d steps n, k ∈ d.along axis m := by
  obtain ⟨hsteps, hadded⟩ := List.forall_mem_append.mp h
  simp only [mem_selected_append hd hsteps hadded hn, mem_selected_singleton, mem_selected_bare]

/-- A step to the node itself changes nothing. -/
theorem selected_append_self (hd : d.Closed)
    (h : ∀ s ∈ steps ++ [.mk .self .anyNode []], s.WellFormed) (hn : d.Has n) :
    selected d (steps ++ [.mk .self .anyNode []]) n = selected d steps n := by
  refine (selected_ordered hd h hn).eq_of_mem_iff
    (selected_ordered hd (List.forall_mem_append.mp h).1 hn) fun k => ?_
  rw [mem_selected_append_bare hd h hn]
  constructor
  · rintro ⟨m, hm, hk⟩
    rwa [List.mem_singleton.mp hk]
  · exact fun hk => ⟨k, hk, List.mem_singleton_self k⟩

/-- Two slashes and a point are a step to the node and its descendants. -/
theorem mem_selected_anywhere_here :
    k ∈ selected d [.anywhere, .here] n ↔
      k ∈ selected d [.mk .descendantOrSelf .anyNode []] n := by
  rw [mem_selected_singleton, mem_selected_bare, selected, DocNode.mem_inOrder, List.mem_flatMap]
  simp only [Step.anywhere, Step.here, mem_selected_bare, mem_selected_singleton]
  constructor
  · rintro ⟨m, hm, hk⟩
    rwa [List.mem_singleton.mp hk]
  · exact fun hk => ⟨k, hk, List.mem_singleton_self k⟩

/-- A path that goes on with two slashes and a point selects what it selects along the axis of
descendants from the nodes themselves on. -/
theorem selected_append_here (hd : d.Closed)
    (h : ∀ s ∈ steps ++ [.mk .descendantOrSelf .anyNode []], s.WellFormed)
    (h' : ∀ s ∈ steps ++ [.anywhere, .here], s.WellFormed) (hn : d.Has n) :
    selected d (steps ++ [.anywhere, .here]) n =
      selected d (steps ++ [.mk .descendantOrSelf .anyNode []]) n := by
  obtain ⟨hsteps, hadded⟩ := List.forall_mem_append.mp h
  obtain ⟨-, hadded'⟩ := List.forall_mem_append.mp h'
  exact selected_append_congr hd hsteps hadded' hadded
    (fun _ _ _ => mem_selected_anywhere_here) hn

/-- The axis of ancestors begins with the node itself, whatever it is. -/
theorem mem_ancestorOrSelf_self (d : Document) (n : DocNode) : n ∈ d.along .ancestorOrSelf n := by
  cases n <;> exact List.mem_cons_self

/-- A step to the node and its ancestors keeps every element. -/
theorem owners_subset_ancestorOrSelf (hd : d.Closed)
    (h : ∀ s ∈ steps ++ [.mk .ancestorOrSelf .anyNode []], s.WellFormed) (hn : d.Has n) :
    ∀ p ∈ DocNode.owners (selected d steps n),
      p ∈ DocNode.owners (selected d (steps ++ [.mk .ancestorOrSelf .anyNode []]) n) := by
  intro p hp
  obtain ⟨m, hm, howner⟩ := DocNode.mem_owners.mp hp
  refine DocNode.mem_owners.mpr ⟨m, ?_, howner⟩
  exact (mem_selected_append_bare hd h hn).mpr ⟨m, hm, mem_ancestorOrSelf_self d m⟩

/-- The elements that a step to the node and its descendants leads to are those at or below a node
that is no attribute. -/
theorem mem_owners_descendantOrSelf (hd : d.InOrder)
    (h : ∀ s ∈ steps ++ [.mk .descendantOrSelf .anyNode []], s.WellFormed) :
    p ∈ DocNode.owners (selected d (steps ++ [.mk .descendantOrSelf .anyNode []]) .root) ↔
      ∃ n ∈ selected d steps .root, n.isAttribute = false ∧
        d.OnAxis .descendantOrSelf n (.element p) := by
  have hsteps := (List.forall_mem_append.mp h).1
  have hmem (m k : DocNode) (hm : m ∈ selected d steps .root) (hattribute : m.isAttribute = false) :
      k ∈ d.along .descendantOrSelf m ↔ d.OnAxis .descendantOrSelf m k :=
    hd.mem_along_iff (selected_has hd.closed hsteps d.has_root m hm) hattribute .descendantOrSelf
  rw [DocNode.mem_owners]
  constructor
  · rintro ⟨k, hk, howner⟩
    obtain ⟨m, hm, hk⟩ := (mem_selected_append_bare hd.closed h d.has_root).mp hk
    obtain ⟨hattribute, hattribute'⟩ := Document.isAttribute_of_mem_descendantOrSelf hk
    obtain rfl : k = .element p := by
      cases k with
      | root => cases howner
      | element i => exact congrArg _ (Option.some.inj howner)
      | attributeAt i l => cases hattribute'
    exact ⟨m, hm, hattribute, (hmem m _ hm hattribute).mp hk⟩
  · rintro ⟨m, hm, hattribute, hbelow⟩
    refine ⟨.element p, (mem_selected_append_bare hd.closed h d.has_root).mpr ⟨m, hm, ?_⟩, rfl⟩
    exact (hmem m _ hm hattribute).mpr hbelow

/-- A path keeps all its elements along the axis of descendants if each element that it selects an
attribute of is at or below a node that it selects and that is no attribute. -/
theorem owners_subset_descendantOrSelf_iff (hd : d.InOrder)
    (h : ∀ s ∈ steps ++ [.mk .descendantOrSelf .anyNode []], s.WellFormed) :
    (∀ p ∈ DocNode.owners (selected d steps .root),
        p ∈ DocNode.owners (selected d (steps ++ [.mk .descendantOrSelf .anyNode []]) .root)) ↔
      ∀ i k, .attributeAt i k ∈ selected d steps .root → ∃ n ∈ selected d steps .root,
        n.isAttribute = false ∧ d.OnAxis .descendantOrSelf n (.element i) := by
  simp only [mem_owners_descendantOrSelf hd h, DocNode.mem_owners]
  constructor
  · exact fun hall i k hk => hall i ⟨_, hk, rfl⟩
  · rintro hall p ⟨n, hn, howner⟩
    cases n with
    | root => cases howner
    | element i =>
        cases howner
        exact ⟨_, hn, rfl, Relation.ReflTransGen.refl⟩
    | attributeAt i k =>
        cases howner
        exact hall _ k hn

/-- A slash, an axis and the test that every node passes go on with a path. -/
theorem continues_axis {a : Axis} {tail : String} (htail : tail = "/" ++ (a.name ++ "::node()")) :
    Continues tail.toList [.mk a .anyNode []] := by
  have hhead : (a.name ++ "::node()").toList.head? ≠ some '/' := by
    cases a <;> decide +kernel
  have hcontinues := (spellsStep_axis a).slash hhead
  rw [htail, String.toList_append]
  exact hcontinues

/-- Every path can be written on with a step along one of the three axes that are named for the node
itself. With a step to the node alone it selects the same; along the axis of ancestors it keeps
every element that it had selected. Along the axis of descendants, and with two slashes and a point,
it selects the elements at or below the nodes that are no attributes: it keeps every element exactly
if each of those that it had selected an attribute of is at or below such a node. -/
theorem compile_orSelf (h : SpellsPath text q absolute steps) :
    ∃ alone below point above,
      compile (text ++ "/self::node()") = .ok alone ∧
      compile (text ++ "/descendant-or-self::node()") = .ok below ∧
      compile (text ++ "//.") = .ok point ∧
      compile (text ++ "/ancestor-or-self::node()") = .ok above ∧
      ∀ (request : CaptureRequest) (raw : RawNode) (time serial : Nat),
        let (d, x) := (request.snapshot time raw).document serial
        ∃ ns found lower upper,
          eval d q.expr .start = .ok (.nodes ns) ∧ q.evaluate d x = .ok found ∧
          eval d alone.expr .start = .ok (.nodes ns) ∧ alone.evaluate d x = .ok found ∧
          above.evaluate d x = .ok upper ∧ (∀ p ∈ found, p ∈ upper) ∧
          below.evaluate d x = .ok lower ∧ point.evaluate d x = .ok lower ∧
          (∀ p, p ∈ lower ↔ ∃ n ∈ ns, n.isAttribute = false ∧
            d.OnAxis .descendantOrSelf n (.element p)) ∧
          ((∀ p ∈ found, p ∈ lower) ↔ ∀ i k, .attributeAt i k ∈ ns →
            ∃ n ∈ ns, n.isAttribute = false ∧ d.OnAxis .descendantOrSelf n (.element i)) := by
  have hself : Continues "/self::node()".toList [.mk .self .anyNode []] :=
    continues_axis (by decide +kernel)
  have hdescendants : Continues "/descendant-or-self::node()".toList
      [.mk .descendantOrSelf .anyNode []] :=
    continues_axis (by decide +kernel)
  have hancestors :
      Continues "/ancestor-or-self::node()".toList [.mk .ancestorOrSelf .anyNode []] :=
    continues_axis (by decide +kernel)
  have hslashes : Continues "//.".toList [.anywhere, .here] := spellsStep_here.doubleSlash
  obtain ⟨alone, halone, haloneExpr⟩ := h.append hself
  obtain ⟨below, hbelow, hbelowExpr⟩ := h.append hdescendants
  obtain ⟨point, hpoint, hpointExpr⟩ := h.append hslashes
  obtain ⟨above, habove, haboveExpr⟩ := h.append hancestors
  refine ⟨alone, below, point, above, halone, hbelow, hpoint, habove, ?_⟩
  intro request raw time serial
  have hd := request.document_inOrder time raw serial
  have hroot := Document.has_root ((request.snapshot time raw).document serial).1
  have hwf := wellFormed_of_compile hbelow hbelowExpr
  have hwfAlone := wellFormed_of_compile halone haloneExpr
  have hwfPoint := wellFormed_of_compile hpoint hpointExpr
  have hwfAbove := wellFormed_of_compile habove haboveExpr
  have haloneValue := eval_start hd.closed halone haloneExpr
  have haloneFound := evaluate_start hd.closed halone haloneExpr
  have hpointFound := evaluate_start hd.closed hpoint hpointExpr
  rw [selected_append_self hd.closed hwfAlone hroot] at haloneValue haloneFound
  rw [selected_append_here hd.closed hwf hwfPoint hroot] at hpointFound
  exact ⟨_, _, _, _, eval_start hd.closed h.compiled h.expr,
    evaluate_start hd.closed h.compiled h.expr, haloneValue, haloneFound,
    evaluate_start hd.closed habove haboveExpr,
    owners_subset_ancestorOrSelf hd.closed hwfAbove hroot,
    evaluate_start hd.closed hbelow hbelowExpr, hpointFound,
    fun p => mem_owners_descendantOrSelf hd hwf, owners_subset_descendantOrSelf_iff hd hwf⟩

/-- The buttons of a window are selected again by a step to themselves. -/
theorem compile_orSelf_buttons :
    let (d, x) := (CaptureRequest.snapshot {} 0 window).document 0
    ∃ q absolute steps alone found, SpellsPath "//Button" q absolute steps ∧
      compile ("//Button" ++ "/self::node()") = .ok alone ∧
        q.evaluate d x = .ok found ∧ alone.evaluate d x = .ok found := by
  obtain ⟨q, absolute, steps, hq, hexpr, hsteps⟩ := exists_path_of_compile
    (p := fun _ steps => !steps.isEmpty)
    (by decide +kernel : (compile "//Button").toOption.any _ = true)
  simp only [Bool.not_eq_true', List.isEmpty_eq_false_iff] at hsteps
  have hpath : SpellsPath "//Button" q absolute steps := ⟨hq, hexpr, hsteps, by decide +kernel⟩
  obtain ⟨alone, _, _, _, halone, _, _, _, hcapture⟩ := compile_orSelf hpath
  obtain ⟨_, found, _, _, _, hfound, _, hsame, _⟩ := hcapture {} window 0 0
  exact ⟨q, absolute, steps, alone, found, hpath, halone, hfound, hsame⟩

/-- A label stands for its button. The axis of descendants leads from the label nowhere, so the path
that goes on along it does not select the button any more, and neither does the one with two slashes
and a point. -/
theorem descendantOrSelf_loses_attribute :
    let raw : RawNode := .mk ⟨some 100, 1⟩ { type := some .button, label := some "a" } (some [])
    let (d, x) := (CaptureRequest.snapshot {} 0 raw).document 0
    ∃ q absolute steps below point, SpellsPath "//@label" q absolute steps ∧
      compile ("//@label" ++ "/descendant-or-self::node()") = .ok below ∧
      compile ("//@label" ++ "//.") = .ok point ∧ q.evaluate d x = .ok [0] ∧
      below.evaluate d x = .ok [] ∧ point.evaluate d x = .ok [] := by
  intro raw
  have hevaluate (text : String) (positions : List Nat)
      (h : (compile text).toOption.any (fun q =>
        (q.evaluate ((CaptureRequest.snapshot {} 0 raw).document 0).1
          ((CaptureRequest.snapshot {} 0 raw).document 0).2).toOption.any
            (· == positions)) = true) :
      ∃ q, compile text = .ok q ∧
        q.evaluate ((CaptureRequest.snapshot {} 0 raw).document 0).1
          ((CaptureRequest.snapshot {} 0 raw).document 0).2 = .ok positions := by
    obtain ⟨q, hq, hfound⟩ := exists_eq_ok_of_toOption_any h
    obtain ⟨found, hvalue, hpositions⟩ := exists_eq_ok_of_toOption_any hfound
    exact ⟨q, hq, beq_iff_eq.mp hpositions ▸ hvalue⟩
  obtain ⟨q, absolute, steps, hq, hexpr, hsteps⟩ := exists_path_of_compile
    (p := fun _ steps => !steps.isEmpty)
    (by decide +kernel : (compile "//@label").toOption.any _ = true)
  simp only [Bool.not_eq_true', List.isEmpty_eq_false_iff] at hsteps
  obtain ⟨q', hq', hfound⟩ := hevaluate "//@label" [0] (by decide +kernel)
  obtain rfl : q = q' := Except.ok.inj (hq.symm.trans hq')
  obtain ⟨below, hbelow, hbelowFound⟩ :=
    hevaluate ("//@label" ++ "/descendant-or-self::node()") [] (by decide +kernel)
  obtain ⟨point, hpoint, hpointFound⟩ := hevaluate ("//@label" ++ "//.") [] (by decide +kernel)
  exact ⟨q, absolute, steps, below, point, ⟨hq, hexpr, hsteps, by decide +kernel⟩, hbelow, hpoint,
    hfound, hbelowFound, hpointFound⟩

end UiTree.Query
