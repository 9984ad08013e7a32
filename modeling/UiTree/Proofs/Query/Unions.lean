import UiTree.Proofs.Query.Abbreviation

/-!
# Texts with bars between them

Two texts that are compiled can be written one after the other with a bar between them. The operands
of the first are followed by those of the second, whatever the two texts look like: a slash alone, a
path, paths with bars between them, or these in parentheses. The query reads the attributes of both
and selects the nodes of both, so neither the order of the texts nor their repetition matters.

## Implementation notes

The last operand of the first text is not read as in that text by itself, where nothing follows it.
So the operands of a text are stated by where the loop of a union stands after them.
-/

namespace UiTree.Query

open DocNode (Ordered)

namespace Parser

variable {ts us : List Token} {parts parts' : List Expr} {e : Expr} {stop : Nat}
  {inner : Parser Expr} {found : List Located}

/-- A list that is read after other items has these before it. -/
theorem repeatWith_itemNext {α : Type} {item : Parser α} {s : Symbol} (before : List α)
    (limit : Nat) (items : List α) (found : List Located) :
    repeatWith (itemNext s item) limit (before ++ items) found =
      repeatWith (itemNext s item) limit items found >>= fun x => .ok (before ++ x.1, x.2) := by
  induction limit generalizing items found with
  | zero => rfl
  | succ limit ih =>
      simp only [repeatWith, itemNext]
      cases eat? s found with
      | none => rfl
      | some ts =>
          simp only [Option.map_some]
          cases item ts with
          | error refusal => rfl
          | ok x =>
              simp only [ok_bind, List.append_assoc]
              exact ih _ _

/-- After some tokens the loop of a union stands with some operands, if no path goes on there. -/
def PartsSpelt (ts : List Token) (parts : List Expr) : Prop :=
  ∀ stop depth, ts.length ≤ depth → ∀ found more, found.map (·.token) = ts → AfterPath more →
    ∃ first after, primary stop (expression stop depth) (found ++ more) = .ok (first, after) ∧
      after.length ≤ (found ++ more).length ∧ ∀ limit, after.length ≤ limit →
        ∃ limit', more.length ≤ limit' ∧
          repeatWith (itemNext .pipe (primary stop (expression stop depth))) limit [first] after =
            repeatWith (itemNext .pipe (primary stop (expression stop depth))) limit' parts more

/-- The operands that were read from some tokens are spelled by these. -/
theorem exists_parts_of_union (hinner : InnerRereads inner)
    (h : union stop (primary stop inner) found = .ok (e, [])) :
    ∃ parts, PartsSpelt (found.map (·.token)) parts ∧ ∀ start, unionOf start parts = .ok e := by
  rw [union_eq] at h
  obtain ⟨⟨parts, _⟩, hparts, h⟩ := bind_eq_ok.mp h
  obtain ⟨_, hvalue, h⟩ := bind_eq_ok.mp h
  cases h
  refine ⟨parts, ?_, unionOf_eq_ok hvalue⟩
  obtain ⟨⟨first, after⟩, hfirst, hloop⟩ := bind_eq_ok.mp hparts
  have hoperand := primary_rereads hinner stop
  obtain ⟨left, hleft, rfl, hreads⟩ := hoperand _ _ _ hfirst
  obtain ⟨-, right, -, hright, harrives⟩ := repeatWith_arrives (fun _ => rfl)
    (itemNext_reruns .pipe hoperand.within) (Nat.le_refl _) hloop
  obtain rfl : after = right := hright.trans (List.append_nil right)
  intro stop depth hdepth found more htokens hmore
  rw [List.length_map, List.length_append] at hdepth
  rw [List.map_append] at htokens
  obtain ⟨left', right', rfl, hleft', hright'⟩ := List.map_eq_append_iff.mp htokens
  have hresumes : Resumes AfterPath after (right' ++ more) := by
    rw [← List.append_nil after]
    exact (Resumes.ended hmore).append hright'
  have hagain : primary stop (expression stop depth) (left' ++ (right' ++ more)) =
      .ok (first, right' ++ more) :=
    hreads stop depth (by omega) left' _ hleft' hresumes
  rw [List.append_assoc]
  refine ⟨first, right' ++ more, hagain, ?_, fun limit hlimit => ?_⟩
  · exact (List.suffix_append left' _).length_le
  · exact harrives stop depth (by omega) right' more hright' (.ended hmore) limit hlimit

/-- Operands with a bar between them and others come before these. -/
theorem PartsSpelt.append (h : PartsSpelt ts parts) (h' : PartsSpelt us parts') :
    PartsSpelt (ts ++ .symbol .pipe :: us) (parts ++ parts') := by
  intro stop depth hdepth found more htokens hmore
  rw [List.length_append, List.length_cons] at hdepth
  obtain ⟨left, others, rfl, hleft, hothers⟩ := List.map_eq_append_iff.mp htokens
  obtain ⟨offset, right, rfl, hright⟩ := exists_of_map_cons hothers
  have hpipe : AfterPath (⟨.symbol .pipe, offset⟩ :: (right ++ more)) :=
    ⟨⟨⟨rfl, rfl⟩, rfl⟩, rfl, rfl, rfl⟩
  obtain ⟨first, after, hfirst, hafter, hloop⟩ := h stop depth (by omega) left _ hleft hpipe
  obtain ⟨first', after', hfirst', hafter', hloop'⟩ :=
    h' stop depth (by omega) right more hright hmore
  rw [List.append_assoc, List.cons_append]
  refine ⟨first, after, hfirst, hafter, fun limit hlimit => ?_⟩
  obtain ⟨limit', hlimit', heq⟩ := hloop limit hlimit
  rw [List.length_cons] at hlimit'
  obtain ⟨limit', rfl⟩ : ∃ k, limit' = k + 1 := ⟨limit' - 1, by omega⟩
  obtain ⟨limit'', hlimit'', heq'⟩ := hloop' limit' (by omega)
  refine ⟨limit'', hlimit'', ?_⟩
  have hnext : itemNext .pipe (primary stop (expression stop depth)) parts
      (⟨.symbol .pipe, offset⟩ :: (right ++ more)) = some (.ok (parts ++ [first'], after')) := by
    rw [itemNext, eat?_self, Option.map_some, hfirst']
    rfl
  rw [heq, repeatWith_step hnext, repeatWith_itemNext, heq', ← repeatWith_itemNext]

/-- Operands are an expression if they may be put together. -/
theorem PartsSpelt.spelt (h : PartsSpelt ts parts) (hvalue : unionOf 0 parts = .ok e) :
    Spelt 5 ts e := by
  intro stop depth hdepth found rest htokens hrest
  obtain ⟨first, after, hfirst, -, hloop⟩ := h stop depth hdepth found rest htokens hrest.afterPath
  obtain ⟨limit, -, heq⟩ := hloop after.length (Nat.le_refl _)
  have hpipe : eat? .pipe rest = none := hrest.eat?_eq_none (by rintro m ⟨⟩; decide)
  have hunion : union stop (primary stop (expression stop depth)) (found ++ rest) =
      .ok (e, rest) := by
    rw [union_eq, hfirst, ok_bind, repeated, heq, repeatWith_stop (itemNext_eq_none_iff.mpr hpipe),
      ok_bind, unionOf_eq_ok hvalue]
    rfl
  exact parserAt_mono (m := 1) (by decide) hunion hrest

end Parser

variable {text text₁ text₂ first first' : String} {texts texts' others others' : List String}
  {q q₁ q₂ r : Compiled} {parts parts₁ parts₂ : List Expr} {e : Expr} {d : Document} {c : Context}
  {ns ns₁ ns₂ : List DocNode}

/-! ### Operands of an expression -/

/-- The operands of a query select nodes. They are the expression alone or those of a union. -/
theorem operands_of_compile (h : compile text = .ok q)
    (hvalue : Parser.unionOf 0 parts = .ok q.expr) :
    parts ≠ [] ∧ Expr.allSelectNodes parts = true ∧ (parts = [q.expr] ∨ q.expr = .union parts) := by
  obtain ⟨hwf, hselects, -⟩ := compile_eq_ok h
  unfold Parser.unionOf at hvalue
  split at hvalue
  · obtain rfl := Except.ok.inj hvalue
    exact ⟨List.cons_ne_nil _ _, by rw [Expr.allSelectNodes, hselects]; rfl, .inl rfl⟩
  · split at hvalue
    · next hall =>
      have hunion := (Except.ok.inj hvalue).symm
      rw [hunion] at hwf
      cases hwf with
      | union two select parts_wf =>
          refine ⟨?_, hall, .inr hunion⟩
          rintro rfl
          cases two
    · cases hvalue

theorem unionOf_append (h₁ : parts₁ ≠ []) (h₂ : parts₂ ≠ [])
    (hall : Expr.allSelectNodes (parts₁ ++ parts₂) = true) :
    Parser.unionOf 0 (parts₁ ++ parts₂) = .ok (.union (parts₁ ++ parts₂)) := by
  unfold Parser.unionOf
  split
  · next part heq =>
    obtain ⟨e, es, rfl⟩ := List.exists_cons_of_ne_nil h₁
    obtain ⟨-, hnil⟩ := List.cons.inj heq
    exact absurd (List.append_eq_nil_iff.mp hnil).2 h₂
  · exact if_pos hall

theorem allRead_append (es es' : List Expr) :
    Expr.allRead (es ++ es') = Expr.allRead es ∪ Expr.allRead es' := by
  induction es with
  | nil => ext a; simp [Expr.allRead]
  | cons e es ih =>
      ext a
      simp only [List.cons_append, Expr.allRead, ih, AttributeSet.mem_union, or_assoc]

theorem reads_eq_allRead (h : parts = [e] ∨ e = .union parts) : e.reads = Expr.allRead parts := by
  obtain rfl | rfl := h
  · ext a
    simp [Expr.allRead]
  · rw [Expr.reads]

theorem evalParts_append (es es' : List Expr) :
    evalParts d (es ++ es') c =
      evalParts d es c >>= fun ns => evalParts d es' c >>= fun ns' => .ok (ns ++ ns') := by
  induction es with
  | nil =>
      rw [List.nil_append, evalParts, ok_bind]
      cases evalParts d es' c <;> rfl
  | cons e es ih =>
      rw [List.cons_append, evalParts, evalParts, ih]
      simp only [bind_assoc, ok_bind, List.append_assoc]

/-- The operands of an expression have the nodes of its value. -/
theorem evalParts_of_eval (h : parts = [e] ∨ e = .union parts)
    (hns : eval d e c = .ok (.nodes ns)) :
    ∃ found, evalParts d parts c = .ok found ∧ ∀ k, k ∈ found ↔ k ∈ ns := by
  obtain rfl | rfl := h
  · refine ⟨ns ++ [], ?_, fun k => by rw [List.append_nil]⟩
    rw [evalParts, evalParts, hns]
    rfl
  · rw [eval] at hns
    obtain ⟨found, hfound, hns⟩ := bind_eq_ok.mp hns
    cases hns
    exact ⟨found, hfound, fun k => DocNode.mem_inOrder.symm⟩

/-! ### Two texts -/

theorem exists_parts_of_compile (h : compile text = .ok q) :
    ∃ ts parts, HasTokens text.toList ts ∧ Parser.PartsSpelt ts parts ∧
      ∀ start, Parser.unionOf start parts = .ok q.expr := by
  obtain ⟨found, stop, depth, hfound, hlevel⟩ := exists_tokens_of_compile h
  have hne (op : Operator) (a b : Expr) : q.expr ≠ .binary op a b := by
    intro heq
    have hselects := (compile_eq_ok h).2.1
    rw [heq] at hselects
    cases hselects
  obtain ⟨parts, hparts, hvalue⟩ := Parser.exists_parts_of_union
    (Parser.expression_rereads stop depth) (Parser.union_of_level hlevel hne)
  exact ⟨_, parts, hasTokens_of_tokens hfound, hparts, hvalue⟩

theorem compile_of_hasTokens {ts : List Token} (htext : HasTokens text.toList ts)
    (h : Parser.Spelt 5 ts e) (hselects : e.selectsNodes = true) :
    compile text = .ok ⟨text, e, .ofList [.type] ∪ e.reads⟩ := by
  rw [compile, parse_of_hasTokens htext h]
  exact if_pos hselects

/-- A bar and a text after another have the tokens of both and a bar between them. -/
theorem HasTokens.bar {ts us : List Token} (h₁ : HasTokens text₁.toList ts)
    (h₂ : HasTokens text₂.toList us) :
    HasTokens (text₁ ++ " | " ++ text₂).toList (ts ++ .symbol .pipe :: us) := by
  have hbar : HasTokens ([' '] ++ (['|'] ++ ([' '] ++ text₂.toList))) (.symbol .pipe :: us) :=
    (h₂.space.cons (.symbol .pipe) fun _ _ => id).space
  rw [String.toList_append, String.toList_append, List.append_assoc]
  exact h₁.append hbar (by rintro _ ⟨⟩; exact setsOff_space) nofun

/-- A query has the attributes and the nodes of two others. -/
structure Compiled.Unites (q q₁ q₂ : Compiled) : Prop where
  attributes : q.attributes = q₁.attributes ∪ q₂.attributes
  nodes : ∀ d c ns₁ ns₂, eval d q₁.expr c = .ok (.nodes ns₁) → eval d q₂.expr c = .ok (.nodes ns₂) →
    eval d q.expr c = .ok (.nodes (DocNode.inOrder (ns₁ ++ ns₂)))

/-- Two texts with a bar between them are compiled to the union of their queries. -/
theorem exists_compile_bar (h₁ : compile text₁ = .ok q₁) (h₂ : compile text₂ = .ok q₂) :
    ∃ q, compile (text₁ ++ " | " ++ text₂) = .ok q ∧ q.Unites q₁ q₂ := by
  obtain ⟨ts, parts₁, htext₁, hspelt₁, hvalue₁⟩ := exists_parts_of_compile h₁
  obtain ⟨us, parts₂, htext₂, hspelt₂, hvalue₂⟩ := exists_parts_of_compile h₂
  obtain ⟨-, -, hattributes₁⟩ := compile_eq_ok h₁
  obtain ⟨-, -, hattributes₂⟩ := compile_eq_ok h₂
  obtain ⟨hne₁, hall₁, hparts₁⟩ := operands_of_compile h₁ (hvalue₁ 0)
  obtain ⟨hne₂, hall₂, hparts₂⟩ := operands_of_compile h₂ (hvalue₂ 0)
  have hall : Expr.allSelectNodes (parts₁ ++ parts₂) = true :=
    Expr.allSelectNodes_iff.mpr (List.forall_mem_append.mpr
      ⟨Expr.allSelectNodes_iff.mp hall₁, Expr.allSelectNodes_iff.mp hall₂⟩)
  have hvalue := unionOf_append hne₁ hne₂ hall
  refine ⟨_, compile_of_hasTokens (htext₁.bar htext₂) ((hspelt₁.append hspelt₂).spelt hvalue) hall,
    ?_, ?_⟩
  · rw [hattributes₁, hattributes₂, reads_eq_allRead hparts₁, reads_eq_allRead hparts₂, Expr.reads,
      allRead_append]
    ext a
    simp only [AttributeSet.mem_union]
    tauto
  · intro d c ns₁ ns₂ hns₁ hns₂
    obtain ⟨found₁, hfound₁, hmem₁⟩ := evalParts_of_eval hparts₁ hns₁
    obtain ⟨found₂, hfound₂, hmem₂⟩ := evalParts_of_eval hparts₂ hns₂
    rw [eval, evalParts_append, hfound₁, hfound₂]
    simp only [ok_bind]
    refine congrArg (Except.ok ∘ Value.nodes) (DocNode.inOrder_congr fun k => ?_)
    rw [List.mem_append, List.mem_append, hmem₁, hmem₂]

/-! ### Several texts -/

/-- A text and others after it, with a bar before each of them. -/
def barred (first : String) (others : List String) : String :=
  others.foldl (fun text other => text ++ " | " ++ other) first

/-- A query has the attributes and the nodes of some texts. -/
structure Compiled.Gathers (q : Compiled) (texts : List String) : Prop where
  attributes : ∀ a, a ∈ q.attributes ↔ ∃ text ∈ texts, ∃ p, compile text = .ok p ∧ a ∈ p.attributes
  nodes : ∀ d : Document, d.Closed → ∀ c, d.Has c.node →
    ∃ ns, eval d q.expr c = .ok (.nodes ns) ∧ Ordered ns ∧
      ∀ k, k ∈ ns ↔ ∃ text ∈ texts, ∃ p ms,
        compile text = .ok p ∧ eval d p.expr c = .ok (.nodes ms) ∧ k ∈ ms

theorem gathers_singleton (h : compile text = .ok q) : q.Gathers [text] := by
  refine ⟨fun a => ?_, fun d hd c hc => ?_⟩
  · simp [h]
  · obtain ⟨ns, hns, -⟩ := exists_nodes_of_compile h hd hc
    refine ⟨ns, hns, eval_ordered hns, fun k => ?_⟩
    simp [h, hns]

theorem Compiled.Unites.gathers (h : q.Unites q₁ q₂) (h₁ : q₁.Gathers texts)
    (h₂ : q₂.Gathers texts') : q.Gathers (texts ++ texts') := by
  have hor {P : String → Prop} :
      (∃ text ∈ texts ++ texts', P text) ↔ (∃ text ∈ texts, P text) ∨ ∃ text ∈ texts', P text := by
    simp only [List.mem_append, or_and_right, exists_or]
  refine ⟨fun a => ?_, fun d hd c hc => ?_⟩
  · rw [hor, h.attributes, AttributeSet.mem_union, h₁.attributes, h₂.attributes]
  · obtain ⟨ns₁, hns₁, -, hmem₁⟩ := h₁.nodes d hd c hc
    obtain ⟨ns₂, hns₂, -, hmem₂⟩ := h₂.nodes d hd c hc
    refine ⟨_, h.nodes d c ns₁ ns₂ hns₁ hns₂, DocNode.inOrder_ordered _, fun k => ?_⟩
    rw [hor, DocNode.mem_inOrder, List.mem_append, hmem₁, hmem₂]

/-- Texts with bars between them are compiled if each of them is, and then they are gathered. -/
theorem exists_compile_barred (h : ∀ text ∈ first :: others, ∃ q, compile text = .ok q) :
    ∃ q, compile (barred first others) = .ok q ∧ q.Gathers (first :: others) := by
  induction others using List.reverseRecOn with
  | nil =>
      obtain ⟨q, hq⟩ := h first List.mem_cons_self
      exact ⟨q, hq, gathers_singleton hq⟩
  | append_singleton others last ih =>
      have hall : ∀ text ∈ (first :: others) ++ [last], ∃ q, compile text = .ok q := h
      obtain ⟨hothers, hlast⟩ := List.forall_mem_append.mp hall
      obtain ⟨q₁, hq₁, hgathers₁⟩ := ih hothers
      obtain ⟨q₂, hq₂⟩ := hlast last (List.mem_singleton_self last)
      obtain ⟨q, hq, hunites⟩ := exists_compile_bar hq₁ hq₂
      refine ⟨q, ?_, hunites.gathers hgathers₁ (gathers_singleton hq₂)⟩
      rw [barred, List.foldl_append]
      exact hq

/-- Only the members of a list of texts matter for what they select together. -/
theorem Compiled.Gathers.selectsLike (hq : compile text = .ok q) (h : q.Gathers texts)
    (h' : r.Gathers texts') (hsame : ∀ text, text ∈ texts ↔ text ∈ texts') :
    q.attributes = r.attributes ∧ q.SelectsLike r := by
  constructor
  · ext a
    simp only [h.attributes, h'.attributes, hsame]
  · refine selectsLike_of_eval_eq hq fun d hd c hc => ?_
    obtain ⟨ns, hns, hordered, hmem⟩ := h.nodes d hd.closed c hc
    obtain ⟨ns', hns', hordered', hmem'⟩ := h'.nodes d hd.closed c hc
    have heq : ns = ns' := hordered.eq_of_mem_iff hordered' fun k => by
      simp only [hmem, hmem', hsame]
    rw [hns, hns', heq]

/-- Two texts that are compiled are compiled with a bar between them, too. The query reads the
attributes of both, and selects from every capture, in ascending order and each once, the elements
that one of the two selects. So however often and in whatever order some texts are written, with
bars between them, they read the same attributes and select alike. -/
theorem compile_barred (h₁ : compile text₁ = .ok q₁) (h₂ : compile text₂ = .ok q₂) :
    (∃ q, compile (text₁ ++ " | " ++ text₂) = .ok q ∧ q.attributes = q₁.attributes ∪ q₂.attributes ∧
      ∀ (request : CaptureRequest) (raw : RawNode) (time serial : Nat),
        let (d, x) := (request.snapshot time raw).document serial
        ∃ positions₁ positions₂ positions, q₁.evaluate d x = .ok positions₁ ∧
          q₂.evaluate d x = .ok positions₂ ∧ q.evaluate d x = .ok positions ∧
            positions.Pairwise (· < ·) ∧
              ∀ p, p ∈ positions ↔ p ∈ positions₁ ∨ p ∈ positions₂) ∧
    ∀ first others first' others', (∀ text ∈ first :: others, ∃ q, compile text = .ok q) →
      (∀ text, text ∈ first' :: others' ↔ text ∈ first :: others) →
        ∃ q r, compile (barred first others) = .ok q ∧ compile (barred first' others') = .ok r ∧
          q.attributes = r.attributes ∧ q.SelectsLike r := by
  constructor
  · obtain ⟨q, hq, hunites⟩ := exists_compile_bar h₁ h₂
    refine ⟨q, hq, hunites.attributes, fun request raw time serial => ?_⟩
    have hd := snapshot_document_closed request raw time serial
    obtain ⟨ns₁, hns₁, hhas₁⟩ := exists_nodes_of_compile h₁ hd (c := .start) trivial
    obtain ⟨ns₂, hns₂, hhas₂⟩ := exists_nodes_of_compile h₂ hd (c := .start) trivial
    have hns := hunites.nodes _ _ ns₁ ns₂ hns₁ hns₂
    have hhas : ∀ n ∈ DocNode.inOrder (ns₁ ++ ns₂),
        ((request.snapshot time raw).document serial).1.Has n := by
      intro n hn
      exact (List.mem_append.mp (DocNode.mem_inOrder.mp hn)).elim (hhas₁ n) (hhas₂ n)
    refine ⟨_, _, _, evaluate_of_eval hns₁ hhas₁, evaluate_of_eval hns₂ hhas₂,
      evaluate_of_eval hns hhas, Ascending.pairwise_ofList_lt _, fun p => ?_⟩
    simp only [DocNode.mem_owners, DocNode.mem_inOrder, List.mem_append, or_and_right, exists_or]
  · intro first others first' others' h hsame
    obtain ⟨q, hq, hgathers⟩ := exists_compile_barred h
    obtain ⟨r, hr, hgathers'⟩ := exists_compile_barred fun text ht => h text ((hsame text).mp ht)
    exact ⟨q, r, hq, hr, hgathers.selectsLike hq hgathers' fun text => (hsame text).symm⟩

/-- A root in parentheses with cells, and the labels of buttons with the root, in two orders. -/
theorem compile_barred_root :
    let cells := "(/ | //Cell)"
    let labels := "//Button/@label | /"
    ∃ q₁ q₂, compile cells = .ok q₁ ∧ compile labels = .ok q₂ ∧
      (∃ q, compile (cells ++ " | " ++ labels) = .ok q ∧
        q.attributes = q₁.attributes ∪ q₂.attributes) ∧
      ∃ q r, compile (barred cells [labels]) = .ok q ∧
        compile (barred labels [cells, labels]) = .ok r ∧ q.attributes = r.attributes ∧
          q.SelectsLike r := by
  intro cells labels
  obtain ⟨q₁, h₁⟩ := exists_eq_ok_of_isOk (x := compile cells) (by decide +kernel)
  obtain ⟨q₂, h₂⟩ := exists_eq_ok_of_isOk (x := compile labels) (by decide +kernel)
  obtain ⟨⟨q, hq, hattributes, -⟩, hmembers⟩ := compile_barred h₁ h₂
  refine ⟨q₁, q₂, h₁, h₂, ⟨q, hq, hattributes⟩, ?_⟩
  refine hmembers cells [labels] labels [cells, labels] ?_ ?_
  · simp only [List.forall_mem_cons]
    exact ⟨⟨q₁, h₁⟩, ⟨q₂, h₂⟩, fun _ ht => absurd ht List.not_mem_nil⟩
  · intro text
    simp only [List.mem_cons, List.not_mem_nil, or_false]
    tauto

end UiTree.Query
