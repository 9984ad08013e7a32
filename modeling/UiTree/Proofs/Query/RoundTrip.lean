import UiTree.Proofs.Query.Grammar
import UiTree.Proofs.Query.Printer
import UiTree.Proofs.Predicate.RoundTrip

/-!
# Printing and parsing

A printed expression is parsed as that expression. The tokens it is printed as spell it by the
productions of the grammar, and the text is read as these tokens, as far as its numbers and
literals can be written at all. This is so for every expression that a text spells, as its numbers
and literals are those of the text.
-/

namespace UiTree.Query

/-- Whether some characters are a name. -/
def isNameText : List Char → Bool
  | [] => false
  | c :: more => isNameStart c && nameRest more == more

theorem isName_of_isNameText {cs : List Char} (h : isNameText cs = true) : IsName cs := by
  cases cs with
  | nil => cases h
  | cons c more =>
      simp only [isNameText, Bool.and_eq_true, beq_iff_eq] at h
      exact ⟨c, more, rfl, h.1, h.2⟩

/-- Letters of the English alphabet are a name. -/
theorem isName_of_isAlpha {cs : List Char} (hne : cs ≠ []) (h : ∀ c ∈ cs, c.isAlpha = true) :
    IsName cs := by
  have hstart {c : Char} (hc : c.isAlpha = true) : isNameStart c = true := by
    rw [isNameStart, Text.isAlphabetic_of_isAlpha hc, Bool.true_or]
  have hrest : ∀ more : List Char, (∀ c ∈ more, c.isAlpha = true) → nameRest more = more := by
    intro more hmore
    induction more with
    | nil => rfl
    | cons d more ih =>
        obtain ⟨hd, hmore⟩ := List.forall_mem_cons.mp hmore
        have hne : (d == '.') = false := by
          rw [beq_eq_false_iff_ne]
          rintro rfl
          cases hd
        rw [nameRest, isNameChar_of_isNameStart (hstart hd), hne, ih hmore]
        rfl
  obtain ⟨c, more, rfl⟩ := List.exists_cons_of_ne_nil hne
  obtain ⟨hc, hmore⟩ := List.forall_mem_cons.mp h
  exact ⟨c, more, rfl, hstart hc, hrest more hmore⟩

theorem isName_documentName (t : ElementType) : IsName t.documentName.toList :=
  isName_of_isAlpha t.documentName_ne_nil fun _ => ElementType.isAlpha_of_mem_documentName

theorem isName_attribute (a : DocumentAttribute) : IsName a.documentName.toList := by
  cases a <;> exact isName_of_isNameText (by decide)

theorem isName_axis (a : Axis) : IsName a.name.toList := by
  cases a <;> exact isName_of_isNameText (by decide)

theorem isName_function (f : Function) : IsName f.name.toList := by
  cases f <;> exact isName_of_isNameText (by decide)

variable {o : Orthography} {e : Expr} {n : Nat}

theorem allTokens_eq_map (o : Orthography) (n : Nat) (es : List Expr) :
    Expr.allTokens o n es = es.map fun e => enclosed (n < e.tier) (e.tokens o) := by
  induction es with
  | nil => rfl
  | cons e es ih => rw [Expr.allTokens, ih, List.map_cons]

theorem stepTokens_eq_map (o : Orthography) (ss : List Step) :
    Step.allTokens o ss = ss.map (Step.tokens o) := by
  induction ss with
  | nil => rfl
  | cons s ss ih => rw [Step.allTokens, ih, List.map_cons]

theorem tier_le_six (e : Expr) : e.tier ≤ 6 := by
  unfold Expr.tier
  split
  · next op _ _ => exact Nat.le_succ_of_le (Parser.tier_le op)
  · decide
  · decide
  · decide

/-- The tokens of an expression spell it, and an operand of its own operator may be joined to
more. -/
structure Printed (o : Orthography) (e : Expr) : Prop where
  spelt : Parser.Spelt (min e.tier 5) (e.tokens o) e
  leads : ∀ n, e.tier = n + 2 → n + 2 ≤ 5 → Parser.Leads n (e.tokens o) e

namespace Printed

/-- As an operand of a tier, an expression beyond it is put into parentheses. -/
theorem operand (h : Printed o e) (n : Nat) :
    Parser.Spelt n (enclosed (n < e.tier) (e.tokens o)) e := by
  by_cases hlt : n < e.tier
  · rw [enclosed, if_pos (decide_eq_true hlt)]
    exact (h.spelt.mono (Nat.min_le_right _ _)).paren.mono (Nat.zero_le n)
  · rw [enclosed, if_neg (by simpa using hlt)]
    exact h.spelt.mono (by omega)

/-- As an argument or a predicate, an expression is never put into parentheses. -/
theorem whole (h : Printed o e) : Parser.Spelt 5 (enclosed (6 < e.tier) (e.tokens o)) e := by
  rw [enclosed, if_neg (by simpa using tier_le_six e)]
  exact h.spelt.mono (Nat.min_le_right _ _)

/-- As the left operand of an operator, an expression of the same tier begins a chain. -/
theorem leftOperand (h : Printed o e) (hn : n + 2 ≤ 5) :
    Parser.Leads n (enclosed (n + 2 < e.tier) (e.tokens o)) e := by
  rcases Nat.lt_trichotomy e.tier (n + 2) with hlt | heq | hgt
  · have hspelt := (h.operand (n + 1)).leads
    simpa only [enclosed, show ¬ n + 1 < e.tier by omega, show ¬ n + 2 < e.tier by omega]
      using hspelt
  · rw [enclosed, if_neg (by simp [heq])]
    exact h.leads n heq hn
  · rw [enclosed, if_pos (by simpa using hgt)]
    exact ((h.spelt.mono (Nat.min_le_right _ _)).paren.mono (Nat.zero_le (n + 1))).leads

end Printed

/-- An expression with its tokens, in parentheses if it is beyond a tier. -/
def Expr.withTokens (o : Orthography) (n : Nat) (e : Expr) : List Token × Expr :=
  (enclosed (n < e.tier) (e.tokens o), e)

theorem map_fst_withTokens (o : Orthography) (n : Nat) (es : List Expr) :
    (es.map (Expr.withTokens o n)).map Prod.fst = Expr.allTokens o n es := by
  rw [allTokens_eq_map, List.map_map]
  rfl

theorem map_snd_withTokens (o : Orthography) (n : Nat) (es : List Expr) :
    (es.map (Expr.withTokens o n)).map Prod.snd = es := by
  rw [List.map_map]
  exact List.map_id es

/-- A step with its tokens. -/
def Step.withTokens (o : Orthography) (s : Step) : List Token × Step :=
  (s.tokens o, s)

theorem map_fst_stepWithTokens (o : Orthography) (ss : List Step) :
    (ss.map (Step.withTokens o)).map Prod.fst = Step.allTokens o ss := by
  rw [stepTokens_eq_map, List.map_map]
  rfl

theorem map_snd_stepWithTokens (o : Orthography) (ss : List Step) :
    (ss.map (Step.withTokens o)).map Prod.snd = ss := by
  rw [List.map_map]
  exact List.map_id ss

theorem ofName?_attributeName (a : DocumentAttribute) :
    DocumentAttribute.ofName? a.documentName = some a := by
  cases a <;> decide

theorem NodeTest.Fits.testSpelt {a : Axis} {test : NodeTest} (h : test.Fits a)
    (o : Orthography) : Parser.TestSpelt a (test.tokens o) test := by
  cases test with
  | anyNode => exact .anyNode
  | anyName => exact .anyName
  | element type =>
      have hspelt (name : String) :
          Parser.TestSpelt a [.name name] (.element (ElementType.ofName? name)) := .element h
      cases type with
      | none =>
          have hstranger := hspelt o.stranger
          rwa [o.noType] at hstranger
      | some t =>
          have hdocument := hspelt t.documentName
          rwa [ElementType.ofName?_documentName] at hdocument
  | named a => exact .named h (ofName?_attributeName a)

/-- A step is spelled by its tokens if its predicates are. -/
theorem stepSpelt {s : Step} (fits : s.test.Fits s.axis)
    (h : ∀ e ∈ s.predicates, Printed o e) : Parser.StepSpelt (s.tokens o) s := by
  obtain ⟨axis, test, predicates⟩ := s
  refine ⟨[.name axis.name, .symbol .doubleColon], test.tokens o,
    predicates.map (Expr.withTokens o 6), .named, fits.testSpelt o, ?_,
    (map_snd_withTokens o 6 predicates).symm, ?_⟩
  · exact List.forall_mem_map.mpr fun e he => (h e he).whole
  · rw [map_fst_withTokens]
    rfl

theorem printed_binary {op : Operator} {a b : Expr} (ha : Printed o a) (hb : Printed o b) :
    Printed o (.binary op a b) := by
  obtain ⟨n, hn⟩ : ∃ n, op.tier = n + 2 := by
    cases op <;> exact ⟨_, rfl⟩
  have hle : n + 2 ≤ 5 := hn ▸ Parser.tier_le op
  have hleads : Parser.Leads n ((Expr.binary op a b).tokens o) (.binary op a b) := by
    rw [Expr.tokens, hn]
    exact (ha.leftOperand hle).binary hn (hb.operand (n + 1))
  have htier : (Expr.binary op a b).tier = n + 2 := hn
  refine ⟨?_, ?_⟩
  · rw [htier, Nat.min_eq_left hle]
    exact hleads.spelt
  · intro m hm _
    obtain rfl : n = m := by omega
    exact hleads

theorem printed_union {parts : List Expr} (two : 2 ≤ parts.length)
    (select : ∀ e ∈ parts, e.selectsNodes = true) (h : ∀ e ∈ parts, Printed o e) :
    Printed o (.union parts) := by
  have hunion : Parser.Spelt 1
      (separated (.symbol .pipe) ((parts.map (Expr.withTokens o 0)).map Prod.fst))
      (.union ((parts.map (Expr.withTokens o 0)).map Prod.snd)) := by
    refine .union ?_ ?_ ?_
    · rwa [List.length_map]
    · exact List.forall_mem_map.mpr select
    · exact List.forall_mem_map.mpr fun e he => (h e he).operand 0
  rw [map_fst_withTokens, map_snd_withTokens] at hunion
  exact ⟨hunion, fun n hn => nomatch hn⟩

/-- The root alone is an expression, and every other path is an operand. -/
theorem printed_path {absolute : Bool} {steps : List Step}
    (start : absolute = false → steps ≠ []) (h : ∀ s ∈ steps, Parser.StepSpelt (s.tokens o) s) :
    Printed o (.path absolute steps) := by
  by_cases hroot : absolute = true ∧ steps = []
  · obtain ⟨rfl, rfl⟩ := hroot
    refine ⟨Parser.spelt_root, fun n hn hle => ?_⟩
    have hsix : 6 = n + 2 := hn
    omega
  · have hne : steps ≠ [] := by
      cases absolute with
      | false => exact start rfl
      | true => exact fun hnil => hroot ⟨rfl, hnil⟩
    have htier : (Expr.path absolute steps).tier = 0 := by
      unfold Expr.tier
      split <;> simp_all
    have hpath : Parser.Spelt 0 ((Expr.path absolute steps).tokens o) (.path absolute steps) := by
      have hitems : steps.map (Step.withTokens o) ≠ [] := by simpa using hne
      have hspelt : ∀ p ∈ steps.map (Step.withTokens o), Parser.StepSpelt p.1 p.2 :=
        List.forall_mem_map.mpr h
      cases absolute with
      | false =>
          have hrelative := Parser.spelt_relative hitems hspelt
          rwa [map_fst_stepWithTokens, map_snd_stepWithTokens] at hrelative
      | true =>
          have habsolute := Parser.spelt_absolute hitems hspelt
          rwa [map_fst_stepWithTokens, map_snd_stepWithTokens] at habsolute
    refine ⟨?_, fun n hn => nomatch htier.symm.trans hn⟩
    rwa [htier]

theorem printed_call {f : Function} {es : List Expr} (accepts : f.accepts es.length = true)
    (counts : f = .count → ∀ e ∈ es, e.selectsNodes = true) (h : ∀ e ∈ es, Printed o e) :
    Printed o (.call f es) := by
  have hcall : Parser.Spelt 0
      (.name f.name :: .symbol .openParen ::
        (separated (.symbol .comma) ((es.map (Expr.withTokens o 6)).map Prod.fst) ++
          [.symbol .closeParen]))
      (.call f ((es.map (Expr.withTokens o 6)).map Prod.snd)) := by
    refine .call f ?_ ?_ ?_
    · rwa [List.length_map]
    · exact fun hf => List.forall_mem_map.mpr (counts hf)
    · exact List.forall_mem_map.mpr fun e he => (h e he).whole
  rw [map_fst_withTokens, map_snd_withTokens] at hcall
  exact ⟨hcall, fun n hn => nomatch hn⟩

/-- A well-formed expression is spelled by its tokens. -/
theorem Expr.WellFormed.printed (o : Orthography) (h : e.WellFormed) : Printed o e := by
  induction h with
  | binary _ _ iha ihb => exact printed_binary iha ihb
  | union two select _ ih => exact printed_union two select ih
  | path start fits _ ih =>
      exact printed_path start fun s hs => stepSpelt (fits s hs) (ih s hs)
  | literal => exact ⟨Parser.spelt_literal _, fun n hn => nomatch hn⟩
  | number => exact ⟨Parser.spelt_number _, fun n hn => nomatch hn⟩
  | call accepts counts _ ih => exact printed_call accepts counts ih

section Spelling

variable {P : Token → Prop} {ts : List Token}

theorem forall_mem_enclosed (needed : Bool) (hsymbol : ∀ s, P (.symbol s))
    (h : ∀ t ∈ ts, P t) : ∀ t ∈ enclosed needed ts, P t := by
  cases needed with
  | false => exact h
  | true =>
      refine List.forall_mem_cons.mpr ⟨hsymbol _, List.forall_mem_append.mpr ⟨h, ?_⟩⟩
      exact List.forall_mem_singleton.mpr (hsymbol _)

theorem forall_mem_separated {sep : Token} {groups : List (List Token)} (hsep : P sep)
    (h : ∀ group ∈ groups, ∀ t ∈ group, P t) : ∀ t ∈ separated sep groups, P t := by
  cases groups with
  | nil => exact fun t ht => nomatch ht
  | cons group groups =>
      obtain ⟨hfirst, hothers⟩ := List.forall_mem_cons.mp h
      refine List.forall_mem_append.mpr ⟨hfirst, fun t ht => ?_⟩
      obtain ⟨other, hother, ht⟩ := List.mem_flatMap.mp ht
      rcases List.mem_cons.mp ht with rfl | ht
      · exact hsep
      · exact hothers other hother t ht

theorem forall_mem_bracketed {groups : List (List Token)} (hsymbol : ∀ s, P (.symbol s))
    (h : ∀ group ∈ groups, ∀ t ∈ group, P t) : ∀ t ∈ bracketed groups, P t := by
  intro t ht
  obtain ⟨group, hgroup, ht⟩ := List.mem_flatMap.mp ht
  rcases List.mem_cons.mp ht with rfl | ht
  · exact hsymbol _
  · refine List.forall_mem_append.mpr ⟨h group hgroup, ?_⟩ t ht
    exact List.forall_mem_singleton.mpr (hsymbol _)

end Spelling

theorem spells_test (o : Orthography) (test : NodeTest) : ∀ t ∈ test.tokens o, o.Spells t := by
  have hname {name : String} (h : IsName name.toList) : ∀ t ∈ [Token.name name], o.Spells t :=
    List.forall_mem_singleton.mpr h
  cases test with
  | anyNode =>
      have hnode : IsName "node".toList := isName_of_isNameText (by decide)
      simpa [NodeTest.tokens, Orthography.Spells] using hnode
  | anyName => exact List.forall_mem_singleton.mpr trivial
  | named a => exact hname (isName_attribute a)
  | element type =>
      cases type with
      | none => exact hname o.isName
      | some t => exact hname (isName_documentName t)

/-- Every token of an expression has a spelling if its numbers and literals have. -/
theorem Expr.AtomsIn.spells (h : e.AtomsIn o.Spells) : ∀ t ∈ e.tokens o, o.Spells t := by
  have hsymbol (s : Symbol) : o.Spells (.symbol s) := trivial
  have hall {n : Nat} {es : List Expr} (hes : ∀ e ∈ es, ∀ t ∈ e.tokens o, o.Spells t) :
      ∀ group ∈ Expr.allTokens o n es, ∀ t ∈ group, o.Spells t := by
    rw [allTokens_eq_map]
    exact List.forall_mem_map.mpr fun e he => forall_mem_enclosed _ hsymbol (hes e he)
  induction h with
  | @binary op a b _ _ iha ihb =>
      have hop : o.Spells op.token := by
        cases op <;> first | exact trivial | exact isName_of_isNameText (by decide)
      refine List.forall_mem_append.mpr ⟨forall_mem_enclosed _ hsymbol iha, ?_⟩
      exact List.forall_mem_cons.mpr ⟨hop, forall_mem_enclosed _ hsymbol ihb⟩
  | union _ ih => exact forall_mem_separated (hsymbol _) (hall ih)
  | @path absolute steps _ ih =>
      refine List.forall_mem_append.mpr ⟨?_, forall_mem_separated (hsymbol _) ?_⟩
      · cases absolute with
        | false => exact fun t ht => nomatch ht
        | true => exact List.forall_mem_singleton.mpr (hsymbol _)
      · rw [stepTokens_eq_map]
        refine List.forall_mem_map.mpr ?_
        rintro ⟨axis, test, predicates⟩ hs
        refine List.forall_mem_append.mpr ⟨?_, List.forall_mem_append.mpr ⟨spells_test o test, ?_⟩⟩
        · refine List.forall_mem_cons.mpr ⟨isName_axis axis, ?_⟩
          exact List.forall_mem_singleton.mpr (hsymbol _)
        · exact forall_mem_bracketed hsymbol (hall (ih _ hs))
  | literal h => exact List.forall_mem_singleton.mpr h
  | number h => exact List.forall_mem_singleton.mpr h
  | @call f arguments _ ih =>
      refine List.forall_mem_cons.mpr ⟨isName_function f, List.forall_mem_cons.mpr ⟨hsymbol _, ?_⟩⟩
      refine List.forall_mem_append.mpr ⟨forall_mem_separated (hsymbol _) (hall ih), ?_⟩
      exact List.forall_mem_singleton.mpr (hsymbol _)

/-- A text whose tokens spell an expression is parsed as the expression. -/
theorem parse_of_hasTokens {text : String} {ts : List Token} (htext : HasTokens text.toList ts)
    (h : Parser.Spelt 5 ts e) : parse text = .ok e := by
  obtain ⟨found, hfound, htokens⟩ := htext 0
  rw [parse, tokenize, hfound]
  exact parseTokens_of_spelt h _ htokens

/-- Every text that spells the tokens of an expression is parsed as the expression. -/
theorem parse_of_spells {text : String} {ts : List Token} (htext : Spells ts text.toList)
    (h : Parser.Spelt 5 ts e) : parse text = .ok e :=
  parse_of_hasTokens (tokens_of_spells htext) h

/-- What has a spelling at all has one in some orthography. -/
theorem exists_orthography :
    ∃ o : Orthography, ∀ (t : Token) (text : List Char), t.Spelled text → o.Spells t := by
  have hnumeral (x : Float) : ∃ n : Numeral, ∀ m : Numeral, m.value = x → n.value = x := by
    by_cases hx : ∃ m : Numeral, m.value = x
    · obtain ⟨m, hm⟩ := hx
      exact ⟨m, fun _ _ => hm⟩
    · have hzero : ∀ c ∈ ['0'], c.isDigit = true := List.forall_mem_singleton.mpr rfl
      exact ⟨⟨['0'], none, hzero, List.cons_ne_nil _ _⟩, fun m hm => absurd ⟨m, hm⟩ hx⟩
  obtain ⟨numeral, hnumeral⟩ := Classical.axiomOfChoice hnumeral
  refine ⟨⟨numeral, "Unknown", isName_of_isNameText (by decide), by decide⟩, ?_⟩
  intro t text h
  cases h with
  | symbol => exact trivial
  | literal hquote hbody =>
      rw [Orthography.Spells, String.toList_ofList]
      rcases hquote with rfl | rfl
      · exact .inl hbody
      · exact .inr hbody
  | number n => exact hnumeral _ n rfl
  | name h =>
      rw [Orthography.Spells, String.toList_ofList]
      exact h

/-- A printed expression is parsed as that expression, however its numbers are written. The
expressions that are parsed from a text are the well-formed ones whose numbers can be written and
whose literals can be quoted. -/
theorem parse_print (e : Expr) :
    ((∃ text, parse text = .ok e) ↔ ∃ o : Orthography, e.ReadFrom o.Spells) ∧
      ∀ o : Orthography, e.ReadFrom o.Spells → parse (e.print o) = .ok e := by
  have hprint (o : Orthography) (h : e.ReadFrom o.Spells) : parse (e.print o) = .ok e := by
    have htext : Spells (e.tokens o) (e.print o).toList := by
      rw [Expr.print, String.toList_ofList]
      exact spells_layout h.atoms.spells
    exact parse_of_spells htext ((h.wellFormed.printed o).spelt.mono (Nat.min_le_right _ _))
  refine ⟨⟨?_, ?_⟩, hprint⟩
  · rintro ⟨text, htext⟩
    obtain ⟨o, ho⟩ := exists_orthography
    refine ⟨o, readFrom_of_parse (fun ts hts t ht => ?_) htext⟩
    obtain ⟨spelling, hspelling⟩ := spelled_of_tokens hts t ht
    exact ho _ _ hspelling
  · rintro ⟨o, ho⟩
    exact ⟨e.print o, hprint o ho⟩

/-- An orthography in which a keyword stands for no type, and every number is written as a one. -/
def keywordOrthography : Orthography where
  numeral _ := ⟨['1'], none, List.forall_mem_singleton.mpr rfl, List.cons_ne_nil _ _⟩
  stranger := "or"
  isName := isName_of_isNameText (by decide)
  noType := by decide

/-- A root that is an operand, a union in a union, and a keyword that is the name of a type. -/
def rootEqualsUnion : Expr :=
  .binary .equal (.path true [])
    (.binary .or
      (.union [.path true [.mk .child (.element (some .button)) []],
        .union [.path true [.mk .child .anyName []], .path false [.mk .child (.element none) []]]])
      (.number (numberValue (['1'], none))))

theorem parse_print_rootEqualsUnion :
    rootEqualsUnion.print keywordOrthography =
        "(/) = (/child::XCUIElementTypeButton | (/child::* | child:: or ) or 1)" ∧
      parse (rootEqualsUnion.print keywordOrthography) = .ok rootEqualsUnion := by
  refine ⟨by decide +kernel, (parse_print rootEqualsUnion).2 keywordOrthography ⟨?_, ?_⟩⟩
  · have hstep {test : NodeTest} {absolute : Bool} (h : test.Fits .child) :
        (Expr.path absolute [.mk .child test []]).WellFormed :=
      .path (fun _ => List.cons_ne_nil _ _) (List.forall_mem_singleton.mpr h)
        (List.forall_mem_singleton.mpr fun _ he => nomatch he)
    refine .binary (.path nofun (fun _ hs => nomatch hs) (fun _ hs => nomatch hs)) ?_
    refine .binary (.union (by decide) (by decide) ?_) .number
    simp only [List.forall_mem_cons]
    refine ⟨hstep nofun, .union (by decide) (by decide) ?_, fun _ he => nomatch he⟩
    simp only [List.forall_mem_cons]
    exact ⟨hstep trivial, hstep nofun, fun _ he => nomatch he⟩
  · have hstep {test : NodeTest} {absolute : Bool} :
        (Expr.path absolute [.mk .child test []]).AtomsIn keywordOrthography.Spells :=
      .path (List.forall_mem_singleton.mpr fun _ he => nomatch he)
    have hnumber : (keywordOrthography.numeral (numberValue (['1'], none))).value =
        numberValue (['1'], none) := (Numeral.numberValue_parts _).symm
    refine .binary (.path fun _ hs => nomatch hs) (.binary (.union ?_) (.number hnumber))
    simp only [List.forall_mem_cons]
    refine ⟨hstep, .union ?_, fun _ he => nomatch he⟩
    simp only [List.forall_mem_cons]
    exact ⟨hstep, hstep, fun _ he => nomatch he⟩

end UiTree.Query
