import UiTree.Proofs.Query.Reading

/-!
# The grammar of expressions

Some tokens spell an expression at a tier if the parser of that tier reads them as the expression.
There is a production for each kind of expression, of step, of axis and of test: it says how the
spellings of the parts are put together to a spelling of the whole.

## Implementation notes

Operators group from the left, so an operand that is joined to more leaves the loop of its tier
running. This is why a chain of operands is stated by where the loop stands after it.
-/

namespace UiTree.Query

namespace Parser

variable {α : Type} {m n : Nat} {rest : List Located}

/-- What a joining loop does with an operator and its second operand. -/
def joinNext (ops : List Operator) (operand : Parser Expr) (left : Expr) (ts : List Located) :
    Option (Except Refusal (Expr × List Located)) :=
  (operatorOf? ops ts).map fun (op, ts) => do
    let (right, ts) ← operand ts
    .ok (.binary op left right, ts)

theorem joined_eq (ops : List Operator) (operand : Parser Expr) (ts : List Located) :
    joined ops operand ts = operand ts >>= fun x =>
      repeatWith (joinNext ops operand) x.2.length x.1 x.2 := rfl

/-- Some tokens spell an expression as the first operands of a tier: after them the loop of the
tier stands with the expression, whatever operators of the tier follow. -/
def Leads (n : Nat) (ts : List Token) (e : Expr) : Prop :=
  ∀ stop depth, ts.length ≤ depth → ∀ found more, found.map (·.token) = ts → Ends (n + 1) more →
    ∃ limit, more.length ≤ limit ∧
      parserAt stop (expression stop depth) (n + 2) (found ++ more) =
        repeatWith (joinNext (operatorsAt (n + 2)) (parserAt stop (expression stop depth) (n + 1)))
          limit e more

variable {ts us : List Token} {e e' : Expr}

/-- An operand begins a chain of operands. -/
theorem Spelt.leads (h : Spelt (n + 1) ts e) : Leads n ts e := by
  intro stop depth hdepth found more hfound hmore
  refine ⟨more.length, Nat.le_refl _, ?_⟩
  rw [parserAt, joined_eq, h stop depth hdepth found more hfound hmore]
  rfl

/-- A chain goes on with an operator and an operand. -/
theorem Leads.binary {op : Operator} (h : Leads n ts e) (hop : op.tier = n + 2)
    (h' : Spelt (n + 1) us e') : Leads n (ts ++ op.token :: us) (.binary op e e') := by
  intro stop depth hdepth found more hfound hmore
  rw [List.length_append, List.length_cons] at hdepth
  obtain ⟨left, joined, rfl, hleft, hjoined⟩ := List.map_eq_append_iff.mp hfound
  obtain ⟨offset, right, rfl, hright⟩ := exists_of_map_cons hjoined
  have hends : Ends (n + 1) (⟨op.token, offset⟩ :: (right ++ more)) :=
    ends_cons (tier?_of_operator? (operator?_token op)) (by omega)
  obtain ⟨limit, hlimit, heq⟩ := h stop depth (by omega) left _ hleft hends
  have hnext : joinNext (operatorsAt (n + 2)) (parserAt stop (expression stop depth) (n + 1)) e
      (⟨op.token, offset⟩ :: (right ++ more)) = some (.ok (.binary op e e', more)) := by
    have hmem : (operatorsAt (n + 2)).contains op = true :=
      List.contains_iff_mem.mpr (mem_operatorsAt.mpr hop)
    rw [joinNext, operatorOf?]
    simp only [operator?_token, hmem, if_true, Option.map_some]
    rw [h' stop depth (by omega) right more hright hmore]
    rfl
  rw [List.length_cons] at hlimit
  obtain ⟨limit, rfl⟩ : ∃ k, limit = k + 1 := ⟨limit - 1, by omega⟩
  refine ⟨limit, ?_, ?_⟩
  · rw [List.length_append] at hlimit
    omega
  · rw [List.append_assoc, List.cons_append, heq, repeatWith_step hnext]

/-- A chain that no operator of the tier follows is an expression of the tier. -/
theorem Leads.spelt (h : Leads n ts e) : Spelt (n + 2) ts e := by
  intro stop depth hdepth found rest hfound hrest
  obtain ⟨limit, -, heq⟩ := h stop depth hdepth found rest hfound (hrest.mono (by omega))
  rw [heq]
  refine repeatWith_stop ?_ limit
  rw [joinNext, hrest.operatorOf?_eq_none (Nat.le_refl _)]
  rfl

/-- Operands that select nodes, joined by bars, spell their union. -/
theorem Spelt.union {parts : List (List Token × Expr)} (htwo : 2 ≤ parts.length)
    (hselect : ∀ p ∈ parts, p.2.selectsNodes = true) (h : ∀ p ∈ parts, Spelt 0 p.1 p.2) :
    Spelt 1 (separated (.symbol .pipe) (parts.map Prod.fst)) (.union (parts.map Prod.snd)) := by
  intro stop depth hdepth found rest hfound hrest
  obtain ⟨first, others, rfl, hne⟩ : ∃ first others, parts = first :: others ∧ others ≠ [] := by
    match parts, htwo with
    | first :: second :: others, _ => exact ⟨first, second :: others, rfl, by simp⟩
  rw [List.map_cons, separated, List.flatMap_map] at hfound hdepth
  obtain ⟨left, right, rfl, hleft, hright⟩ := List.map_eq_append_iff.mp hfound
  rw [List.length_append] at hdepth
  have hpipe : eat? .pipe rest = none :=
    hrest.eat?_eq_none (by rintro m ⟨⟩; exact Nat.le_refl 1)
  have hmore : Ends 0 (right ++ rest) := by
    cases others with
    | nil => exact absurd rfl hne
    | cons p others =>
        obtain ⟨offset, right, rfl, -⟩ := exists_of_map_cons hright
        exact ends_cons rfl Nat.one_pos
  have hfirst : primary stop (expression stop depth) (left ++ (right ++ rest)) =
      .ok (first.2, right ++ rest) :=
    h first List.mem_cons_self stop depth (by omega) left _ hleft hmore
  rw [parserAt, Parser.union, List.append_assoc]
  simp only [hfirst, ok_bind]
  rw [repeated_items ?_ ?_ (hrest.mono (Nat.zero_le 1)) ?_ hright]
  · have hall : Expr.allSelectNodes ((first :: others).map Prod.snd) = true := by
      rw [Expr.allSelectNodes_iff]
      exact List.forall_mem_map.mpr hselect
    cases others with
    | nil => exact absurd rfl hne
    | cons p others => exact if_pos hall
  · intro x hx before offset found more hfound hmore
    have hlt := length_lt_flatMap_cons (.symbol .pipe) hx
    have hpart : primary stop (expression stop depth) (found ++ more) = .ok (x.2, more) :=
      h x (List.mem_cons_of_mem _ hx) stop depth (by omega) found more hfound hmore
    rw [eat?_self, Option.map_some, hpart]
    rfl
  · exact fun _ _ => ends_cons rfl Nat.one_pos
  · intro before
    rw [hpipe]
    rfl

/-- What is read at a tier is read at the next one, if it ends there. -/
theorem parserAt_succ {stop : Nat} {inner : Parser Expr} {found : List Located}
    (h : parserAt stop inner n found = .ok (e, rest)) (hrest : Ends (n + 1) rest) :
    parserAt stop inner (n + 1) found = .ok (e, rest) := by
  cases n with
  | zero =>
      have hpipe : eat? .pipe rest = none :=
        hrest.eat?_eq_none (by rintro m ⟨⟩; exact Nat.le_refl 1)
      have hfirst : primary stop inner found = .ok (e, rest) := h
      rw [parserAt, Parser.union]
      simp only [hfirst, ok_bind]
      rw [repeated, repeatWith_stop (by rw [hpipe]; rfl)]
      rfl
  | succ n =>
      rw [parserAt, joined_eq, h, ok_bind]
      refine repeatWith_stop ?_ _
      rw [joinNext, hrest.operatorOf?_eq_none (Nat.le_refl _)]
      rfl

/-- What is read at a tier, and ends at another beyond it, is read there. -/
theorem parserAt_mono {stop : Nat} {inner : Parser Expr} {found : List Located} (hmn : m ≤ n)
    (h : parserAt stop inner m found = .ok (e, rest)) (hrest : Ends n rest) :
    parserAt stop inner n found = .ok (e, rest) := by
  induction hmn with
  | refl => exact h
  | step _ ih => exact parserAt_succ (ih (hrest.mono (Nat.le_succ _))) hrest

/-- An operand that no operator and no bar follows is read at every tier. -/
theorem parserAt_of_primary {stop : Nat} {inner : Parser Expr} {found : List Located}
    (h : primary stop inner found = .ok (e, rest)) (hrest : Ends n rest) :
    parserAt stop inner n found = .ok (e, rest) :=
  parserAt_mono (Nat.zero_le n) h hrest

theorem Spelt.succ (h : Spelt n ts e) : Spelt (n + 1) ts e :=
  fun stop depth hdepth found rest hfound hrest =>
    parserAt_succ (h stop depth hdepth found rest hfound (hrest.mono (Nat.le_succ n))) hrest

theorem Spelt.mono (h : Spelt m ts e) (hmn : m ≤ n) : Spelt n ts e := by
  induction hmn with
  | refl => exact h
  | step _ ih => exact ih.succ

theorem spelt_literal (text : String) : Spelt 0 [.literal text] (.literal text) := by
  intro stop depth _ found rest hfound _
  obtain ⟨offset, _, rfl, hnil⟩ := exists_of_map_cons hfound
  obtain rfl := List.map_eq_nil_iff.mp hnil
  rfl

theorem spelt_number (value : Float) : Spelt 0 [.number value] (.number value) := by
  intro stop depth _ found rest hfound _
  obtain ⟨offset, _, rfl, hnil⟩ := exists_of_map_cons hfound
  obtain rfl := List.map_eq_nil_iff.mp hnil
  rfl

theorem ends_closeParen {offset : Nat} : Ends 5 (⟨.symbol .closeParen, offset⟩ :: rest) :=
  ends_cons rfl (Nat.lt_succ_self 5)

theorem ends_closeBracket {offset : Nat} : Ends 5 (⟨.symbol .closeBracket, offset⟩ :: rest) :=
  ends_cons rfl (Nat.lt_succ_self 5)

theorem ends_comma {offset : Nat} : Ends 5 (⟨.symbol .comma, offset⟩ :: rest) :=
  ends_cons rfl (Nat.lt_succ_self 5)

/-- An expression in parentheses is an operand. -/
theorem Spelt.paren (h : Spelt 5 ts e) :
    Spelt 0 (.symbol .openParen :: (ts ++ [.symbol .closeParen])) e := by
  intro stop depth hdepth found rest hfound _
  obtain ⟨offset, inside, rfl, hinside⟩ := exists_of_map_cons hfound
  obtain ⟨offset', inside, rfl, hts⟩ := exists_of_map_concat hinside
  rw [List.length_cons, List.length_append] at hdepth
  rw [parserAt, List.cons_append, List.append_assoc, List.singleton_append, primary,
    h.reads_inner (by omega) inside _ hts ends_closeParen]
  simp only [ok_bind, expect_self]

/-- No expression begins with a closing parenthesis. -/
theorem Spelt.exists_cons (h : Spelt 5 ts e) :
    ∃ t more, ts = t :: more ∧ t ≠ .symbol .closeParen := by
  have hread := h 0 ts.length (Nat.le_refl _) (ts.map fun t => ⟨t, 0⟩) []
    (by rw [List.map_map]; exact List.map_id ts) (ends_nil 5)
  cases ts with
  | nil => exact nomatch hread
  | cons t more =>
      refine ⟨t, more, rfl, ?_⟩
      rintro rfl
      exact nomatch hread

/-- The arguments of a call, up to the closing parenthesis. -/
theorem arguments_reads {stop depth : Nat} {args : List (List Token × Expr)}
    (h : ∀ p ∈ args, Spelt 5 p.1 p.2)
    (hdepth : (separated (.symbol .comma) (args.map Prod.fst)).length < depth) :
    Reads (arguments stop (expression stop depth)) (fun _ => True)
      (separated (.symbol .comma) (args.map Prod.fst) ++ [.symbol .closeParen])
      (args.map Prod.snd) := by
  intro found rest hfound _
  obtain ⟨offset, found, rfl, hargs⟩ := exists_of_map_concat hfound
  rw [List.append_assoc, List.singleton_append]
  cases args with
  | nil =>
      obtain rfl := List.map_eq_nil_iff.mp hargs
      rw [List.nil_append, arguments, eat?_self]
      rfl
  | cons first others =>
      rw [List.map_cons, separated, List.flatMap_map] at hargs hdepth
      rw [List.length_append] at hdepth
      obtain ⟨left, right, rfl, hleft, hright⟩ := List.map_eq_append_iff.mp hargs
      have hmore : Ends 5 (right ++ ⟨.symbol .closeParen, offset⟩ :: rest) := by
        cases others with
        | nil =>
            obtain rfl := List.map_eq_nil_iff.mp hright
            exact ends_closeParen
        | cons p others =>
            obtain ⟨offset, right, rfl, -⟩ := exists_of_map_cons hright
            exact ends_comma
      have hspelt := h first List.mem_cons_self
      have hfirst : Reads (expression stop depth) (Ends 5) first.1 first.2 :=
        hspelt.reads_inner (by omega)
      have hopen : eat? .closeParen
          (left ++ (right ++ ⟨.symbol .closeParen, offset⟩ :: rest)) = none := by
        obtain ⟨t, more, hcons, hne⟩ := hspelt.exists_cons
        rw [hcons] at hleft
        obtain ⟨offset, left, rfl, -⟩ := exists_of_map_cons hleft
        exact eat?_eq_none_of_ne hne
      rw [List.append_assoc, arguments, hopen]
      simp only [hfirst left _ hleft hmore, ok_bind]
      rw [repeated_items ?_ ?_ ends_closeParen ?_ hright]
      · simp only [ok_bind, expect_self]
        rfl
      · intro x hx before offset found more hfound hmore
        have hlt := length_lt_flatMap_cons (.symbol .comma) hx
        rw [eat?_self, Option.map_some,
          (h x (List.mem_cons_of_mem _ hx)).reads_inner (by omega) found more hfound hmore]
        rfl
      · exact fun _ _ => ends_comma
      · intro before
        rfl

theorem ofName?_functionName (f : Function) : Function.ofName? f.name = some f := by
  cases f <;> decide

theorem functionName_ne_node (f : Function) : f.name ≠ "node" := by
  cases f <;> decide

/-- The name of a function and its arguments in parentheses spell a call. -/
theorem Spelt.call (f : Function) {args : List (List Token × Expr)}
    (haccepts : f.accepts args.length = true)
    (hcounts : f = .count → ∀ p ∈ args, p.2.selectsNodes = true)
    (h : ∀ p ∈ args, Spelt 5 p.1 p.2) :
    Spelt 0 (.name f.name :: .symbol .openParen ::
      (separated (.symbol .comma) (args.map Prod.fst) ++ [.symbol .closeParen]))
      (.call f (args.map Prod.snd)) := by
  intro stop depth hdepth found rest hfound _
  obtain ⟨start, found, rfl, hopen⟩ := exists_of_map_cons hfound
  obtain ⟨offset, found, rfl, hargs⟩ := exists_of_map_cons hopen
  rw [List.length_cons, List.length_cons, List.length_append] at hdepth
  have hread : arguments stop (expression stop depth) (found ++ rest) =
      .ok (args.map Prod.snd, rest) := arguments_reads h (by omega) found rest hargs trivial
  have hcount : (f = .count && !Expr.allSelectNodes (args.map Prod.snd)) = false := by
    rw [Bool.and_eq_false_imp, decide_eq_true_eq, Bool.not_eq_false', Expr.allSelectNodes_iff]
    exact fun hf => List.forall_mem_map.mpr (hcounts hf)
  rw [parserAt, List.cons_append, List.cons_append, primary, if_neg (functionName_ne_node f),
    Parser.call, ofName?_functionName]
  simp only [hread, ok_bind, List.length_map, haccepts, hcount, Bool.not_true, Bool.false_eq_true,
    if_false]

/-- What may follow a step: nothing that its test or its predicates go on with. -/
def EndsStep (rest : List Located) : Prop :=
  eat? .openBracket rest = none ∧ eat? .openParen rest = none

theorem Ends.endsStep (h : Ends n rest) : EndsStep rest :=
  ⟨h.eat?_eq_none (fun _ => nofun), h.eat?_eq_none (fun _ => nofun)⟩

/-- Expressions in brackets are predicates. -/
theorem predicates_reads {stop depth : Nat} {preds : List (List Token × Expr)}
    (h : ∀ p ∈ preds, Spelt 5 p.1 p.2)
    (hdepth : (bracketed (preds.map Prod.fst)).length ≤ depth) :
    Reads (predicates stop (expression stop depth)) (fun rest => eat? .openBracket rest = none)
      (bracketed (preds.map Prod.fst)) (preds.map Prod.snd) := by
  intro found rest hfound hrest
  have hitems : bracketed (preds.map Prod.fst) =
      (preds.map fun p => (p.1 ++ [Token.symbol .closeBracket], p.2)).flatMap
        fun x => .symbol .openBracket :: x.1 := by
    rw [bracketed, List.flatMap_map, List.flatMap_map]
  have hvalues : preds.map Prod.snd =
      [] ++ (preds.map fun p => (p.1 ++ [Token.symbol .closeBracket], p.2)).map Prod.snd := by
    rw [List.nil_append, List.map_map]
    rfl
  rw [hitems] at hfound hdepth
  rw [hvalues, predicates]
  refine repeated_items (F := fun _ => True) ?_ (fun _ _ => trivial) trivial ?_ hfound []
  · rintro x hx before offset found more hfound -
    have hlt := length_lt_flatMap_cons (.symbol .openBracket) hx
    obtain ⟨p, hp, rfl⟩ := List.mem_map.mp hx
    obtain ⟨offset', inside, rfl, hinside⟩ := exists_of_map_concat hfound
    rw [List.length_append] at hlt
    have hread : Reads (expression stop depth) (Ends 5) p.1 p.2 :=
      (h p hp).reads_inner (by omega)
    rw [eat?_self, Option.map_some, List.append_assoc, List.singleton_append,
      hread inside _ hinside ends_closeBracket]
    simp only [ok_bind, expect_self]
  · intro before
    rw [hrest]
    rfl

/-- How the test of a step along an axis is spelled. -/
inductive TestSpelt (axis : Axis) : List Token → NodeTest → Prop where
  | anyName : TestSpelt axis [.symbol .star] .anyName
  | anyNode : TestSpelt axis [.name "node", .symbol .openParen, .symbol .closeParen] .anyNode
  | element {name : String} (h : axis ≠ .attributes) :
      TestSpelt axis [.name name] (.element (ElementType.ofName? name))
  | named {name : String} {a : DocumentAttribute} (h : axis = .attributes)
      (ha : DocumentAttribute.ofName? name = some a) : TestSpelt axis [.name name] (.named a)

/-- A name that no parenthesis follows is a name test. -/
theorem nodeTest_name {stop : Nat} {a : Axis} {name : String} {offset : Nat}
    (h : eat? .openParen rest = none) :
    nodeTest stop a (⟨.name name, offset⟩ :: rest) =
      if a = .attributes then
        match DocumentAttribute.ofName? name with
        | some found => .ok (.named found, rest)
        | none => .error (.unknownAttribute name)
      else .ok (.element (ElementType.ofName? name), rest) := by
  unfold nodeTest
  split
  · next heq => cases heq
  · next heq =>
    obtain ⟨-, rfl⟩ := List.cons.inj heq
    cases eat?_self.symm.trans h
  · next heq =>
    obtain ⟨hfirst, rfl⟩ := List.cons.inj heq
    cases hfirst
    rfl
  · next hname => exact absurd rfl (hname name offset rest)

theorem TestSpelt.reads {stop : Nat} {a : Axis} {test : NodeTest} (h : TestSpelt a ts test) :
    Reads (nodeTest stop a) (fun rest => eat? .openParen rest = none) ts test := by
  intro found rest hfound hrest
  cases h with
  | anyName =>
      obtain ⟨offset, _, rfl, hnil⟩ := exists_of_map_cons hfound
      obtain rfl := List.map_eq_nil_iff.mp hnil
      rfl
  | anyNode =>
      obtain ⟨_, _, rfl, hopen⟩ := exists_of_map_cons hfound
      obtain ⟨_, _, rfl, hclose⟩ := exists_of_map_cons hopen
      obtain ⟨_, _, rfl, hnil⟩ := exists_of_map_cons hclose
      obtain rfl := List.map_eq_nil_iff.mp hnil
      rfl
  | element h =>
      obtain ⟨offset, _, rfl, hnil⟩ := exists_of_map_cons hfound
      obtain rfl := List.map_eq_nil_iff.mp hnil
      rw [List.singleton_append, nodeTest_name hrest, if_neg h]
  | named h ha =>
      obtain ⟨offset, _, rfl, hnil⟩ := exists_of_map_cons hfound
      obtain rfl := List.map_eq_nil_iff.mp hnil
      rw [List.singleton_append, nodeTest_name hrest, if_pos h, ha]

theorem ofName?_axisName (a : Axis) : Axis.ofName? a.name = some a := by
  cases a <;> decide

/-- How a step begins that is not a point or two. -/
inductive BeginsStep : List Located → Prop where
  | name {name : String} {offset offset' : Nat} {more : List Located} :
      BeginsStep (⟨.name name, offset⟩ :: ⟨.symbol .doubleColon, offset'⟩ :: more)
  | attributes {offset : Nat} {more : List Located} : BeginsStep (⟨.symbol .at, offset⟩ :: more)
  | star {offset : Nat} {more : List Located} : BeginsStep (⟨.symbol .star, offset⟩ :: more)

namespace BeginsStep

variable {stop : Nat} {inner : Parser Expr} {found : List Located}

theorem startsStep_eq (h : BeginsStep found) : startsStep found = true := by
  cases h <;> rfl

theorem step_eq (h : BeginsStep found) :
    step stop inner found =
      axis found >>= fun x => nodeTest stop x.1 x.2 >>= fun y =>
        predicates stop inner y.2 >>= fun z => .ok (.mk x.1 y.1 z.1, z.2) := by
  cases h <;> rfl

theorem path_eq (h : BeginsStep found) :
    path stop inner found =
      steps stop inner [] found >>= fun x => .ok (.path false x.1, x.2) := by
  cases h <;> rfl

theorem primary_eq (h : BeginsStep found) : primary stop inner found = path stop inner found := by
  cases h <;> rfl

end BeginsStep

/-- How the axis of a step is spelled: by its name and two colons, by `@`, or by nothing before a
star. -/
inductive AxisSpelt : List Token → Axis → List Token → Prop where
  | named {axis : Axis} {test : List Token} :
      AxisSpelt [.name axis.name, .symbol .doubleColon] axis test
  | attributes {test : List Token} : AxisSpelt [.symbol .at] .attributes test
  | child {test : List Token} : AxisSpelt [] .child (.symbol .star :: test)

theorem AxisSpelt.reads {a : Axis} {test : List Token} {found more : List Located}
    (h : AxisSpelt ts a test) (hfound : found.map (·.token) = ts)
    (hmore : test <+: more.map (·.token)) :
    axis (found ++ more) = .ok (a, more) ∧ BeginsStep (found ++ more) := by
  cases h with
  | named =>
      obtain ⟨_, _, rfl, hcolon⟩ := exists_of_map_cons hfound
      obtain ⟨_, _, rfl, hnil⟩ := exists_of_map_cons hcolon
      obtain rfl := List.map_eq_nil_iff.mp hnil
      refine ⟨?_, .name⟩
      rw [List.cons_append, List.cons_append, axis, ofName?_axisName]
      rfl
  | attributes =>
      obtain ⟨_, _, rfl, hnil⟩ := exists_of_map_cons hfound
      obtain rfl := List.map_eq_nil_iff.mp hnil
      exact ⟨rfl, .attributes⟩
  | child =>
      obtain rfl := List.map_eq_nil_iff.mp hfound
      obtain ⟨after, hafter⟩ := hmore
      obtain ⟨offset, more, rfl, -⟩ := exists_of_map_cons hafter.symm
      exact ⟨rfl, .star⟩

/-- How a step is spelled: its axis, its test and its predicates. -/
def StepSpelt (ts : List Token) (s : Step) : Prop :=
  ∃ axis test, ∃ preds : List (List Token × Expr),
    AxisSpelt axis s.axis test ∧ TestSpelt s.axis test s.test ∧
      (∀ p ∈ preds, Spelt 5 p.1 p.2) ∧ s.predicates = preds.map Prod.snd ∧
      ts = axis ++ (test ++ bracketed (preds.map Prod.fst))

theorem eat?_openParen_bracketed {preds : List (List Token)} {found : List Located}
    (hfound : found.map (·.token) = bracketed preds)
    (hrest : eat? .openParen rest = none) : eat? .openParen (found ++ rest) = none := by
  cases preds with
  | nil =>
      obtain rfl := List.map_eq_nil_iff.mp hfound
      exact hrest
  | cons p preds =>
      obtain ⟨_, _, rfl, -⟩ := exists_of_map_cons hfound
      rfl

theorem StepSpelt.reads {s : Step} (h : StepSpelt ts s) (stop depth : Nat)
    (hdepth : ts.length ≤ depth) {found : List Located} (hfound : found.map (·.token) = ts)
    (hrest : EndsStep rest) :
    step stop (expression stop depth) (found ++ rest) = .ok (s, rest) ∧
      BeginsStep (found ++ rest) := by
  obtain ⟨axisTokens, testTokens, preds, haxis, htest, hpreds, hvalues, rfl⟩ := h
  rw [List.length_append, List.length_append] at hdepth
  obtain ⟨left, others, rfl, hleft, hothers⟩ := List.map_eq_append_iff.mp hfound
  obtain ⟨middle, right, rfl, hmiddle, hright⟩ := List.map_eq_append_iff.mp hothers
  rw [List.append_assoc, List.append_assoc]
  have hprefix : testTokens <+: (middle ++ (right ++ rest)).map (·.token) := by
    rw [List.map_append, hmiddle]
    exact List.prefix_append _ _
  obtain ⟨hreadAxis, hbegins⟩ := haxis.reads hleft hprefix
  have hreadTest : nodeTest stop s.axis (middle ++ (right ++ rest)) = .ok (s.test, right ++ rest) :=
    htest.reads middle _ hmiddle (eat?_openParen_bracketed hright hrest.2)
  have hreadPreds : predicates stop (expression stop depth) (right ++ rest) =
      .ok (preds.map Prod.snd, rest) :=
    predicates_reads hpreds (by omega) right rest hright hrest.1
  refine ⟨?_, hbegins⟩
  rw [hbegins.step_eq]
  simp only [hreadAxis, hreadTest, hreadPreds, ok_bind, ← hvalues]
  cases s
  rfl

/-- Steps with slashes between them. -/
theorem steps_reads (stop : Nat) {depth : Nat} {first : List Token × Step}
    {others : List (List Token × Step)} (h : ∀ p ∈ first :: others, StepSpelt p.1 p.2)
    (hdepth : (separated (.symbol .slash) ((first :: others).map Prod.fst)).length ≤ depth)
    {found : List Located}
    (hfound : found.map (·.token) = separated (.symbol .slash) ((first :: others).map Prod.fst))
    (hrest : Ends 0 rest) (before : List Step) :
    steps stop (expression stop depth) before (found ++ rest) =
        .ok (before ++ (first :: others).map Prod.snd, rest) ∧
      BeginsStep (found ++ rest) := by
  rw [List.map_cons, separated, List.flatMap_map] at hfound hdepth
  rw [List.length_append] at hdepth
  obtain ⟨left, right, rfl, hleft, hright⟩ := List.map_eq_append_iff.mp hfound
  have hslash : EndsStep (right ++ rest) := by
    cases others with
    | nil =>
        obtain rfl := List.map_eq_nil_iff.mp hright
        exact hrest.endsStep
    | cons p others =>
        obtain ⟨_, _, rfl, -⟩ := exists_of_map_cons hright
        exact ⟨rfl, rfl⟩
  obtain ⟨hfirst, hbegins⟩ :=
    (h first List.mem_cons_self).reads stop depth (by omega) hleft hslash
  rw [List.append_assoc]
  refine ⟨?_, hbegins⟩
  have hvalues : before ++ (first :: others).map Prod.snd =
      before ++ [first.2] ++ others.map Prod.snd := by simp
  rw [steps, hvalues]
  simp only [hfirst, ok_bind]
  refine repeated_items ?_ (fun _ _ => ⟨rfl, rfl⟩) hrest.endsStep ?_ hright _
  · intro x hx before offset found more hfound hmore
    have hlt := length_lt_flatMap_cons (.symbol .slash) hx
    obtain ⟨hread, -⟩ :=
      (h x (List.mem_cons_of_mem _ hx)).reads stop depth (by omega) hfound hmore
    simp only [eat?_self, hread]
    rfl
  · intro before
    have hslash : eat? .slash rest = none := hrest.eat?_eq_none (fun _ => nofun)
    have hdouble : eat? .doubleSlash rest = none := hrest.eat?_eq_none (fun _ => nofun)
    simp only [hslash, hdouble]
    rfl

/-- Steps with slashes between them spell a path from a node. -/
theorem spelt_relative {items : List (List Token × Step)} (hne : items ≠ [])
    (h : ∀ p ∈ items, StepSpelt p.1 p.2) :
    Spelt 0 (separated (.symbol .slash) (items.map Prod.fst))
      (.path false (items.map Prod.snd)) := by
  obtain ⟨first, others, rfl⟩ := List.exists_cons_of_ne_nil hne
  intro stop depth hdepth found rest hfound hrest
  obtain ⟨hsteps, hbegins⟩ := steps_reads stop h hdepth hfound hrest []
  rw [parserAt, hbegins.primary_eq, hbegins.path_eq]
  simp only [hsteps, ok_bind]
  rfl

/-- A slash and steps spell a path from the root. -/
theorem spelt_absolute {items : List (List Token × Step)} (hne : items ≠ [])
    (h : ∀ p ∈ items, StepSpelt p.1 p.2) :
    Spelt 0 (.symbol .slash :: separated (.symbol .slash) (items.map Prod.fst))
      (.path true (items.map Prod.snd)) := by
  obtain ⟨first, others, rfl⟩ := List.exists_cons_of_ne_nil hne
  intro stop depth hdepth found rest hfound hrest
  obtain ⟨offset, found, rfl, hmore⟩ := exists_of_map_cons hfound
  obtain ⟨hsteps, hbegins⟩ := steps_reads stop h (Nat.le_of_succ_le hdepth) hmore hrest []
  have hpath : path stop (expression stop depth) (⟨.symbol .slash, offset⟩ :: (found ++ rest)) =
      .ok (.path true ((first :: others).map Prod.snd), rest) := by
    rw [path, if_pos hbegins.startsStep_eq]
    simp only [hsteps, ok_bind]
    rfl
  exact hpath

/-- Two slashes and steps spell a path that starts anywhere. -/
theorem spelt_anywhere {items : List (List Token × Step)} (hne : items ≠ [])
    (h : ∀ p ∈ items, StepSpelt p.1 p.2) :
    Spelt 0 (.symbol .doubleSlash :: separated (.symbol .slash) (items.map Prod.fst))
      (.path true (.anywhere :: items.map Prod.snd)) := by
  obtain ⟨first, others, rfl⟩ := List.exists_cons_of_ne_nil hne
  intro stop depth hdepth found rest hfound hrest
  obtain ⟨offset, found, rfl, hmore⟩ := exists_of_map_cons hfound
  obtain ⟨hsteps, -⟩ := steps_reads stop h (Nat.le_of_succ_le hdepth) hmore hrest [.anywhere]
  have hpath : path stop (expression stop depth)
      (⟨.symbol .doubleSlash, offset⟩ :: (found ++ rest)) =
      .ok (.path true (.anywhere :: (first :: others).map Prod.snd), rest) := by
    rw [path]
    simp only [hsteps, ok_bind]
    rfl
  exact hpath

theorem tier_le (op : Operator) : op.tier ≤ 5 := by
  cases op <;> decide

/-- No step begins after a whole expression. -/
theorem Ends.startsStep_eq_false (h : Ends 5 rest) : startsStep rest = false := by
  unfold startsStep
  split
  · next name offset more =>
    obtain ⟨m, hm, hlt⟩ := h _ rfl
    obtain ⟨op, -, rfl⟩ := Option.map_eq_some_iff.mp hm
    exact absurd (tier_le op) (by omega)
  · next s offset more =>
    obtain ⟨m, hm, -⟩ := h _ rfl
    cases s <;> first | rfl | cases hm
  · rfl

/-- A slash alone spells the root, but only as a whole expression. -/
theorem spelt_root : Spelt 5 [.symbol .slash] (.path true []) := by
  intro stop depth _ found rest hfound hrest
  obtain ⟨offset, _, rfl, hnil⟩ := exists_of_map_cons hfound
  obtain rfl := List.map_eq_nil_iff.mp hnil
  have hpath : path stop (expression stop depth) (⟨.symbol .slash, offset⟩ :: rest) =
      .ok (.path true [], rest) := by
    rw [path, if_neg (by rw [hrest.startsStep_eq_false]; exact Bool.false_ne_true)]
  exact parserAt_of_primary hpath hrest

end Parser

/-- Tokens that spell an expression are read as that expression. -/
theorem parseTokens_of_spelt {ts : List Token} {e : Expr} (h : Parser.Spelt 5 ts e) (stop : Nat)
    {found : List Located} (hfound : found.map (·.token) = ts) :
    parseTokens stop found = .ok e := by
  have hread : Parser.expression stop (found.length + 1) found = .ok (e, []) := by
    have hlt : ts.length < found.length + 1 := by
      rw [← hfound, List.length_map]
      exact Nat.lt_succ_self _
    have hread : Parser.Reads (Parser.expression stop (found.length + 1)) (Parser.Ends 5) ts e :=
      h.reads_inner hlt
    have hall := hread found [] hfound (Parser.ends_nil 5)
    rwa [List.append_nil] at hall
  obtain ⟨t, more, rfl, -⟩ := h.exists_cons
  obtain ⟨offset, found, rfl, -⟩ := Parser.exists_of_map_cons hfound
  rw [parseTokens, List.isEmpty_cons, if_neg Bool.false_ne_true, hread]
  rfl

end UiTree.Query
