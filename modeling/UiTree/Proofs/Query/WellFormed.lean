import UiTree.Query.Parser
import UiTree.Proofs.Outcome

/-!
# Well-formed expressions

What a parser checks of an expression while it reads it: unions have at least two parts and all of
them select nodes, a call has as many arguments as its function takes and a count is of nodes, a
path that does not start at the root has a step, and attributes are named along the attribute axis
and nowhere else. Every expression that a text spells is well-formed, and its literals and numbers
are tokens of the text.

## Implementation notes

The predicate ranges over expressions alone. The steps of a path are reached through its list, so
an induction over it has one motive and a hypothesis for each predicate of each step.
-/

namespace UiTree.Query

namespace Step

/-- The axis of a step. -/
def axis : Step → Axis
  | .mk axis _ _ => axis

/-- The test of a step. -/
def test : Step → NodeTest
  | .mk _ test _ => test

/-- The predicates of a step. -/
def predicates : Step → List Expr
  | .mk _ _ predicates => predicates

end Step

/-- A test names an attribute along the attribute axis, and a type along the others. -/
def NodeTest.Fits (axis : Axis) : NodeTest → Prop
  | .named _ => axis = .attributes
  | .element _ => axis ≠ .attributes
  | .anyNode | .anyName => True

theorem Expr.allSelectNodes_iff {es : List Expr} :
    Expr.allSelectNodes es = true ↔ ∀ e ∈ es, e.selectsNodes = true := by
  induction es with
  | nil => simp [Expr.allSelectNodes]
  | cons e es ih => simp [Expr.allSelectNodes, ih]

/-- What a parser checks of an expression and of every expression inside it. -/
inductive Expr.WellFormed : Expr → Prop where
  | binary {op : Operator} {a b : Expr} (left : a.WellFormed) (right : b.WellFormed) :
      (Expr.binary op a b).WellFormed
  | union {parts : List Expr} (two : 2 ≤ parts.length)
      (select : ∀ e ∈ parts, e.selectsNodes = true) (parts_wf : ∀ e ∈ parts, e.WellFormed) :
      (Expr.union parts).WellFormed
  | path {absolute : Bool} {steps : List Step} (start : absolute = false → steps ≠ [])
      (fits : ∀ s ∈ steps, s.test.Fits s.axis)
      (predicates_wf : ∀ s ∈ steps, ∀ e ∈ s.predicates, e.WellFormed) :
      (Expr.path absolute steps).WellFormed
  | literal {text : String} : (Expr.literal text).WellFormed
  | number {value : Float} : (Expr.number value).WellFormed
  | call {f : Function} {arguments : List Expr} (accepts : f.accepts arguments.length = true)
      (counts : f = .count → ∀ e ∈ arguments, e.selectsNodes = true)
      (arguments_wf : ∀ e ∈ arguments, e.WellFormed) :
      (Expr.call f arguments).WellFormed

/-- What is checked of a step of a path. -/
def Step.WellFormed (s : Step) : Prop :=
  s.test.Fits s.axis ∧ ∀ e ∈ s.predicates, e.WellFormed

/-- Every literal and every number of an expression is one of certain tokens. -/
inductive Expr.AtomsIn (T : Token → Prop) : Expr → Prop where
  | binary {op : Operator} {a b : Expr} (left : a.AtomsIn T) (right : b.AtomsIn T) :
      (Expr.binary op a b).AtomsIn T
  | union {parts : List Expr} (parts_in : ∀ e ∈ parts, e.AtomsIn T) : (Expr.union parts).AtomsIn T
  | path {absolute : Bool} {steps : List Step}
      (predicates_in : ∀ s ∈ steps, ∀ e ∈ s.predicates, e.AtomsIn T) :
      (Expr.path absolute steps).AtomsIn T
  | literal {text : String} (h : T (.literal text)) : (Expr.literal text).AtomsIn T
  | number {value : Float} (h : T (.number value)) : (Expr.number value).AtomsIn T
  | call {f : Function} {arguments : List Expr} (arguments_in : ∀ e ∈ arguments, e.AtomsIn T) :
      (Expr.call f arguments).AtomsIn T

/-- What is known of an expression that was read from certain tokens. -/
structure Expr.ReadFrom (T : Token → Prop) (e : Expr) : Prop where
  wellFormed : e.WellFormed
  atoms : e.AtomsIn T

/-- What is known of a step that was read from certain tokens. -/
structure Step.ReadFrom (T : Token → Prop) (s : Step) : Prop where
  wellFormed : s.WellFormed
  atoms : ∀ e ∈ s.predicates, e.AtomsIn T

theorem Step.ReadFrom.of_predicates {T : Token → Prop} {s : Step} (fits : s.test.Fits s.axis)
    (h : ∀ e ∈ s.predicates, e.ReadFrom T) : s.ReadFrom T where
  wellFormed := ⟨fits, fun e he => (h e he).wellFormed⟩
  atoms e he := (h e he).atoms

namespace Parser

variable {α β : Type} {T : Token → Prop}

/-- All tokens that are left are of a kind. -/
def Among (T : Token → Prop) (ts : List Located) : Prop :=
  ∀ t ∈ ts, T t.token

theorem Among.tail {t : Located} {ts : List Located} (h : Among T (t :: ts)) : Among T ts :=
  fun u hu => h u (List.mem_cons_of_mem t hu)

/-- From tokens of a kind a parser reads what has a property, and it leaves tokens of that
kind. -/
def Yields (T : Token → Prop) (p : Parser α) (P : α → Prop) : Prop :=
  ∀ ts a rest, Among T ts → p ts = .ok (a, rest) → P a ∧ Among T rest

theorem eat?_among {s : Symbol} {ts rest : List Located} (hts : Among T ts)
    (h : eat? s ts = some rest) : Among T rest := by
  unfold eat? at h
  split at h
  · split at h
    · obtain rfl := Option.some.inj h
      exact hts.tail
    · cases h
  · cases h

theorem expect_among {stop : Nat} {s : Symbol} {what : Expectation} {ts rest : List Located}
    (hts : Among T ts) (h : expect stop s what ts = .ok rest) : Among T rest := by
  unfold expect at h
  split at h
  · next hrest =>
    obtain rfl := Except.ok.inj h
    exact eat?_among hts hrest
  · simp [refuse] at h

theorem operatorOf?_among {ops : List Operator} {op : Operator} {ts rest : List Located}
    (hts : Among T ts) (h : operatorOf? ops ts = some (op, rest)) : Among T rest := by
  unfold operatorOf? at h
  split at h
  · split at h
    · split at h
      · cases h
        exact hts.tail
      · cases h
    · cases h
  · cases h

theorem axis_among {a : Axis} {ts rest : List Located} (hts : Among T ts)
    (h : axis ts = .ok (a, rest)) : Among T rest := by
  unfold axis at h
  split at h
  · cases h
    exact hts.tail
  · split at h
    · cases h
      exact hts.tail.tail
    · simp at h
  · cases h
    exact hts

theorem repeatWith_yields {P : α → Prop}
    {next : α → List Located → Option (Except Refusal (α × List Located))}
    (hnext : ∀ a ts b rest, P a → Among T ts → next a ts = some (.ok (b, rest)) →
      P b ∧ Among T rest)
    (limit : Nat) {a : α} (ha : P a) : Yields T (repeatWith next limit a) P := by
  induction limit generalizing a with
  | zero =>
      intro ts b rest hts h
      cases h
      exact ⟨ha, hts⟩
  | succ limit ih =>
      intro ts b rest hts h
      rw [repeatWith] at h
      split at h
      · cases h
        exact ⟨ha, hts⟩
      · next result hresult =>
        obtain ⟨⟨c, ts'⟩, rfl, h⟩ := bind_eq_ok.mp h
        obtain ⟨hc, hts'⟩ := hnext a ts c ts' ha hts hresult
        exact ih hc ts' b rest hts' h

theorem repeated_yields {P : α → Prop}
    {next : α → List Located → Option (Except Refusal (α × List Located))}
    (hnext : ∀ a ts b rest, P a → Among T ts → next a ts = some (.ok (b, rest)) →
      P b ∧ Among T rest)
    {a : α} (ha : P a) : Yields T (repeated next a) P :=
  fun ts => repeatWith_yields hnext ts.length ha ts

theorem joined_yields {ops : List Operator} {operand : Parser Expr}
    (h : Yields T operand (Expr.ReadFrom T)) :
    Yields T (joined ops operand) (Expr.ReadFrom T) := by
  intro ts e rest hts he
  obtain ⟨⟨first, ts'⟩, hfirst, he⟩ := bind_eq_ok.mp he
  obtain ⟨hfirst, hts'⟩ := h _ _ _ hts hfirst
  refine repeated_yields ?_ hfirst ts' e rest hts' he
  intro left ts b rest hleft hts hnext
  obtain ⟨⟨op, ts'⟩, hop, hb⟩ := Option.map_eq_some_iff.mp hnext
  obtain ⟨⟨right, ts₂⟩, heq, hb⟩ := bind_eq_ok.mp hb
  obtain ⟨hright, hts₂⟩ := h _ _ _ (operatorOf?_among hts hop) heq
  cases hb
  exact ⟨⟨.binary hleft.wellFormed hright.wellFormed, .binary hleft.atoms hright.atoms⟩, hts₂⟩

/-- A list that grows by one read member at a time keeps a property of its members. -/
theorem append_yields {P : α → Prop} {before : List α} {a : α} (hbefore : ∀ x ∈ before, P x)
    (ha : P a) : ∀ x ∈ before ++ [a], P x := by
  intro x hx
  rcases List.mem_append.mp hx with hx | hx
  · exact hbefore x hx
  · exact List.mem_singleton.mp hx ▸ ha

theorem union_yields {stop : Nat} {operand : Parser Expr}
    (h : Yields T operand (Expr.ReadFrom T)) :
    Yields T (union stop operand) (Expr.ReadFrom T) := by
  intro ts e rest hts he
  obtain ⟨⟨first, ts'⟩, hfirst, he⟩ := bind_eq_ok.mp he
  obtain ⟨⟨parts, ts₂⟩, hparts, he⟩ := bind_eq_ok.mp he
  obtain ⟨hfirst, hts'⟩ := h _ _ _ hts hfirst
  obtain ⟨hread, hts₂⟩ : (parts ≠ [] ∧ ∀ part ∈ parts, part.ReadFrom T) ∧ Among T ts₂ := by
    refine repeated_yields (P := fun parts => parts ≠ [] ∧ ∀ part ∈ parts, part.ReadFrom T)
      ?_ ⟨by simp, by simpa using hfirst⟩ ts' parts ts₂ hts' hparts
    intro before ts b rest hbefore hts hnext
    obtain ⟨ts', heat, hb⟩ := Option.map_eq_some_iff.mp hnext
    obtain ⟨⟨part, ts₂⟩, heq, hb⟩ := bind_eq_ok.mp hb
    obtain ⟨hpart, hts₂⟩ := h _ _ _ (eat?_among hts heat) heq
    cases hb
    exact ⟨⟨by simp, append_yields hbefore.2 hpart⟩, hts₂⟩
  simp only at he
  split at he
  · cases he
    exact ⟨hread.2 e (by simp), hts₂⟩
  · next hone =>
    split at he
    · next hselect =>
      cases he
      refine ⟨⟨.union ?_ (Expr.allSelectNodes_iff.mp hselect)
        fun e he => (hread.2 e he).wellFormed, .union fun e he => (hread.2 e he).atoms⟩, hts₂⟩
      match parts with
      | [] => exact absurd rfl hread.1
      | [part] => exact absurd rfl (hone part)
      | _ :: _ :: _ => simp
    · simp at he

theorem arguments_yields {stop : Nat} {inner : Parser Expr}
    (h : Yields T inner (Expr.ReadFrom T)) :
    Yields T (arguments stop inner) fun found => ∀ e ∈ found, e.ReadFrom T := by
  intro ts found rest hts hfound
  rw [arguments] at hfound
  split at hfound
  · next heat =>
    cases hfound
    exact ⟨by simp, eat?_among hts heat⟩
  · obtain ⟨⟨first, ts₁⟩, hfirst, hfound⟩ := bind_eq_ok.mp hfound
    obtain ⟨⟨others, ts₂⟩, hothers, hfound⟩ := bind_eq_ok.mp hfound
    obtain ⟨ts₃, hclose, hfound⟩ := bind_eq_ok.mp hfound
    obtain ⟨hfirst, hts₁⟩ := h _ _ _ hts hfirst
    cases hfound
    obtain ⟨hread, hts₂⟩ : (∀ e ∈ found, e.ReadFrom T) ∧ Among T ts₂ := by
      refine repeated_yields (P := fun found => ∀ e ∈ found, e.ReadFrom T) ?_
        (by simpa using hfirst) ts₁ found ts₂ hts₁ hothers
      intro before ts b rest hbefore hts hnext
      obtain ⟨ts', heat, hb⟩ := Option.map_eq_some_iff.mp hnext
      obtain ⟨⟨next, ts₂⟩, heq, hb⟩ := bind_eq_ok.mp hb
      obtain ⟨hread, hts₂⟩ := h _ _ _ (eat?_among hts heat) heq
      cases hb
      exact ⟨append_yields hbefore hread, hts₂⟩
    exact ⟨hread, expect_among hts₂ hclose⟩

theorem call_yields {stop start : Nat} {name : String} {inner : Parser Expr}
    (h : Yields T inner (Expr.ReadFrom T)) :
    Yields T (call stop inner start name) (Expr.ReadFrom T) := by
  intro ts e rest hts he
  rw [call] at he
  split at he
  · simp at he
  · obtain ⟨⟨found, ts'⟩, hfound, he⟩ := bind_eq_ok.mp he
    obtain ⟨hread, hts'⟩ := arguments_yields h _ _ _ hts hfound
    simp only at he
    split at he
    · simp at he
    · next haccepts =>
      split at he
      · simp at he
      · next hcounts =>
        cases he
        refine ⟨⟨.call (by simpa using haccepts) ?_ fun e he => (hread e he).wellFormed,
          .call fun e he => (hread e he).atoms⟩, hts'⟩
        rintro rfl
        exact Expr.allSelectNodes_iff.mp (by simpa using hcounts)

theorem nodeTest_yields {stop : Nat} {axis : Axis} :
    Yields T (nodeTest stop axis) (NodeTest.Fits axis) := by
  intro ts test rest hts h
  unfold nodeTest at h
  split at h
  · cases h
    exact ⟨trivial, hts.tail⟩
  · split at h
    · obtain ⟨ts', hclose, h⟩ := bind_eq_ok.mp h
      cases h
      exact ⟨trivial, expect_among hts.tail.tail hclose⟩
    · simp at h
  · split at h
    · next haxis =>
      split at h
      · cases h
        exact ⟨haxis, hts.tail⟩
      · simp at h
    · next haxis =>
      cases h
      exact ⟨haxis, hts.tail⟩
  · simp [refuse] at h

theorem predicates_yields {stop : Nat} {inner : Parser Expr}
    (h : Yields T inner (Expr.ReadFrom T)) :
    Yields T (predicates stop inner) fun found => ∀ e ∈ found, e.ReadFrom T := by
  refine repeated_yields ?_ (by simp)
  intro before ts b rest hbefore hts hnext
  obtain ⟨ts', heat, hb⟩ := Option.map_eq_some_iff.mp hnext
  obtain ⟨⟨predicate, ts₂⟩, hpredicate, hb⟩ := bind_eq_ok.mp hb
  obtain ⟨ts₃, hclose, hb⟩ := bind_eq_ok.mp hb
  obtain ⟨hpredicate, hts₂⟩ := h _ _ _ (eat?_among hts heat) hpredicate
  cases hb
  exact ⟨append_yields hbefore hpredicate, expect_among hts₂ hclose⟩

theorem bare_readFrom {axis : Axis} : (Step.mk axis .anyNode []).ReadFrom T :=
  .of_predicates trivial (by simp [Step.predicates])

theorem step_yields {stop : Nat} {inner : Parser Expr} (h : Yields T inner (Expr.ReadFrom T)) :
    Yields T (step stop inner) (Step.ReadFrom T) := by
  intro ts s rest hts hs
  unfold step at hs
  split at hs
  · cases hs
    exact ⟨bare_readFrom, hts.tail⟩
  · cases hs
    exact ⟨bare_readFrom, hts.tail⟩
  · obtain ⟨⟨axis, ts₁⟩, haxis, hs⟩ := bind_eq_ok.mp hs
    obtain ⟨⟨test, ts₂⟩, htest, hs⟩ := bind_eq_ok.mp hs
    obtain ⟨⟨found, ts₃⟩, hfound, hs⟩ := bind_eq_ok.mp hs
    cases hs
    obtain ⟨hfits, hts₂⟩ := nodeTest_yields _ _ _ (axis_among hts haxis) htest
    obtain ⟨hread, hts₃⟩ := predicates_yields h _ _ _ hts₂ hfound
    exact ⟨.of_predicates hfits hread, hts₃⟩

/-- The steps of a path are never none. -/
theorem steps_yields {stop : Nat} {inner : Parser Expr} {before : List Step}
    (h : Yields T inner (Expr.ReadFrom T)) (hbefore : ∀ s ∈ before, s.ReadFrom T) :
    Yields T (steps stop inner before) fun found => found ≠ [] ∧ ∀ s ∈ found, s.ReadFrom T := by
  intro ts found rest hts hfound
  obtain ⟨⟨first, ts'⟩, hfirst, hfound⟩ := bind_eq_ok.mp hfound
  obtain ⟨hfirst, hts'⟩ := step_yields h _ _ _ hts hfirst
  refine repeated_yields (P := fun found => found ≠ [] ∧ ∀ s ∈ found, s.ReadFrom T) ?_
    ⟨by simp, append_yields (P := Step.ReadFrom T) hbefore hfirst⟩ ts' found rest hts' hfound
  intro before ts b rest hbefore hts hnext
  simp only at hnext
  split at hnext
  · next heat =>
    simp only [Option.some.injEq] at hnext
    obtain ⟨⟨next, ts'⟩, hstep, hb⟩ := bind_eq_ok.mp hnext
    obtain ⟨hstep, hts'⟩ := step_yields h _ _ _ (eat?_among hts heat) hstep
    cases hb
    exact ⟨⟨by simp, append_yields hbefore.2 hstep⟩, hts'⟩
  · obtain ⟨ts', heat, hb⟩ := Option.map_eq_some_iff.mp hnext
    obtain ⟨⟨next, ts₂⟩, hstep, hb⟩ := bind_eq_ok.mp hb
    obtain ⟨hstep, hts₂⟩ := step_yields h _ _ _ (eat?_among hts heat) hstep
    cases hb
    refine ⟨⟨by simp, ?_⟩, hts₂⟩
    have hanywhere : Step.anywhere.ReadFrom T := bare_readFrom
    have hafter := append_yields (append_yields hbefore.2 hanywhere) hstep
    rwa [List.append_assoc] at hafter

theorem path_readFrom {absolute : Bool} {steps : List Step}
    (start : absolute = false → steps ≠ []) (h : ∀ s ∈ steps, s.ReadFrom T) :
    (Expr.path absolute steps).ReadFrom T where
  wellFormed := .path start (fun s hs => (h s hs).wellFormed.1) fun s hs => (h s hs).wellFormed.2
  atoms := .path fun s hs => (h s hs).atoms

theorem path_yields {stop : Nat} {inner : Parser Expr} (h : Yields T inner (Expr.ReadFrom T)) :
    Yields T (path stop inner) (Expr.ReadFrom T) := by
  intro ts e rest hts he
  unfold path at he
  split at he
  · split at he
    · obtain ⟨⟨found, ts'⟩, hfound, he⟩ := bind_eq_ok.mp he
      obtain ⟨hread, hts'⟩ := steps_yields h (by simp) _ _ _ hts.tail hfound
      cases he
      exact ⟨path_readFrom (by simp) hread.2, hts'⟩
    · cases he
      exact ⟨path_readFrom (by simp) (by simp), hts.tail⟩
  · obtain ⟨⟨found, ts'⟩, hfound, he⟩ := bind_eq_ok.mp he
    have hbefore : ∀ s ∈ [Step.anywhere], s.ReadFrom T :=
      List.forall_mem_singleton.mpr bare_readFrom
    obtain ⟨hread, hts'⟩ := steps_yields h hbefore _ _ _ hts.tail hfound
    cases he
    exact ⟨path_readFrom (by simp) hread.2, hts'⟩
  · obtain ⟨⟨found, ts'⟩, hfound, he⟩ := bind_eq_ok.mp he
    obtain ⟨hread, hts'⟩ := steps_yields h (by simp) _ _ _ hts hfound
    cases he
    exact ⟨path_readFrom (fun _ => hread.1) hread.2, hts'⟩

theorem primary_yields {stop : Nat} {inner : Parser Expr}
    (h : Yields T inner (Expr.ReadFrom T)) :
    Yields T (primary stop inner) (Expr.ReadFrom T) := by
  intro ts e rest hts he
  unfold primary at he
  split at he
  · simp [refuse] at he
  · cases he
    exact ⟨⟨.literal, .literal (hts _ List.mem_cons_self)⟩, hts.tail⟩
  · cases he
    exact ⟨⟨.number, .number (hts _ List.mem_cons_self)⟩, hts.tail⟩
  · obtain ⟨⟨found, ts₁⟩, hfound, he⟩ := bind_eq_ok.mp he
    obtain ⟨ts₂, hclose, he⟩ := bind_eq_ok.mp he
    obtain ⟨hread, hts₁⟩ := h _ _ _ hts.tail hfound
    cases he
    exact ⟨hread, expect_among hts₁ hclose⟩
  · split at he
    · exact path_yields h _ _ _ hts he
    · exact call_yields h _ _ _ hts.tail.tail he
  · exact path_yields h _ _ _ hts he

theorem expression_yields (T : Token → Prop) (stop depth : Nat) :
    Yields T (expression stop depth) (Expr.ReadFrom T) := by
  induction depth with
  | zero =>
      intro ts e rest _ he
      simp [expression, refuse] at he
  | succ depth ih =>
      have hunion : Yields T (union stop (primary stop (expression stop depth)))
          (Expr.ReadFrom T) := union_yields (primary_yields ih)
      exact joined_yields (joined_yields (joined_yields (joined_yields hunion)))

end Parser

/-- Every expression that a text spells is read from the tokens of the text. -/
theorem readFrom_of_parse {T : Token → Prop} {text : String} {e : Expr}
    (hT : ∀ ts, tokenize text = .ok ts → Parser.Among T ts) (h : parse text = .ok e) :
    e.ReadFrom T := by
  unfold parse parseTokens at h
  split at h
  · simp at h
  · next ts hts =>
    split at h
    · simp at h
    · obtain ⟨⟨found, rest⟩, hfound, h⟩ := bind_eq_ok.mp h
      simp only at h
      split at h
      · cases h
        exact (Parser.expression_yields T _ _ _ _ _ (hT ts hts) hfound).1
      · simp at h

/-- Every expression that a text spells is well-formed. -/
theorem wellFormed_of_parse {text : String} {e : Expr} (h : parse text = .ok e) :
    e.WellFormed :=
  (readFrom_of_parse (T := fun _ => True) (fun _ _ _ _ => trivial) h).wellFormed

/-- A compiled query holds a well-formed expression that selects nodes, and the attributes that
the expression reads besides the type. -/
theorem compile_eq_ok {text : String} {q : Compiled} (h : compile text = .ok q) :
    q.expr.WellFormed ∧ q.expr.selectsNodes = true ∧
      q.attributes = .ofList [.type] ∪ q.expr.reads := by
  unfold compile at h
  split at h
  · simp at h
  · next e he =>
    split at h
    · next hselects =>
      cases h
      exact ⟨wellFormed_of_parse he, hselects, rfl⟩
    · simp at h

/-- Where a location path starts, and its steps. -/
def Expr.path? : Expr → Option (Bool × List Step)
  | .path absolute steps => some (absolute, steps)
  | .binary _ _ _ | .union _ | .literal _ | .number _ | .call _ _ => none

theorem Expr.eq_path_of_path? {e : Expr} {absolute : Bool} {steps : List Step}
    (h : e.path? = some (absolute, steps)) : e = .path absolute steps := by
  cases e <;> cases h
  rfl

/-- What a text is compiled to can be looked at by evaluation, if it is a path. -/
theorem exists_path_of_compile {text : String} {p : Bool → List Step → Bool}
    (h : (compile text).toOption.any (fun q => q.expr.path?.any fun x => p x.1 x.2) = true) :
    ∃ q absolute steps, compile text = .ok q ∧ q.expr = .path absolute steps ∧
      p absolute steps = true := by
  obtain ⟨q, hq, hpath⟩ := exists_eq_ok_of_toOption_any h
  obtain ⟨⟨absolute, steps⟩, hsome, hp⟩ := (Option.any_eq_true _ _).mp hpath
  exact ⟨q, absolute, steps, hq, Expr.eq_path_of_path? hsome, hp⟩

end UiTree.Query
