import UiTree.Proofs.Query.RereadingExpressions

/-!
# The offsets of refusals

A parser refuses at the offset of a token, or at the end of the text. So the offsets of its refusals
have every property that the end of the text and the offsets of all tokens have.
-/

namespace UiTree.Query

variable {α β : Type} {P : Nat → Prop}

/-- What is read has one property, and the offset of a refusal another. -/
def Judged (P : Nat → Prop) (R : α → Prop) : Except Refusal α → Prop
  | .ok a => R a
  | .error (.malformed offset _) => P offset
  | .error (.unknownAttribute _) => True

theorem Judged.bind {R : α → Prop} {S : β → Prop} {x : Except Refusal α}
    {f : α → Except Refusal β} (hx : Judged P R x) (hf : ∀ a, R a → Judged P S (f a)) :
    Judged P S (x >>= f) := by
  match x with
  | .ok a => exact hf a hx
  | .error (.malformed _ _) => exact hx
  | .error (.unknownAttribute _) => trivial

/-- The offsets of some tokens have a property. -/
def Within (P : Nat → Prop) (ts : List Located) : Prop :=
  ∀ t ∈ ts, P t.offset

namespace Parser

variable {stop start : Nat} {ts rest : List Located} {inner operand : Parser Expr}

/-- A parser refuses at offsets with a property if the tokens that it is given have it. -/
def Points (P : Nat → Prop) (p : Parser α) : Prop :=
  ∀ ts, Within P ts → Judged P (fun found => Within P found.2) (p ts)

theorem within_of_cons {t : Located} (h : Within P (t :: rest)) : Within P rest :=
  fun u hu => h u (List.mem_cons_of_mem t hu)

theorem within_of_eat? {s : Symbol} (h : Within P ts) (heat : eat? s ts = some rest) :
    Within P rest := by
  obtain ⟨offset, rfl⟩ := exists_of_eat? heat
  exact within_of_cons h

theorem offset_of_within (hstop : P stop) (h : Within P ts) : P (offset stop ts) := by
  cases ts with
  | nil => exact hstop
  | cons t rest => exact h t List.mem_cons_self

theorem judged_refuse {R : α → Prop} (hstop : P stop) (h : Within P ts) (what : Expectation) :
    Judged P R (refuse stop what ts) :=
  offset_of_within hstop h

theorem judged_expect (hstop : P stop) (h : Within P ts) (s : Symbol) (what : Expectation) :
    Judged P (Within P) (expect stop s what ts) := by
  unfold expect
  split
  · next heat => exact within_of_eat? h heat
  · exact judged_refuse hstop h what

/-- A loop refuses where one of its rounds does. -/
theorem repeated_points {next : α → List Located → Option (Except Refusal (α × List Located))}
    (hnext : ∀ a ts, Within P ts → ∀ x ∈ next a ts, Judged P (fun found => Within P found.2) x)
    (a : α) : Points P (repeated next a) := by
  have hlimit (limit : Nat) : ∀ a, Points P (repeatWith next limit a) := by
    induction limit with
    | zero => exact fun _ _ h => h
    | succ limit ih =>
        intro a ts h
        rw [repeatWith]
        split
        · exact h
        · next x hx => exact (hnext a ts h x hx).bind fun found hfound => ih _ _ hfound
  exact fun ts => hlimit ts.length a ts

theorem itemNext_points {item : Parser α} (hitem : Points P item) (s : Symbol) (found : List α)
    (h : Within P ts) : ∀ x ∈ itemNext s item found ts,
      Judged P (fun found => Within P found.2) x := by
  intro x hx
  obtain ⟨more, heat, rfl⟩ := Option.map_eq_some_iff.mp hx
  exact (hitem more (within_of_eat? h heat)).bind fun _ hrest => hrest

theorem joined_points (hoperand : Points P operand) (ops : List Operator) :
    Points P (joined ops operand) := by
  intro ts h
  refine (hoperand ts h).bind fun first hfirst => repeated_points ?_ first.1 _ hfirst
  intro left ts h x hx
  obtain ⟨⟨op, more⟩, hop, rfl⟩ := Option.map_eq_some_iff.mp hx
  obtain ⟨t, offset, rfl, -⟩ := exists_of_operatorOf? hop
  exact (hoperand more (within_of_cons h)).bind fun _ hrest => hrest

theorem union_points (hstop : P stop) (hoperand : Points P operand) :
    Points P (union stop operand) := by
  intro ts h
  rw [union_eq]
  refine Judged.bind (R := fun found => Within P found.2) ?_ fun found hfound => ?_
  · exact (hoperand ts h).bind fun first hfirst =>
      repeated_points (fun found ts h => itemNext_points hoperand .pipe found h) [first.1] _ hfirst
  · refine Judged.bind (R := fun _ => True) ?_ fun _ _ => hfound
    unfold unionOf
    split
    · trivial
    · split
      · trivial
      · exact offset_of_within hstop h

section Inner

variable (hstop : P stop) (hinner : Points P inner)
include hstop hinner

theorem arguments_points : Points P (arguments stop inner) := by
  intro ts h
  cases hclose : eat? .closeParen ts with
  | some more =>
      rw [arguments, hclose]
      exact within_of_eat? h hclose
  | none =>
      rw [arguments_eq hclose]
      refine (hinner ts h).bind fun first hfirst => ?_
      refine (repeated_points (fun found ts h => itemNext_points hinner .comma found h)
        [first.1] _ hfirst).bind fun found hfound => ?_
      exact (judged_expect hstop hfound .closeParen .commaOrCloseParen).bind fun _ hrest => hrest

theorem call_points (hstart : P start) (name : String) :
    Points P (call stop inner start name) := by
  intro ts h
  unfold call
  split
  · exact hstart
  · refine (arguments_points hstop hinner ts h).bind fun ⟨found, rest⟩ hfound => ?_
    dsimp only
    split
    · exact hstart
    · split
      · exact hstart
      · exact hfound

omit hinner in
theorem nodeTest_points (a : Axis) : Points P (nodeTest stop a) := by
  intro ts h
  unfold nodeTest
  split
  · exact within_of_cons h
  · next name start offset rest =>
    split
    · refine (judged_expect hstop (within_of_cons (within_of_cons h)) _ _).bind fun _ hrest => hrest
    · exact h _ List.mem_cons_self
  · split
    · split
      · exact within_of_cons h
      · trivial
    · exact within_of_cons h
  · exact judged_refuse hstop h _

theorem predicates_points : Points P (predicates stop inner) := by
  refine repeated_points ?_ []
  intro found ts h x hx
  obtain ⟨more, heat, rfl⟩ := Option.map_eq_some_iff.mp hx
  refine (hinner more (within_of_eat? h heat)).bind fun predicate hrest => ?_
  exact (judged_expect hstop hrest .closeBracket .closeBracket).bind fun _ hrest => hrest

omit hstop hinner in
theorem axis_points : Points P axis := by
  intro ts h
  unfold axis
  split
  · exact within_of_cons h
  · split
    · exact within_of_cons (within_of_cons h)
    · exact h _ List.mem_cons_self
  · exact h

theorem step_points : Points P (step stop inner) := by
  intro ts h
  unfold step
  split
  · exact within_of_cons h
  · exact within_of_cons h
  · refine (axis_points _ h).bind fun a ha => ?_
    refine (nodeTest_points hstop a.1 _ ha).bind fun test htest => ?_
    exact (predicates_points hstop hinner _ htest).bind fun _ hrest => hrest

theorem steps_points (before : List Step) : Points P (steps stop inner before) := by
  intro ts h
  refine (step_points hstop hinner ts h).bind fun first hfirst => ?_
  have hnext : ∀ found ts, Within P ts → ∀ x ∈ stepNext stop inner found ts,
      Judged P (fun found => Within P found.2) x := ?_
  · exact repeated_points hnext (before ++ [first.1]) _ hfirst
  intro found ts h x hx
  unfold stepNext at hx
  split at hx
  · next more heat =>
    cases hx
    exact (step_points hstop hinner more (within_of_eat? h heat)).bind fun _ hrest => hrest
  · obtain ⟨more, heat, rfl⟩ := Option.map_eq_some_iff.mp hx
    exact (step_points hstop hinner more (within_of_eat? h heat)).bind fun _ hrest => hrest

theorem path_points : Points P (path stop inner) := by
  intro ts h
  unfold path
  split
  · split
    · exact (steps_points hstop hinner [] _ (within_of_cons h)).bind fun _ hrest => hrest
    · exact within_of_cons h
  · exact (steps_points hstop hinner _ _ (within_of_cons h)).bind fun _ hrest => hrest
  · exact (steps_points hstop hinner [] _ h).bind fun _ hrest => hrest

theorem primary_points : Points P (primary stop inner) := by
  intro ts h
  unfold primary
  split
  · exact judged_refuse hstop h _
  · exact within_of_cons h
  · exact within_of_cons h
  · refine (hinner _ (within_of_cons h)).bind fun found hrest => ?_
    exact (judged_expect hstop hrest .closeParen .closeParen).bind fun _ hrest => hrest
  · split
    · exact path_points hstop hinner _ h
    · exact call_points hstop hinner (h _ List.mem_cons_self) _ _
        (within_of_cons (within_of_cons h))
  · exact path_points hstop hinner _ h

theorem level_points : Points P (level stop inner) :=
  joined_points (joined_points (joined_points (joined_points
    (union_points hstop (primary_points hstop hinner)) _) _) _) _

end Inner

theorem expression_points (hstop : P stop) (depth : Nat) : Points P (expression stop depth) := by
  induction depth with
  | zero => exact fun ts h => judged_refuse hstop h .expression
  | succ depth ih => exact level_points hstop ih

end Parser

theorem parseTokens_judged {stop : Nat} {ts : List Located} (hstart : P 0) (hstop : P stop)
    (h : Within P ts) : Judged P (fun _ => True) (parseTokens stop ts) := by
  unfold parseTokens
  split
  · exact hstart
  · refine (Parser.expression_points hstop _ ts h).bind fun ⟨e, rest⟩ hfound => ?_
    cases rest with
    | nil => trivial
    | cons extra more => exact hfound extra List.mem_cons_self

end UiTree.Query
