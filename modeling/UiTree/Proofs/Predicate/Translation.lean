import UiTree.Proofs.Query.Asking
import UiTree.Proofs.Predicate.RoundTrip

/-!
# Predicates as queries

A predicate that compares attributes of the document can be written as a query: a path to all
elements with one condition, in which the clauses are joined by `or` and their conditions by `and`.
The query is read as written, and on every captured tree it selects the nodes that satisfy the
predicate. An attribute that a node lacks has the empty text for the predicate, while the query
finds no attribute at all; this makes no difference unless a comparison is with the empty text.
-/

namespace UiTree

/-- The attributes that conditions compare as the document shows them. Types are compared under
their normal names, and a frame is compared as a whole. -/
def DocumentAttribute.comparable : List DocumentAttribute :=
  [.value, .name, .label, .enabled, .visible, .selected, .accessible, .container, .focused, .index,
    .traits]

namespace Condition

/-- The text of the condition in a query. No query asks what a text ends with. -/
def queryText (c : Condition) : String :=
  let key := "@" ++ c.subject.shortName
  let value := "'" ++ c.value ++ "'"
  match c.op with
  | .equals => key ++ "=" ++ value
  | .differs => "not(" ++ key ++ "=" ++ value ++ ")"
  | .beginsWith => "starts-with(" ++ key ++ "," ++ value ++ ")"
  | .contains => "contains(" ++ key ++ "," ++ value ++ ")"
  | .endsWith => ""

/-- Whether a query can ask for the condition: its attribute is comparable, its operator is one that
queries have, and its value can be quoted and is not empty where texts are compared as a whole. -/
structure Expressible (c : Condition) : Prop where
  subject : ∃ a ∈ DocumentAttribute.comparable, c.subject = a.source
  op : c.op ≠ .endsWith
  quotable : '\'' ∉ c.value.toList ∧ '"' ∉ c.value.toList ∧ '\\' ∉ c.value.toList
  ne_empty : c.op = .equals ∨ c.op = .differs → c.value ≠ ""

end Condition

namespace Predicate

/-- The text of a clause in a query. -/
def clauseQueryText (clause : List Condition) : String :=
  "(" ++ " and ".intercalate (clause.map Condition.queryText) ++ ")"

/-- The query for all elements that satisfy the predicate. -/
def queryText (p : Predicate) : String :=
  "//*[" ++ " or ".intercalate (p.clauses.map clauseQueryText) ++ "]"

/-- Whether a query can ask for the predicate: it is a disjunction of conjunctions of conditions
that queries can ask for. -/
structure Expressible (p : Predicate) : Prop where
  clauses_ne_nil : p.clauses ≠ []
  clause_ne_nil : ∀ clause ∈ p.clauses, clause ≠ []
  conditions : ∀ clause ∈ p.clauses, ∀ c ∈ clause, c.Expressible

end Predicate

section Conditions

variable {a : DocumentAttribute} {c : Condition} {n : SnapshotNode}

/-- A comparable attribute has one name and one text for predicates and for queries. -/
theorem comparable_shown (ha : a ∈ DocumentAttribute.comparable) :
    a.source.shortName = a.documentName ∧ n.comparedText? a.source = n.text? a := by
  cases a <;> first | exact ⟨rfl, rfl⟩ | exact absurd ha (by decide)

/-- A text that is not there is not equal to any but the empty text. -/
theorem getD_beq {found : Option String} {v : String} (hv : v ≠ "") :
    (found.getD "" == v) = (found == some v) := by
  cases found with
  | none => simpa using Ne.symm hv
  | some t => simp

theorem Condition.Expressible.asks (h : c.Expressible) :
    Query.Asks 3 c.queryText.toList c.holds := by
  obtain ⟨subject, op, value⟩ := c
  obtain ⟨⟨a, ha, rfl⟩, hop, ⟨hquote, -, -⟩, hne⟩ := h
  have hholds : (Condition.mk a.source op value).holds = fun n =>
      op.compare ((n.text? a).getD "") value := by
    funext n
    rw [Condition.holds, (comparable_shown ha).2]
  rw [hholds]
  have hname : a.source.shortName = a.documentName := (comparable_shown (n := default) ha).1
  have htext {cs cs' : List Char} {test : SnapshotNode → Bool} (heq : cs = cs')
      (h : Query.Asks 3 cs test) : Query.Asks 3 cs' test := heq ▸ h
  cases op with
  | equals =>
      have hequal := Query.asks_equal a hquote
      simp only [← getD_beq (hne (.inl rfl))] at hequal
      exact htext (by simp [Condition.queryText, hname]) hequal
  | differs =>
      have hequal := Query.asks_equal a hquote
      simp only [← getD_beq (hne (.inr rfl))] at hequal
      exact htext (by simp [Condition.queryText, hname])
        ((hequal.mono (by decide)).not.mono (Nat.zero_le 3))
  | beginsWith =>
      have hcall := Query.asks_call rfl (by decide) (Query.decides_startsWith a value) hquote
      exact htext (by simp [Condition.queryText, hname, Query.Function.name])
        (hcall.mono (Nat.zero_le 3))
  | contains =>
      have hcall := Query.asks_call rfl (by decide) (Query.decides_contains a value) hquote
      exact htext (by simp [Condition.queryText, hname, Query.Function.name])
        (hcall.mono (Nat.zero_le 3))
  | endsWith => exact absurd rfl hop

end Conditions

namespace Predicate

variable {p : Predicate}

theorem toList_clauseQueryText (c : Condition) (clause : List Condition) :
    (clauseQueryText (c :: clause)).toList =
      '(' :: (c.queryText.toList ++
        (clause.flatMap fun c => " and ".toList ++ c.queryText.toList) ++ [')']) := by
  simp [clauseQueryText, Text.intercalate_cons, List.flatMap_map]

theorem toList_queryText (clause : List Condition) (others : List (List Condition)) :
    (queryText ⟨clause :: others⟩).toList =
      "//*[".toList ++ ((clauseQueryText clause).toList ++
        (others.flatMap fun clause => " or ".toList ++ (clauseQueryText clause).toList) ++
          [']']) := by
  simp [queryText, Text.intercalate_cons, List.flatMap_map]

theorem asks_clause {clause : List Condition} (hne : clause ≠ [])
    (h : ∀ c ∈ clause, c.Expressible) :
    Query.Asks 0 (clauseQueryText clause).toList fun n => clause.all (·.holds n) := by
  obtain ⟨c, clause, rfl⟩ := List.exists_cons_of_ne_nil hne
  have hall : Query.Asks 4 (c.queryText.toList ++
      clause.flatMap fun c => " and ".toList ++ c.queryText.toList) fun n =>
        (c :: clause).all (·.holds n) := Query.asks_all fun d hd => (h d hd).asks
  rw [toList_clauseQueryText]
  exact (hall.mono (by decide)).paren

/-- The query is read as the path to all elements with a condition that decides the predicate. -/
theorem Expressible.parse_queryText (h : p.Expressible) :
    ∃ e, Query.parse p.queryText = .ok (Query.Expr.everywhere e) ∧ e.Decides p.holds := by
  obtain ⟨clauses⟩ := p
  obtain ⟨clause, others, rfl⟩ := List.exists_cons_of_ne_nil h.clauses_ne_nil
  have hany : Query.Asks 5 ((clauseQueryText clause).toList ++
      others.flatMap fun clause => " or ".toList ++ (clauseQueryText clause).toList) fun n =>
        (clause :: others).any fun clause => clause.all (·.holds n) :=
    Query.asks_any fun clause hclause =>
      (asks_clause (h.clause_ne_nil clause hclause) (h.conditions clause hclause)).mono
        (Nat.zero_le 4)
  have hparse := Query.parse_everywhere hany
  rwa [← toList_queryText, String.ofList_toList] at hparse

/-- The predicate itself is read from its text. -/
theorem Expressible.parse_text (h : p.Expressible) : parse p.text = .ok p := by
  obtain ⟨clauses⟩ := p
  obtain ⟨clause, others, rfl⟩ := List.exists_cons_of_ne_nil h.clauses_ne_nil
  obtain ⟨c, clause, rfl⟩ :=
    List.exists_cons_of_ne_nil (h.clause_ne_nil clause List.mem_cons_self)
  have hconditions : ∀ d ∈ ((c :: clause) :: others).flatten, d.Expressible := by
    intro d hd
    obtain ⟨clause, hclause, hd⟩ := List.mem_flatten.mp hd
    exact h.conditions clause hclause d hd
  have hcanonical : Canonical ((c :: clause) :: others) := by
    refine ⟨fun hnil => h.clause_ne_nil [] hnil rfl, fun d hd => ?_⟩
    obtain ⟨a, ha, hsubject⟩ := (hconditions d hd).subject
    have hall : ∀ a ∈ DocumentAttribute.comparable, a.source ≠ .type := by decide
    exact if_neg (hsubject ▸ hall a ha)
  have hread := (readClauses_text_iff 0 hcanonical
    (Nat.le_succ_of_le (length_flatten_le_text c clause others))
    (fun b hb => absurd hb List.not_mem_nil)).mpr fun d hd => (hconditions d hd).quotable.2.2
  rw [List.nil_append, ← toList_text_cons] at hread
  exact parse_eq_ok_iff.mpr ⟨_, _, hread, rfl⟩

/-- The two languages of locators agree. A predicate that queries can ask for is read from its text,
the query is accepted, and on every captured tree it selects the same positions as the predicate, in
the same order. -/
theorem find_eq_evaluate (h : p.Expressible) :
    parse p.text = .ok p ∧
      ∃ q, Query.compile p.queryText = .ok q ∧
        ∀ (request : CaptureRequest) (raw : RawNode) (time serial : Nat),
          q.evaluate ((request.snapshot time raw).document serial).1
              ((request.snapshot time raw).document serial).2 =
            .ok (p.find (request.snapshot time raw)) := by
  obtain ⟨e, hparse, hdecides⟩ := h.parse_queryText
  obtain ⟨q, hq, hexpr⟩ : ∃ q, Query.compile p.queryText = .ok q ∧ q.expr = e.everywhere := by
    rw [Query.compile, hparse]
    exact ⟨_, rfl, rfl⟩
  refine ⟨h.parse_text, q, hq, fun request raw time serial => ?_⟩
  exact Query.evaluate_everywhere (request.snapshot_linked time raw)
    (Query.snapshot_document_closed request raw time serial) hdecides hexpr

/-- A disjunction with an attribute that is not captured, and with a comparison with the empty
text. -/
def cancelOrNamed : Predicate :=
  ⟨[[⟨.label, .equals, "Cancel"⟩, ⟨.enabled, .differs, "false"⟩],
    [⟨.name, .beginsWith, "in"⟩, ⟨.index, .contains, ""⟩]]⟩

/-- Of a window with two buttons one satisfies each clause. -/
theorem find_eq_evaluate_window :
    parse cancelOrNamed.text = .ok cancelOrNamed ∧
      ∃ q, Query.compile ("//*[(@label='Cancel' and not(@enabled='false')) or " ++
          "(starts-with(@name,'in') and contains(@index,''))]") = .ok q ∧
        q.evaluate ((CaptureRequest.snapshot {} 0 Query.window).document 7).1
          ((CaptureRequest.snapshot {} 0 Query.window).document 7).2 = .ok [1, 2] := by
  have hexpressible : cancelOrNamed.Expressible := by
    refine ⟨by decide, by decide, ?_⟩
    simp only [cancelOrNamed, List.forall_mem_cons]
    refine ⟨⟨⟨⟨.label, by decide, rfl⟩, by decide, by decide, by decide⟩,
      ⟨⟨.enabled, by decide, rfl⟩, by decide, by decide, by decide⟩, List.forall_mem_nil _⟩,
      ⟨⟨⟨.name, by decide, rfl⟩, by decide, by decide, by decide⟩,
      ⟨⟨.index, by decide, rfl⟩, by decide, by decide, by decide⟩, List.forall_mem_nil _⟩,
      List.forall_mem_nil _⟩
  obtain ⟨hparse, q, hq, hevaluate⟩ := find_eq_evaluate hexpressible
  have htext : cancelOrNamed.queryText = "//*[(@label='Cancel' and not(@enabled='false')) or " ++
      "(starts-with(@name,'in') and contains(@index,''))]" := by decide +kernel
  have hfind : cancelOrNamed.find (CaptureRequest.snapshot {} 0 Query.window) = [1, 2] := by
    decide +kernel
  rw [htext] at hq
  exact ⟨hparse, q, hq, hfind ▸ hevaluate {} Query.window 0 7⟩

end Predicate

end UiTree
