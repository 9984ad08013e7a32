import UiTree.Proofs.Predicate.Scanner
import UiTree.Proofs.Outcome

/-!
# Predicates printed and read again

The text of a predicate spells its conditions in order. A quote in a value is printed behind a
backslash, but a backslash is printed as it is, so the reader takes it for the beginning of an
escape. Hence a predicate is read again as it was exactly when no value of it holds a backslash.

## Implementation notes

What was read is normal: no clause is empty, and the value of a type is the name of its elements in
documents whenever it names a type. Printing and reading again keeps normal predicates only.
-/

namespace UiTree

namespace ElementType

theorem stripLead_documentName (t : ElementType) : stripLead t.documentName = t.name := by
  simp [stripLead, documentName, String.toList_append, ← String.length_toList]

theorem ofShortName?_name : ∀ t ∈ all, ofShortName? t.name = some t := by
  decide +kernel

theorem ofName?_documentName (t : ElementType) : ofName? t.documentName = some t := by
  rw [ofName?, stripLead_documentName, ofShortName?_name t t.mem_all]

theorem backslash_not_mem_name : ∀ t ∈ all, '\\' ∉ t.name.toList := by
  decide +kernel

theorem backslash_not_mem_documentName (t : ElementType) : '\\' ∉ t.documentName.toList := by
  have hlead : '\\' ∉ lead.toList := by decide
  simp [documentName, String.toList_append, hlead, backslash_not_mem_name t t.mem_all]

end ElementType

namespace Condition

/-- Some characters with a backslash before each single quote. -/
def escaped (w : List Char) : List Char :=
  w.flatMap fun c => if c == '\'' then ['\\', '\''] else [c]

theorem escape_eq_escaped (s : String) : escape s = escaped s.toList := rfl

@[simp] theorem escaped_nil : escaped [] = [] := rfl

@[simp] theorem escaped_quote (w : List Char) :
    escaped ('\'' :: w) = '\\' :: '\'' :: escaped w := rfl

theorem escaped_cons {c : Char} (h : c ≠ '\'') (w : List Char) :
    escaped (c :: w) = c :: escaped w := by
  simp [escaped, h]

/-- The value is the one that is compared. -/
def Normal (c : Condition) : Prop :=
  Predicate.normalValue c.subject c.value = c.value

end Condition

namespace Predicate

open Condition (escaped escaped_nil escaped_quote escaped_cons)

section Values

variable {m : Nat} {w tail : List Char} {quote : Char}

theorem quotedBody?_backslash (c : Char) (rest : List Char) :
    quotedBody? quote ('\\' :: c :: rest) =
      (quotedBody? quote rest).map fun (body, n) => (c :: body, n + 2) := by
  rw [quotedBody?.eq_def]
  simp

theorem quotedBody?_quote (hquote : quote ≠ '\\') (rest : List Char) :
    quotedBody? quote (quote :: rest) = some ([], 1) := by
  rw [quotedBody?.eq_def]
  simp [hquote]

theorem quotedBody?_cons {c : Char} (hescape : c ≠ '\\') (hquote : c ≠ quote) (rest : List Char) :
    quotedBody? quote (c :: rest) =
      (quotedBody? quote rest).map fun (body, n) => (c :: body, n + 1) := by
  rw [quotedBody?.eq_def]
  simp [hescape, hquote]

/-- A printed value without backslashes is read again. -/
theorem quotedBody?_escaped (h : '\\' ∉ w) (tail : List Char) :
    quotedBody? '\'' (escaped w ++ '\'' :: tail) = some (w, (escaped w).length + 1) := by
  induction w with
  | nil => exact quotedBody?_quote (by decide) tail
  | cons c w ih =>
      have hc : c ≠ '\\' := fun hc => h (by simp [hc])
      have ih := ih fun hw => h (by simp [hw])
      by_cases hquote : c = '\''
      · subst hquote
        simp [quotedBody?_backslash, ih]
      · simp [escaped_cons hquote, quotedBody?_cons hc hquote, ih]

theorem exists_of_map_cons {c : Char} {x : Option (List Char × Nat)} {body : List Char} {k : Nat}
    (h : x.map (fun (rest, n) => (c :: rest, n + k)) = some (body, m)) :
    ∃ rest n, x = some (rest, n) ∧ body = c :: rest := by
  rw [Option.map_eq_some_iff] at h
  obtain ⟨⟨rest, n⟩, hx, heq⟩ := h
  exact ⟨rest, n, hx, (congrArg Prod.fst heq).symm⟩

theorem eq_zero_of_replicate_append {c : Char} {w body : List Char} {n : Nat} (hc : c ≠ '\\')
    (h : List.replicate n '\\' ++ c :: w = c :: body) : n = 0 ∧ w = body := by
  cases n with
  | zero => exact ⟨rfl, (List.cons.inj h).2⟩
  | succ n => exact absurd (List.cons.inj h).1.symm hc

theorem replicate_append_cons {c : Char} (n : Nat) (w : List Char) :
    List.replicate n c ++ c :: w = c :: (List.replicate n c ++ w) := by
  rw [← List.cons_append, ← List.replicate_succ, List.replicate_succ', List.append_assoc]
  rfl

/-- What is read of a printed value is not the value behind further backslashes, and is not the
value itself if a backslash stands in it. -/
theorem not_mem_of_quotedBody?_escaped (w : List Char) (n m : Nat)
    (h : quotedBody? '\'' (escaped w ++ '\'' :: tail) = some (List.replicate n '\\' ++ w, m)) :
    n = 0 ∧ '\\' ∉ w := by
  match w with
  | [] =>
      obtain ⟨hbody, -⟩ : [] = List.replicate n '\\' ∧ _ := by simpa [quotedBody?_quote] using h
      exact ⟨by simpa using hbody.symm, by simp⟩
  | c :: w =>
      by_cases hquote : c = '\''
      · subst hquote
        rw [escaped_quote, List.cons_append, List.cons_append, quotedBody?_backslash] at h
        obtain ⟨body, k, hbody, heq⟩ := exists_of_map_cons h
        obtain ⟨rfl, rfl⟩ := eq_zero_of_replicate_append (by decide) heq
        have ih := not_mem_of_quotedBody?_escaped w 0 k hbody
        exact ⟨rfl, by simpa using ih.2⟩
      rw [escaped_cons hquote, List.cons_append] at h
      by_cases hescape : c = '\\'
      · subst hescape
        rw [replicate_append_cons] at h
        -- The backslash takes away the next character: the closing quote, the backslash before a
        -- quote, a second backslash, or another character.
        match w with
        | [] =>
            rw [escaped_nil, List.nil_append, quotedBody?_backslash] at h
            obtain ⟨body, k, -, heq⟩ := exists_of_map_cons h
            exact absurd (List.cons.inj heq).1 (by decide)
        | d :: w =>
            by_cases hquote : d = '\''
            · subst hquote
              rw [escaped_quote, List.cons_append, List.cons_append, quotedBody?_backslash] at h
              obtain ⟨body, k, hbody, heq⟩ := exists_of_map_cons h
              obtain ⟨rfl, -⟩ : [] = body ∧ _ := by simpa [quotedBody?_quote] using hbody
              simp at heq
            · rw [escaped_cons hquote, List.cons_append, quotedBody?_backslash] at h
              obtain ⟨body, k, hbody, heq⟩ := exists_of_map_cons h
              obtain ⟨rfl, rfl⟩ := List.cons.inj heq
              rw [replicate_append_cons, ← List.cons_append, ← List.replicate_succ] at hbody
              have ih := not_mem_of_quotedBody?_escaped w (n + 1) k hbody
              exact absurd ih.1 (Nat.succ_ne_zero n)
      · rw [quotedBody?_cons hescape hquote] at h
        obtain ⟨body, k, hbody, heq⟩ := exists_of_map_cons h
        obtain ⟨rfl, rfl⟩ := eq_zero_of_replicate_append hescape heq
        have ih := not_mem_of_quotedBody?_escaped w 0 k hbody
        exact ⟨rfl, by simpa [Ne.symm hescape] using ih.2⟩

end Values

section Normal

theorem normalValue_normalValue (a : Attribute) (v : String) :
    normalValue a (normalValue a v) = normalValue a v := by
  by_cases ha : a = .type
  · cases ht : ElementType.ofName? v with
    | none => simp [normalValue, ha, ht]
    | some t => simp [normalValue, ha, ht, ElementType.ofName?_documentName]
  · simp [normalValue, ha]

/-- Only a value that stands for another one can change, and no name of a type holds a
backslash. -/
theorem normalValue_eq_of_mem {a : Attribute} {v : String}
    (h : '\\' ∈ (normalValue a v).toList) : normalValue a v = v := by
  by_cases ha : a = .type
  · cases ht : ElementType.ofName? v with
    | none => simp [normalValue, ha, ht]
    | some t =>
        have hname := t.backslash_not_mem_documentName
        simp [normalValue, ha, ht, hname] at h
  · simp [normalValue, ha]

theorem normal_of_readCondition {cur cur' : Cursor} {c : Condition}
    (h : readCondition cur = .ok (c, cur')) : c.Normal := by
  simp only [readCondition, bind_eq_ok, Except.ok.injEq, Prod.mk.injEq, Prod.exists] at h
  obtain ⟨a, _, -, op, _, -, value, _, -, rfl, -⟩ := h
  exact normalValue_normalValue a value

/-- What is read is one condition, and more of its clause or further clauses. -/
theorem readClauses_cases {limit : Nat} {cur : Cursor} {clause : List Condition}
    {others : List (List Condition)} (h : readClauses (limit + 1) cur = .ok (clause, others)) :
    ∃ c cur', readCondition cur = .ok (c, cur') ∧
      (clause = [c] ∧ others = [] ∨
        (∃ cur₁ clause', readClauses limit cur₁ = .ok (clause', others) ∧ clause = c :: clause') ∨
        ∃ cur₁ clause' others', readClauses limit cur₁ = .ok (clause', others') ∧
          clause = [c] ∧ others = clause' :: others') := by
  rw [readClauses, bind_eq_ok] at h
  obtain ⟨⟨c, cur'⟩, hc, h⟩ := h
  refine ⟨c, cur', hc, ?_⟩
  dsimp only at h
  split at h
  · obtain ⟨rfl, rfl⟩ : [c] = clause ∧ [] = others := by simpa using h
    exact .inl ⟨rfl, rfl⟩
  split at h
  · simp only [bind_eq_ok, Except.ok.injEq, Prod.mk.injEq, Prod.exists] at h
    obtain ⟨clause', _, hmore, rfl, rfl⟩ := h
    exact .inr (.inl ⟨_, clause', hmore, rfl⟩)
  split at h
  · simp only [bind_eq_ok, Except.ok.injEq, Prod.mk.injEq, Prod.exists] at h
    obtain ⟨clause', others', hmore, rfl, rfl⟩ := h
    exact .inr (.inr ⟨_, clause', others', hmore, rfl, rfl⟩)
  · cases h

/-- No clause is empty, and every value is the one that is compared. -/
structure Canonical (clauses : List (List Condition)) : Prop where
  nil_not_mem : [] ∉ clauses
  normal : ∀ c ∈ clauses.flatten, c.Normal

namespace Canonical

variable {c d : Condition} {clause : List Condition} {others : List (List Condition)}

theorem singleton (h : c.Normal) : Canonical [[c]] :=
  ⟨by simp, by simpa using h⟩

theorem cons_iff : Canonical ((c :: clause) :: others) ↔
    c.Normal ∧ (∀ d ∈ clause, d.Normal) ∧ Canonical others := by
  constructor
  · rintro ⟨hnil, hnormal⟩
    rw [List.flatten_cons, List.forall_mem_append, List.forall_mem_cons] at hnormal
    exact ⟨hnormal.1.1, hnormal.1.2, by simpa using hnil, hnormal.2⟩
  · rintro ⟨hc, hclause, hnil, hothers⟩
    refine ⟨by simpa using hnil, ?_⟩
    rw [List.flatten_cons, List.forall_mem_append, List.forall_mem_cons]
    exact ⟨⟨hc, hclause⟩, hothers⟩

theorem cons_cons_iff : Canonical ((c :: d :: clause) :: others) ↔
    c.Normal ∧ Canonical ((d :: clause) :: others) := by
  rw [cons_iff, cons_iff, List.forall_mem_cons, and_assoc]

theorem singleton_cons_iff : Canonical ([c] :: others) ↔ c.Normal ∧ Canonical others := by
  rw [cons_iff]
  simp

end Canonical

theorem canonical_of_readClauses {limit : Nat} {cur : Cursor} {clause : List Condition}
    {others : List (List Condition)} (h : readClauses limit cur = .ok (clause, others)) :
    Canonical (clause :: others) := by
  induction limit generalizing cur clause others with
  | zero => cases h
  | succ limit ih =>
      obtain ⟨c, cur', hc, hmore⟩ := readClauses_cases h
      have hnormal := normal_of_readCondition hc
      obtain ⟨rfl, rfl⟩ | ⟨_, clause', hmore, rfl⟩ | ⟨_, clause', others', hmore, rfl, rfl⟩ := hmore
      · exact Canonical.singleton hnormal
      · cases clause' with
        | nil => exact absurd (List.mem_cons_self ..) (ih hmore).nil_not_mem
        | cons d clause' => exact Canonical.cons_cons_iff.mpr ⟨hnormal, ih hmore⟩
      · exact Canonical.singleton_cons_iff.mpr ⟨hnormal, ih hmore⟩

theorem parse_eq_ok_iff {t : String} {p : Predicate} :
    parse t = .ok p ↔ ∃ clause others,
      readClauses (t.toList.length + 1) (Cursor.ofText t) = .ok (clause, others) ∧
        p = ⟨clause :: others⟩ := by
  rw [parse]
  cases hread : readClauses (t.toList.length + 1) (Cursor.ofText t) with
  | ok result =>
      obtain ⟨clause, others⟩ := result
      constructor
      · intro h
        exact ⟨clause, others, rfl, (Except.ok.inj h).symm⟩
      · rintro ⟨_, _, heq, rfl⟩
        obtain ⟨rfl, rfl⟩ := Prod.mk.inj (Except.ok.inj heq)
        rfl
  | error refusal => simp

end Normal

section Conditions

variable {c : Condition} {blanks : List Char}

theorem toList_text (c : Condition) (tail : List Char) :
    c.text.toList ++ tail = c.subject.longName.toList ++
      ([' '] ++ (c.op.symbol.toList ++ ([' '] ++
        '\'' :: (escaped c.value.toList ++ '\'' :: tail)))) := by
  simp [Condition.text, Condition.escape_eq_escaped, String.toList_append]

theorem isKeyChar_longName (a : Attribute) : ∀ c ∈ a.longName.toList, isKeyChar c = true := by
  have hall : a.longName.toList.all isKeyChar = true := by cases a <;> decide
  exact List.all_eq_true.mp hall

theorem ofName?_longName (a : Attribute) : Attribute.ofName? a.longName = some a := by
  cases a <;> decide

theorem symbol_mem_spellings (op : MatchOp) : (op.symbol, op) ∈ spellings := by
  cases op <;> decide

theorem isBlank_space : ∀ b ∈ [' '], Text.isBlank b = true :=
  List.forall_mem_singleton.mpr rfl

/-- A printed condition is read like its value. -/
theorem readCondition_text (c : Condition) (hblanks : ∀ b ∈ blanks, Text.isBlank b = true)
    (o : Nat) (tail : List Char) :
    ∃ o', readCondition ⟨o, blanks ++ (c.text.toList ++ tail)⟩ =
      readQuoted ⟨o', '\'' :: (escaped c.value.toList ++ '\'' :: tail)⟩ >>= fun (value, cur) =>
        .ok (⟨c.subject, c.op, normalValue c.subject value⟩, cur) := by
  rw [toList_text]
  refine readCondition_append hblanks ?_ (isKeyChar_longName c.subject) isBlank_space
    (symbol_mem_spellings c.op) rfl isBlank_space ?_
  · rw [String.ofList_toList, ofName?_longName c.subject]
  · intro q hq
    obtain rfl : '\'' = q := by simpa using hq
    decide

/-- A printed condition without backslashes is read again. -/
theorem readCondition_text_eq (hnormal : c.Normal) (hvalue : '\\' ∉ c.value.toList)
    (hblanks : ∀ b ∈ blanks, Text.isBlank b = true) (o : Nat) (tail : List Char) :
    ∃ o', readCondition ⟨o, blanks ++ (c.text.toList ++ tail)⟩ = .ok (c, ⟨o', tail⟩) := by
  obtain ⟨o', hread⟩ := readCondition_text c hblanks o tail
  have hquoted := readQuoted_append (o := o') (.inl rfl) (quotedBody?_escaped hvalue tail)
  have hsame : normalValue c.subject (String.ofList c.value.toList) = c.value := by
    rw [String.ofList_toList]
    exact hnormal
  rw [hread, hquoted]
  simp only [bind, Except.bind, hsame]
  exact ⟨_, rfl⟩

/-- A printed condition that is read again holds no backslash. -/
theorem not_mem_of_readCondition_text {o : Nat} {tail : List Char}
    (hblanks : ∀ b ∈ blanks, Text.isBlank b = true) {cur : Cursor}
    (h : readCondition ⟨o, blanks ++ (c.text.toList ++ tail)⟩ = .ok (c, cur)) :
    '\\' ∉ c.value.toList := by
  intro hmem
  obtain ⟨o', hread⟩ := readCondition_text c hblanks o tail
  rw [hread, bind_eq_ok] at h
  obtain ⟨⟨value, cur'⟩, hquoted, heq⟩ := h
  have hvalue : normalValue c.subject value = c.value :=
    congrArg (Condition.value ∘ Prod.fst) (Except.ok.inj heq)
  have hsame : value = c.value := (normalValue_eq_of_mem (hvalue ▸ hmem)).symm.trans hvalue
  rw [readQuoted] at hquoted
  cases hbody : quotedBody? '\'' (escaped c.value.toList ++ '\'' :: tail) with
  | none => simp [hbody, Cursor.refuse] at hquoted
  | some body =>
      obtain ⟨body, m⟩ := body
      have hlist : body = c.value.toList := by
        simp [hbody, hsame] at hquoted
        rw [← hquoted.1, String.toList_ofList]
      rw [hlist] at hbody
      exact (not_mem_of_quotedBody?_escaped c.value.toList 0 m hbody).2 hmem

end Conditions

section Texts

/-- Conditions of a clause after its first one, as they are printed. -/
def andText (clause : List Condition) : List Char :=
  clause.flatMap fun c => " AND ".toList ++ c.text.toList

/-- Clauses after the first one, as they are printed. -/
def orText (others : List (List Condition)) : List Char :=
  others.flatMap fun clause => " OR ".toList ++ (clauseText clause).toList

theorem toList_clauseText (c : Condition) (clause : List Condition) :
    (clauseText (c :: clause)).toList = c.text.toList ++ andText clause := by
  simp [clauseText, Text.intercalate_cons, andText, List.flatMap_map]

theorem toList_text_cons (c : Condition) (clause : List Condition)
    (others : List (List Condition)) :
    (text ⟨(c :: clause) :: others⟩).toList =
      c.text.toList ++ (andText clause ++ orText others) := by
  simp [text, Text.intercalate_cons, toList_clauseText, orText, List.flatMap_map]

theorem andText_cons (c : Condition) (clause : List Condition) (tail : List Char) :
    andText (c :: clause) ++ tail =
      [' '] ++ ("AND".toList ++ ' ' :: (c.text.toList ++ (andText clause ++ tail))) := by
  simp [andText]

theorem orText_cons (c : Condition) (clause : List Condition) (others : List (List Condition)) :
    orText ((c :: clause) :: others) =
      [' '] ++ ("OR".toList ++ ' ' :: (c.text.toList ++ (andText clause ++ orText others))) := by
  simp [orText, toList_clauseText]

variable {c : Condition} {clause : List Condition} {others : List (List Condition)} {limit : Nat}
  {blanks : List Char}

theorem exists_readCondition_of_readClauses {cur : Cursor}
    (h : readClauses limit cur = .ok (c :: clause, others)) :
    ∃ cur', readCondition cur = .ok (c, cur') := by
  cases limit with
  | zero => cases h
  | succ limit =>
      obtain ⟨d, cur', hread, hmore⟩ := readClauses_cases h
      obtain ⟨heq, -⟩ | ⟨_, _, -, heq⟩ | ⟨_, _, _, -, heq, -⟩ := hmore
      all_goals
        obtain rfl := (List.cons.inj heq).1
        exact ⟨cur', hread⟩

/-- The clauses of a printed predicate are read again exactly when no value holds a backslash. -/
theorem readClauses_text_iff (o : Nat) (hcanonical : Canonical ((c :: clause) :: others))
    (hlimit : ((c :: clause) :: others).flatten.length ≤ limit)
    (hblanks : ∀ b ∈ blanks, Text.isBlank b = true) :
    readClauses limit ⟨o, blanks ++ (c.text.toList ++ (andText clause ++ orText others))⟩ =
        .ok (c :: clause, others) ↔
      ∀ d ∈ ((c :: clause) :: others).flatten, '\\' ∉ d.value.toList := by
  induction limit generalizing c clause others o blanks with
  | zero => simp at hlimit
  | succ limit ih =>
      by_cases hvalue : '\\' ∈ c.value.toList
      · apply iff_of_false
        · intro h
          obtain ⟨cur', hread⟩ := exists_readCondition_of_readClauses h
          exact not_mem_of_readCondition_text hblanks hread hvalue
        · intro h
          exact h c (by simp) hvalue
      have hnormal : c.Normal := hcanonical.normal c (by simp)
      obtain ⟨o', hread⟩ := readCondition_text_eq hnormal hvalue hblanks o
        (andText clause ++ orText others)
      cases clause with
      | cons d clause =>
          rw [andText_cons] at hread
          obtain ⟨o', hclauses⟩ := readClauses_and limit hread isBlank_space List.mem_cons_self rfl
            rfl
          have hmore := (Canonical.cons_cons_iff.mp hcanonical).2
          have ih := ih o' hmore (by simpa using hlimit) isBlank_space
          calc
            _ ↔ readClauses limit ⟨o', [' '] ++ (d.text.toList ++ (andText clause ++
                orText others))⟩ = .ok (d :: clause, others) := by
              rw [andText_cons, hclauses, bind_eq_ok]
              simp
            _ ↔ _ := ih
            _ ↔ _ := by simp [hvalue]
      | nil =>
          cases others with
          | nil =>
              have hclauses := readClauses_end limit hread (by simp [andText, orText])
              rw [hclauses]
              simpa using hvalue
          | cons clause others =>
              cases clause with
              | nil => exact absurd (by simp) hcanonical.nil_not_mem
              | cons d clause =>
                  have hshape : andText [] ++ orText ((d :: clause) :: others) =
                      orText ((d :: clause) :: others) := rfl
                  rw [hshape, orText_cons] at hread
                  obtain ⟨o', hclauses⟩ :=
                    readClauses_or limit hread isBlank_space List.mem_cons_self rfl rfl
                  have hmore := (Canonical.singleton_cons_iff.mp hcanonical).2
                  have ih := ih o' hmore (by simpa using hlimit) isBlank_space
                  calc
                    _ ↔ readClauses limit ⟨o', [' '] ++ (d.text.toList ++ (andText clause ++
                        orText others))⟩ = .ok (d :: clause, others) := by
                      rw [hshape, orText_cons, hclauses, bind_eq_ok]
                      simp
                    _ ↔ _ := ih
                    _ ↔ _ := by simp [hvalue]

end Texts

theorem length_text_pos (c : Condition) : 0 < c.text.toList.length := by
  have hlength := congrArg List.length (toList_text c [])
  simp at hlength
  omega

theorem length_le_andText (clause : List Condition) : clause.length ≤ (andText clause).length := by
  induction clause with
  | nil => simp
  | cons c clause ih =>
      have hlength := congrArg List.length (andText_cons c clause [])
      simp at hlength
      simp
      omega

theorem length_le_clauseText (clause : List Condition) :
    clause.length ≤ (clauseText clause).toList.length := by
  cases clause with
  | nil => simp
  | cons c clause =>
      have hand := length_le_andText clause
      have hpos := length_text_pos c
      rw [toList_clauseText, List.length_append, List.length_cons]
      omega

theorem length_le_orText (others : List (List Condition)) :
    others.flatten.length ≤ (orText others).length := by
  induction others with
  | nil => simp
  | cons clause others ih =>
      have hclause := length_le_clauseText clause
      have hsplit : orText (clause :: others) =
          " OR ".toList ++ (clauseText clause).toList ++ orText others := by
        simp [orText]
      rw [hsplit, List.flatten_cons, List.length_append, List.length_append, List.length_append]
      omega

/-- A printed predicate has at least as many characters as conditions. -/
theorem length_flatten_le_text (c : Condition) (clause : List Condition)
    (others : List (List Condition)) :
    ((c :: clause) :: others).flatten.length ≤ (text ⟨(c :: clause) :: others⟩).toList.length := by
  have hpos := length_text_pos c
  have hand := length_le_andText clause
  have hor := length_le_orText others
  rw [toList_text_cons]
  simp only [List.flatten_cons, List.length_append, List.length_cons]
  omega

/-- Whatever predicate was read, its text is read as the same predicate exactly when no value of it
holds a backslash. -/
theorem parse_text_iff {t : String} {p : Predicate} (h : parse t = .ok p) :
    parse p.text = .ok p ↔
      ∀ clause ∈ p.clauses, ∀ c ∈ clause, '\\' ∉ c.value.toList := by
  obtain ⟨clause, others, hread, rfl⟩ := parse_eq_ok_iff.mp h
  have hcanonical := canonical_of_readClauses hread
  cases clause with
  | nil => exact absurd (List.mem_cons_self ..) hcanonical.nil_not_mem
  | cons c clause =>
      have hlimit := Nat.le_succ_of_le (length_flatten_le_text c clause others)
      have hblanks : ∀ b ∈ ([] : List Char), Text.isBlank b = true := by simp
      have hiff := readClauses_text_iff 0 hcanonical hlimit hblanks
      rw [List.nil_append, ← toList_text_cons] at hiff
      calc
        _ ↔ readClauses ((text ⟨(c :: clause) :: others⟩).toList.length + 1)
            (Cursor.ofText (text ⟨(c :: clause) :: others⟩)) = .ok (c :: clause, others) := by
          rw [parse_eq_ok_iff]
          simp
        _ ↔ _ := hiff
        _ ↔ _ := by
          simp only [List.mem_flatten]
          grind

/-- Quotes in a value and types under either of their names come back. -/
theorem parse_text_quote : ∃ p, parse "type == 'Button' && label != \"it's\"" = .ok p ∧
    parse p.text = .ok p := by
  have hread : ∃ p, parse "type == 'Button' && label != \"it's\"" = .ok p ∧
      decide (∀ clause ∈ p.clauses, ∀ c ∈ clause, '\\' ∉ c.value.toList) = true := by
    apply exists_eq_ok_of_toOption_any
    decide +kernel
  obtain ⟨p, hp, hplain⟩ := hread
  exact ⟨p, hp, (parse_text_iff hp).mpr (of_decide_eq_true hplain)⟩

/-- A backslash in a value is printed as it is and lost when the text is read again. -/
theorem parse_text_backslash : ∃ p, parse "label == 'a\\\\b'" = .ok p ∧
    parse p.text ≠ .ok p := by
  have hread : ∃ p, parse "label == 'a\\\\b'" = .ok p ∧
      decide ((parse p.text).toOption ≠ some p) = true := by
    apply exists_eq_ok_of_toOption_any
    decide +kernel
  obtain ⟨p, hp, hlost⟩ := hread
  refine ⟨p, hp, ?_⟩
  intro hagain
  exact of_decide_eq_true hlost (congrArg Except.toOption hagain)

end Predicate

end UiTree
