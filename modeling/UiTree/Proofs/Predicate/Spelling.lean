import UiTree.Proofs.Predicate.RoundTrip

/-!
# Spellings of predicates

A predicate is spelled by spelling its conditions in order with connectives between them. Every name
of an attribute will do, every spelling of an operator or a connective in upper or lower case, both
kinds of quotes, and any white space. All spellings of a predicate are read alike.

## Implementation notes

Inside quotes a backslash stands before every backslash and before every quote of the kind that
encloses the value. The other kind of quote, connectives and operators need no backslash there.
-/

namespace UiTree

namespace Text

/-- The characters are all white space. -/
def Blanks (cs : List Char) : Prop :=
  ∀ c ∈ cs, isBlank c = true

/-- The characters are white space, at least one of them. -/
def Gap (cs : List Char) : Prop :=
  cs ≠ [] ∧ Blanks cs

instance (cs : List Char) : Decidable (Blanks cs) :=
  decidable_of_iff (cs.all isBlank = true) List.all_eq_true

instance (cs : List Char) : Decidable (Gap cs) :=
  inferInstanceAs (Decidable (cs ≠ [] ∧ Blanks cs))

/-- The characters are a word in upper or lower case. -/
def Recased (word : String) (cs : List Char) : Prop :=
  cs.map Char.toLower = word.toList.map Char.toLower

instance (word : String) (cs : List Char) : Decidable (Recased word cs) :=
  inferInstanceAs (Decidable (cs.map Char.toLower = word.toList.map Char.toLower))

theorem Gap.exists_cons {cs : List Char} (h : Gap cs) :
    ∃ c rest, cs = c :: rest ∧ isBlank c = true ∧ Blanks rest := by
  obtain ⟨hne, hblanks⟩ := h
  obtain ⟨c, rest, rfl⟩ := List.exists_cons_of_ne_nil hne
  exact ⟨c, rest, rfl, hblanks c List.mem_cons_self,
    fun d hd => hblanks d (List.mem_cons_of_mem _ hd)⟩

theorem gap_space : Gap [' '] :=
  ⟨List.cons_ne_nil _ _, List.forall_mem_singleton.mpr rfl⟩

end Text

open Text (gap_space Blanks Gap Recased)

namespace Condition

/-- A value with a backslash before each backslash and before each quote of a kind. -/
def shielded (quote : Char) (w : List Char) : List Char :=
  w.flatMap fun c => if c = '\\' ∨ c = quote then ['\\', c] else [c]

/-- The words for an operator. -/
def wordsFor (op : MatchOp) : List String :=
  if op = .equals then [op.symbol, "="] else [op.symbol]

/-- The characters spell the condition. -/
inductive Spells : Condition → List Char → Prop where
  | intro {subject : Attribute} {op : MatchOp} {value key word : String}
      {before spelling between : List Char} {quote : Char} (hkey : key ∈ subject.names)
      (hbefore : Gap before) (hword : word ∈ wordsFor op) (hspelling : Recased word spelling)
      (hbetween : Gap between) (hquote : quote = '\'' ∨ quote = '"') :
      Spells ⟨subject, op, value⟩ (key.toList ++ (before ++ (spelling ++ (between ++
        quote :: (shielded quote value.toList ++ [quote])))))

theorem Spells.length_pos {c : Condition} {cs : List Char} (h : c.Spells cs) :
    0 < cs.length := by
  cases h with
  | intro => simp only [List.length_append, List.length_cons]; omega

theorem exists_spells (c : Condition) : ∃ cs, c.Spells cs := by
  have hkey : c.subject.longName ∈ c.subject.names := List.mem_cons_self
  have hword : c.op.symbol ∈ wordsFor c.op := by
    rw [wordsFor]
    split <;> exact List.mem_cons_self
  exact ⟨_, .intro hkey gap_space hword rfl gap_space (.inl rfl)⟩

/-- The condition that is read: the name of a type stands for the name of its elements. -/
def normalized (c : Condition) : Condition :=
  { c with value := Predicate.normalValue c.subject c.value }

end Condition

namespace Predicate

open Condition (shielded wordsFor)

/-- The characters spell the clauses. -/
inductive Spells : List (List Condition) → List Char → Prop where
  | last {c : Condition} {cs : List Char} (h : c.Spells cs) : Spells [[c]] cs
  | and {c d : Condition} {clause : List Condition} {others : List (List Condition)}
      {word : String} {cs before spelling after rest : List Char} (h : c.Spells cs)
      (hbefore : Gap before) (hword : word ∈ ["AND", "&&"]) (hspelling : Recased word spelling)
      (hafter : Gap after) (hrest : Spells ((d :: clause) :: others) rest) :
      Spells ((c :: d :: clause) :: others) (cs ++ (before ++ (spelling ++ (after ++ rest))))
  | or {c : Condition} {clause : List Condition} {others : List (List Condition)}
      {word : String} {cs before spelling after rest : List Char} (h : c.Spells cs)
      (hbefore : Gap before) (hword : word ∈ ["OR", "||"]) (hspelling : Recased word spelling)
      (hafter : Gap after) (hrest : Spells (clause :: others) rest) :
      Spells ([c] :: clause :: others) (cs ++ (before ++ (spelling ++ (after ++ rest))))

section Conditions

variable {c : Condition} {cs blanks tail : List Char}

theorem quotedBody?_shielded {quote : Char} (hquote : quote ≠ '\\') (w tail : List Char) :
    quotedBody? quote (shielded quote w ++ quote :: tail) =
      some (w, (shielded quote w).length + 1) := by
  induction w with
  | nil => exact quotedBody?_quote hquote tail
  | cons c w ih =>
      by_cases hc : c = '\\' ∨ c = quote
      · have hcons : shielded quote (c :: w) = '\\' :: c :: shielded quote w := by
          simp [shielded, hc]
        rw [hcons, List.cons_append, List.cons_append, quotedBody?_backslash, ih]
        rfl
      · have hcons : shielded quote (c :: w) = c :: shielded quote w := by
          simp [shielded, hc]
        obtain ⟨hescape, hdiffers⟩ := not_or.mp hc
        rw [hcons, List.cons_append, quotedBody?_cons hescape hdiffers, ih]
        rfl

theorem ofName?_of_mem_names {key : String} {a : Attribute} (h : key ∈ a.names) :
    Attribute.ofName? key = some a := by
  have hnames : ∀ key ∈ a.names, Attribute.ofName? key = some a := by cases a <;> decide
  exact hnames key h

theorem isKeyChar_of_mem_names {key : String} {a : Attribute} (h : key ∈ a.names) :
    ∀ c ∈ key.toList, isKeyChar c = true := by
  have hnames : ∀ key ∈ a.names, key.toList.all isKeyChar = true := by cases a <;> decide
  exact List.all_eq_true.mp (hnames key h)

theorem mem_spellings_of_mem_wordsFor {op : MatchOp} {word : String} (h : word ∈ wordsFor op) :
    (word, op) ∈ spellings := by
  have hwords : ∀ word ∈ wordsFor op, (word, op) ∈ spellings := by cases op <;> decide
  exact hwords word h

/-- A condition is read whatever its spelling, up to its closing quote. -/
theorem readCondition_spells (h : c.Spells cs) (hblanks : Blanks blanks) (o : Nat)
    (tail : List Char) :
    ∃ o', readCondition ⟨o, blanks ++ (cs ++ tail)⟩ = .ok (c.normalized, ⟨o', tail⟩) := by
  cases h with
  | @intro subject op value key word before spelling between quote hkey hbefore hword hspelling
      hbetween hquote =>
    obtain ⟨b, more, rfl, -, -⟩ := hbefore.exists_cons
    obtain ⟨b', more', rfl, -, -⟩ := hbetween.exists_cons
    have hkey' : Attribute.ofName? (String.ofList key.toList) = some subject := by
      rw [String.ofList_toList]
      exact ofName?_of_mem_names hkey
    have hquoted : ∀ q ∈ (quote :: (shielded quote value.toList ++ quote :: tail)).head?,
        Text.isBlank q = false := by
      rintro _ ⟨⟩
      obtain rfl | rfl := hquote <;> decide
    have hescape : quote ≠ '\\' := by
      obtain rfl | rfl := hquote <;> decide
    obtain ⟨o', hread⟩ := readCondition_append (o := o) hblanks hkey'
      (isKeyChar_of_mem_names hkey) hbefore.2 (mem_spellings_of_mem_wordsFor hword) hspelling
      hbetween.2 hquoted
    have hvalue := readQuoted_append (o := o') hquote
      (quotedBody?_shielded hescape value.toList tail)
    rw [hvalue, String.ofList_toList] at hread
    simp only [List.append_assoc, List.cons_append, List.nil_append] at hread ⊢
    exact ⟨_, hread⟩

end Conditions

namespace Spells

variable {clauses : List (List Condition)} {cs blanks after : List Char} {limit : Nat}

/-- Every spelling of the clauses is read, and the white space around it does not matter. -/
theorem readClauses (h : Spells clauses cs) (hlimit : clauses.flatten.length ≤ limit)
    (hblanks : Blanks blanks) (hafter : Blanks after) (o : Nat) :
    ∃ clause others, clauses = clause :: others ∧
      Predicate.readClauses limit ⟨o, blanks ++ (cs ++ after)⟩ =
        .ok (clause.map .normalized, others.map (·.map .normalized)) := by
  induction h generalizing limit blanks o with
  | @last c cs h =>
      obtain ⟨limit, rfl⟩ : ∃ n, limit = n + 1 := ⟨limit - 1, by simp at hlimit; omega⟩
      obtain ⟨o', hread⟩ := readCondition_spells h hblanks o after
      exact ⟨[c], [], rfl, readClauses_end limit hread hafter⟩
  | @and c d clause others word cs before spelling gap rest h hbefore hword hspelling hgap _ ih =>
      obtain ⟨limit, rfl⟩ : ∃ n, limit = n + 1 := ⟨limit - 1, by simp at hlimit; omega⟩
      obtain ⟨b, more, rfl, hb, -⟩ := hgap.exists_cons
      obtain ⟨o', hread⟩ := readCondition_spells h hblanks o
        (before ++ (spelling ++ b :: (more ++ (rest ++ after))))
      obtain ⟨o', hclauses⟩ := readClauses_and limit hread hbefore.2 hword hspelling hb
      obtain ⟨_, _, hsplit, hmore⟩ := ih (by simpa using hlimit) hgap.2 o'
      obtain ⟨rfl, rfl⟩ := List.cons.inj hsplit
      refine ⟨_, _, rfl, ?_⟩
      simp only [List.append_assoc, List.cons_append] at hclauses hmore ⊢
      rw [hclauses, hmore]
      rfl
  | @or c clause others word cs before spelling gap rest h hbefore hword hspelling hgap _ ih =>
      obtain ⟨limit, rfl⟩ : ∃ n, limit = n + 1 := ⟨limit - 1, by simp at hlimit; omega⟩
      obtain ⟨b, more, rfl, hb, -⟩ := hgap.exists_cons
      obtain ⟨o', hread⟩ := readCondition_spells h hblanks o
        (before ++ (spelling ++ b :: (more ++ (rest ++ after))))
      obtain ⟨o', hclauses⟩ := readClauses_or limit hread hbefore.2 hword hspelling hb
      obtain ⟨_, _, hsplit, hmore⟩ := ih (by simpa using hlimit) hgap.2 o'
      obtain ⟨rfl, rfl⟩ := List.cons.inj hsplit
      refine ⟨_, _, rfl, ?_⟩
      simp only [List.append_assoc, List.cons_append] at hclauses hmore ⊢
      rw [hclauses, hmore]
      rfl

end Spells

/-- A spelling has at least as many characters as there are conditions. -/
theorem Spells.length_le {clauses : List (List Condition)} {cs : List Char}
    (h : Spells clauses cs) : clauses.flatten.length ≤ cs.length := by
  induction h with
  | last h => exact h.length_pos
  | and h _ _ _ _ _ ih | or h _ _ _ _ _ ih =>
      have hpos := h.length_pos
      simp only [List.flatten_cons, List.length_append, List.length_cons, List.length_nil] at ih ⊢
      omega

/-- Conditions that are not in empty clauses have a spelling. -/
theorem exists_spells {clauses : List (List Condition)} (hne : clauses ≠ [])
    (hnil : [] ∉ clauses) : ∃ cs, Spells clauses cs := by
  match clauses with
  | [] => contradiction
  | [] :: others => exact absurd List.mem_cons_self hnil
  | [[c]] =>
      obtain ⟨cs, h⟩ := c.exists_spells
      exact ⟨cs, .last h⟩
  | (c :: d :: clause) :: others =>
      obtain ⟨cs, h⟩ := c.exists_spells
      have hmore : [] ∉ (d :: clause) :: others := by simpa using hnil
      obtain ⟨rest, hrest⟩ := exists_spells (List.cons_ne_nil _ _) hmore
      exact ⟨_, .and h gap_space List.mem_cons_self rfl gap_space hrest⟩
  | [c] :: clause :: others =>
      obtain ⟨cs, h⟩ := c.exists_spells
      have hmore : [] ∉ clause :: others := by simpa using hnil
      obtain ⟨rest, hrest⟩ := exists_spells (List.cons_ne_nil _ _) hmore
      exact ⟨_, .or h gap_space List.mem_cons_self rfl gap_space hrest⟩
termination_by clauses.flatten.length
decreasing_by
  all_goals
    simp only [List.flatten_cons, List.length_append, List.length_cons, List.length_nil]
    omega

/-- Whatever its spelling, a predicate is read clause by clause, and holds of the nodes that satisfy
all conditions of a clause. -/
theorem parse_normalized {clauses : List (List Condition)} (hne : clauses ≠ [])
    (hnil : [] ∉ clauses) :
    (∃ cs, Spells clauses cs) ∧ ∀ cs before after, Spells clauses cs → Blanks before →
      Blanks after → ∃ p, parse (String.ofList (before ++ (cs ++ after))) = .ok p ∧
        p.clauses = clauses.map (·.map .normalized) ∧
          ∀ n, p.holds n ↔ ∃ clause ∈ clauses, ∀ c ∈ clause, c.normalized.holds n := by
  refine ⟨exists_spells hne hnil, ?_⟩
  intro cs before after h hbefore hafter
  have hlimit : clauses.flatten.length ≤
      (String.ofList (before ++ (cs ++ after))).toList.length + 1 := by
    have hlength := h.length_le
    simp only [String.toList_ofList, List.length_append]
    omega
  obtain ⟨clause, others, rfl, hread⟩ := h.readClauses hlimit hbefore hafter 0
  refine ⟨⟨clause.map .normalized :: others.map (·.map .normalized)⟩, ?_, rfl, ?_⟩
  · rw [parse_eq_ok_iff, Cursor.ofText]
    exact ⟨_, _, by rw [String.toList_ofList] at hread ⊢; exact hread, rfl⟩
  · intro n
    simp [holds]

/-- Keywords, operators and quotes inside the values, and all the freedom there is around them. -/
theorem parse_normalized_mixed :
    ∃ p, parse "  type = \"Button\" aNd wdLabel\tcontains 'it\\'s OR \"x\"' || UID  != '\\\\'\n" =
        .ok p ∧
      p.clauses = [[⟨.type, .equals, "XCUIElementTypeButton"⟩,
        ⟨.label, .contains, "it's OR \"x\""⟩], [⟨.uid, .differs, "\\"⟩]] := by
  let type : Condition := ⟨.type, .equals, "Button"⟩
  let label : Condition := ⟨.label, .contains, "it's OR \"x\""⟩
  let uid : Condition := ⟨.uid, .differs, "\\"⟩
  have htype : type.Spells _ :=
    @Condition.Spells.intro .type .equals "Button" "type" "=" [' '] ['='] [' '] '"' (by decide)
      gap_space (by decide) (by decide) gap_space (.inr rfl)
  have hlabel : label.Spells _ :=
    @Condition.Spells.intro .label .contains "it's OR \"x\"" "wdLabel" "CONTAINS" ['\t']
      "contains".toList [' '] '\'' (by decide) (by decide) (by decide) (by decide)
      gap_space (.inl rfl)
  have huid : uid.Spells _ :=
    @Condition.Spells.intro .uid .differs "\\" "UID" "!=" [' ', ' '] ['!', '='] [' '] '\''
      (by decide) (by decide) (by decide) (by decide) gap_space (.inl rfl)
  have hspells : Spells [[type, label], [uid]] _ :=
    .and htype gap_space List.mem_cons_self (show Recased "AND" ['a', 'N', 'd'] by decide) gap_space
      (.or hlabel gap_space (List.mem_cons_of_mem _ List.mem_cons_self)
        (show Recased "||" ['|', '|'] by decide) gap_space (.last huid))
  obtain ⟨-, hparse⟩ := parse_normalized (List.cons_ne_nil [type, label] [[uid]]) (by decide)
  obtain ⟨p, hp, hclauses, -⟩ :=
    hparse _ [' ', ' '] ['\n'] hspells (by decide) (by decide)
  refine ⟨p, ?_, hclauses.trans (by decide +kernel)⟩
  rw [← hp]
  refine congrArg parse ?_
  decide +kernel

end Predicate

end UiTree
