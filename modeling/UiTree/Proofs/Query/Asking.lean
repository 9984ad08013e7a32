import UiTree.Proofs.Query.RoundTrip
import UiTree.Proofs.Query.Selection

/-!
# Texts that ask for a test

A text asks for a test of snapshot nodes if it is read as an expression that decides the test. Texts
that compare an attribute with a given text are put into parentheses, negated and joined to texts
that ask for more.

## Implementation notes

The pieces of a text end before whatever follows them, so the tokens of the whole are those of the
pieces one after the other. Texts are joined by `and` and by `or` in the same way, to a chain of one
operator.
-/

namespace UiTree.Query

/-- Some characters are read as tokens, whatever follows them. -/
def Written (ts : List Token) (text : List Char) : Prop :=
  ∀ us more, Spells us more → Spells (ts ++ us) (text ++ more)

namespace Written

variable {ts us : List Token} {text more : List Char} {s : Symbol}

theorem append (h : Written ts text) (h' : Written us more) :
    Written (ts ++ us) (text ++ more) := by
  intro others rest hrest
  rw [List.append_assoc, List.append_assoc]
  exact h _ _ (h' _ _ hrest)

theorem spells (h : Written ts text) : Spells ts text := by
  have hall := h [] [] (.nil fun _ hc => nomatch hc)
  rwa [List.append_nil, List.append_nil] at hall

theorem blank : Written [] [' '] :=
  fun _ _ h => h.blank

theorem literal {s : String} (h : '\'' ∉ s.toList) :
    Written [.literal s] ('\'' :: (s.toList ++ ['\''])) := by
  intro us more hmore
  have hspelled := Token.Spelled.literal (.inl rfl) h
  rw [String.ofList_toList] at hspelled
  exact .tight hspelled (fun _ _ => id) hmore

/-- A symbol that nothing extends. -/
theorem symbol (hs : ∀ c, ¬ (Token.symbol s).Extends c) : Written [.symbol s] s.text.toList :=
  fun _ _ hmore => .tight (.symbol s) (fun c _ => hs c) hmore

/-- A name ends before a character that no name goes on with. -/
theorem name {name : String} {c : Char} (hname : IsName name.toList)
    (h : Written ts (c :: text)) (hc : isNameChar c = false) :
    Written (.name name :: ts) (name.toList ++ c :: text) := by
  intro us more hmore
  rw [List.append_assoc]
  exact .tight (spelled_name hname) (name_endsBefore hc name (text ++ more)) (h us more hmore)

/-- A keyword between two blanks. -/
theorem keyword {word : String} (hword : IsName word.toList) :
    Written [.name word] (' ' :: (word.toList ++ [' '])) :=
  blank.append (name hword blank (by decide))

end Written

variable {m n : Nat} {text : List Char} {test : SnapshotNode → Bool}

/-- A text is read as an expression of a tier, whatever follows it, and the expression decides a
test of snapshot nodes. -/
def Asks (n : Nat) (text : List Char) (test : SnapshotNode → Bool) : Prop :=
  ∃ ts e, Written ts text ∧ Parser.Spelt n ts e ∧ e.Decides test

theorem Asks.mono (h : Asks m text test) (hmn : m ≤ n) : Asks n text test := by
  obtain ⟨ts, e, hwritten, hspelt, hdecides⟩ := h
  exact ⟨ts, e, hwritten, hspelt.mono hmn, hdecides⟩

theorem written_paren {ts : List Token} (h : Written ts text) :
    Written (.symbol .openParen :: (ts ++ [.symbol .closeParen])) ('(' :: (text ++ [')'])) := by
  have hopen : Written [.symbol .openParen] ['('] := .symbol fun _ => id
  have hclose : Written [.symbol .closeParen] [')'] := .symbol fun _ => id
  exact hopen.append (h.append hclose)

theorem Asks.paren (h : Asks 5 text test) : Asks 0 ('(' :: (text ++ [')'])) test := by
  obtain ⟨ts, e, hwritten, hspelt, hdecides⟩ := h
  exact ⟨_, e, written_paren hwritten, hspelt.paren, hdecides⟩

theorem written_call (f : Function) {ts : List Token} (h : Written ts text) :
    Written (.name f.name :: .symbol .openParen :: (ts ++ [.symbol .closeParen]))
      (f.name.toList ++ '(' :: (text ++ [')'])) :=
  .name (isName_function f) (written_paren h) (by decide)

theorem Asks.not (h : Asks 5 text test) :
    Asks 0 ("not".toList ++ '(' :: (text ++ [')'])) fun n => !test n := by
  obtain ⟨ts, e, hwritten, hspelt, hdecides⟩ := h
  have hcall : Parser.Spelt 0
      (.name Function.not.name :: .symbol .openParen :: (ts ++ [.symbol .closeParen]))
      (.call .not [e]) := by
    have hcall : Parser.Spelt 0 _ (.call .not ([(ts, e)].map Prod.snd)) :=
      .call .not rfl nofun (List.forall_mem_singleton.mpr hspelt)
    simpa [separated] using hcall
  exact ⟨_, _, written_call .not hwritten, hcall, hdecides.not⟩

section Conditions

variable {a : DocumentAttribute} {v : String}

/-- The tokens of an attribute: its name after a mark. -/
def attributeTokens (a : DocumentAttribute) : List Token :=
  [.symbol .at, .name a.documentName]

theorem written_attribute {ts : List Token} {c : Char} (a : DocumentAttribute)
    (h : Written ts (c :: text)) (hc : isNameChar c = false) :
    Written (attributeTokens a ++ ts)
      ('@' :: (a.documentName.toList ++ c :: text)) := by
  have hmark : Written [.symbol .at] ['@'] := .symbol fun _ => id
  exact hmark.append (.name (isName_attribute a) h hc)

theorem spelt_attribute (a : DocumentAttribute) :
    Parser.Spelt 0 (attributeTokens a) (.attribute a) := by
  have hstep : Parser.StepSpelt (attributeTokens a) (.mk .attributes (.named a) []) :=
    ⟨[.symbol .at], [.name a.documentName], [], .attributes,
      .named rfl (ofName?_attributeName a), nofun, rfl, rfl⟩
  have hpath : Parser.Spelt 0 _
      (.path false ([(attributeTokens a, Step.mk .attributes (.named a) [])].map Prod.snd)) :=
    Parser.spelt_relative (List.cons_ne_nil _ _) (List.forall_mem_singleton.mpr hstep)
  exact hpath

theorem asks_equal (a : DocumentAttribute) (hv : '\'' ∉ v.toList) :
    Asks 3 ('@' :: (a.documentName.toList ++ '=' :: '\'' :: (v.toList ++ ['\''])))
      fun n => n.text? a == some v := by
  have hequal : Written [.symbol .equal] ['='] := .symbol fun _ => id
  have hchain : Parser.Leads 1 (attributeTokens a) (.attribute a) :=
    ((spelt_attribute a).mono (Nat.zero_le 2)).leads
  have hliteral : Parser.Spelt 2 [.literal v] (.literal v) :=
    (Parser.spelt_literal v).mono (Nat.zero_le 2)
  have hequality : Parser.Leads 1 (attributeTokens a ++ Operator.equal.token :: [.literal v])
      (.binary .equal (.attribute a) (.literal v)) := hchain.binary rfl hliteral
  exact ⟨_, _, written_attribute a (hequal.append (.literal hv)) (by decide), hequality.spelt,
    decides_equal a v⟩

/-- A function of the text of an attribute and a given text. -/
theorem asks_call {f : Function} {compare : String → String → Bool}
    (haccepts : f.accepts 2 = true) (hcount : f ≠ .count)
    (hdecides : (Expr.call f [.attribute a, .literal v]).Decides fun n =>
      compare ((n.text? a).getD "") v) (hv : '\'' ∉ v.toList) :
    Asks 0 (f.name.toList ++ '(' ::
        ('@' :: (a.documentName.toList ++ ',' :: '\'' :: (v.toList ++ ['\''])) ++ [')']))
      fun n => compare ((n.text? a).getD "") v := by
  have hcomma : Written [.symbol .comma] [','] := .symbol fun _ => id
  have hcall : Parser.Spelt 0
      (.name f.name :: .symbol .openParen ::
        (attributeTokens a ++ [.symbol .comma, .literal v] ++ [.symbol .closeParen]))
      (.call f [.attribute a, .literal v]) := by
    have hattribute : Parser.Spelt 5 (attributeTokens a) (.attribute a) :=
      (spelt_attribute a).mono (Nat.zero_le 5)
    have hliteral : Parser.Spelt 5 [.literal v] (.literal v) :=
      (Parser.spelt_literal v).mono (Nat.zero_le 5)
    have hcall : Parser.Spelt 0 _ (.call f
        ([(attributeTokens a, Expr.attribute a), ([Token.literal v], .literal v)].map Prod.snd)) :=
      .call f haccepts (fun hf => absurd hf hcount)
        (List.forall_mem_cons.mpr ⟨hattribute, List.forall_mem_singleton.mpr hliteral⟩)
    exact hcall
  exact ⟨_, _, written_call f (written_attribute a (hcomma.append (.literal hv)) (by decide)),
    hcall, hdecides⟩

end Conditions

section Chains

variable {α : Type} {op : Operator} {join : Bool → Bool → Bool} {sep : List Char}
  {texts : α → List Char} {tests : α → SnapshotNode → Bool}

/-- Operands that are joined to a chain one after the other are joined by what the operator does to
their tests. -/
theorem exists_chain (hop : op.tier = n + 2) (hsep : Written [op.token] sep)
    (hjoin : ∀ {e e' : Expr} {test test' : SnapshotNode → Bool}, e.Decides test →
      e'.Decides test' → (Expr.binary op e e').Decides fun n => join (test n) (test' n))
    {ys : List α} (h : ∀ y ∈ ys, Asks (n + 1) (texts y) (tests y)) {ts : List Token} {e : Expr}
    (hwritten : Written ts text) (hleads : Parser.Leads n ts e) (hdecides : e.Decides test) :
    ∃ ts' e', Written ts' (text ++ ys.flatMap fun y => sep ++ texts y) ∧
      Parser.Leads n ts' e' ∧
        e'.Decides fun n => ys.foldl (fun b y => join b (tests y n)) (test n) := by
  induction ys generalizing ts e text test with
  | nil =>
      rw [List.flatMap_nil, List.append_nil]
      exact ⟨ts, e, hwritten, hleads, hdecides⟩
  | cons y ys ih =>
      obtain ⟨⟨us, e', hwritten', hspelt, hdecides'⟩, hys⟩ := List.forall_mem_cons.mp h
      rw [List.flatMap_cons, ← List.append_assoc]
      exact ih hys (hwritten.append (hsep.append hwritten')) (hleads.binary hop hspelt)
        (hjoin hdecides hdecides')

/-- A chain of operands with an operator between each two. -/
theorem asks_chain (hop : op.tier = n + 2) (hsep : Written [op.token] sep)
    (hjoin : ∀ {e e' : Expr} {test test' : SnapshotNode → Bool}, e.Decides test →
      e'.Decides test' → (Expr.binary op e e').Decides fun n => join (test n) (test' n))
    {y : α} {ys : List α} (h : ∀ x ∈ y :: ys, Asks (n + 1) (texts x) (tests x)) :
    Asks (n + 2) (texts y ++ ys.flatMap fun y => sep ++ texts y) fun n =>
      ys.foldl (fun b y => join b (tests y n)) (tests y n) := by
  obtain ⟨⟨ts, e, hwritten, hspelt, hdecides⟩, hys⟩ := List.forall_mem_cons.mp h
  obtain ⟨ts', e', hwritten', hleads, hdecides'⟩ :=
    exists_chain hop hsep hjoin hys hwritten hspelt.leads hdecides
  exact ⟨ts', e', hwritten', hleads.spelt, hdecides'⟩

theorem foldl_and (p : α → Bool) (b : Bool) (ys : List α) :
    ys.foldl (fun b y => b && p y) b = (b && ys.all p) := by
  induction ys generalizing b with
  | nil => simp
  | cons y ys ih => rw [List.foldl_cons, ih, List.all_cons, Bool.and_assoc]

theorem foldl_or (p : α → Bool) (b : Bool) (ys : List α) :
    ys.foldl (fun b y => b || p y) b = (b || ys.any p) := by
  induction ys generalizing b with
  | nil => simp
  | cons y ys ih => rw [List.foldl_cons, ih, List.any_cons, Bool.or_assoc]

/-- Texts joined by `and` ask whether all tests hold. -/
theorem asks_all {y : α} {ys : List α} (h : ∀ x ∈ y :: ys, Asks 3 (texts x) (tests x)) :
    Asks 4 (texts y ++ ys.flatMap fun y => " and ".toList ++ texts y) fun n =>
      (y :: ys).all (tests · n) := by
  have hand : Written [Operator.and.token] " and ".toList :=
    .keyword (isName_of_isNameText (by decide))
  have hchain : Asks (2 + 2) (texts y ++ ys.flatMap fun y => " and ".toList ++ texts y) fun n =>
      ys.foldl (fun b y => b && tests y n) (tests y n) :=
    asks_chain rfl hand Expr.Decides.and h
  simp only [foldl_and] at hchain
  exact hchain

/-- Texts joined by `or` ask whether some test holds. -/
theorem asks_any {y : α} {ys : List α} (h : ∀ x ∈ y :: ys, Asks 4 (texts x) (tests x)) :
    Asks 5 (texts y ++ ys.flatMap fun y => " or ".toList ++ texts y) fun n =>
      (y :: ys).any (tests · n) := by
  have hor : Written [Operator.or.token] " or ".toList :=
    .keyword (isName_of_isNameText (by decide))
  have hchain : Asks (3 + 2) (texts y ++ ys.flatMap fun y => " or ".toList ++ texts y) fun n =>
      ys.foldl (fun b y => b || tests y n) (tests y n) :=
    asks_chain rfl hor Expr.Decides.or h
  simp only [foldl_or] at hchain
  exact hchain

end Chains

/-- All elements with a condition. -/
theorem parse_everywhere (h : Asks 5 text test) :
    ∃ e, parse (String.ofList ("//*[".toList ++ (text ++ [']']))) = .ok (Expr.everywhere e) ∧
      e.Decides test := by
  obtain ⟨ts, e, hwritten, hspelt, hdecides⟩ := h
  have hslashes : Written [.symbol .doubleSlash] ['/', '/'] := .symbol fun _ => id
  have hstar : Written [.symbol .star] ['*'] := .symbol fun _ => id
  have hopen : Written [.symbol .openBracket] ['['] := .symbol fun _ => id
  have hclose : Written [.symbol .closeBracket] [']'] := .symbol fun _ => id
  have hstep : Parser.StepSpelt (.symbol .star :: bracketed [ts]) (.mk .child .anyName [e]) :=
    ⟨[], [.symbol .star], [(ts, e)], .child, .anyName, List.forall_mem_singleton.mpr hspelt, rfl,
      rfl⟩
  have hpath : Parser.Spelt 0 (.symbol .doubleSlash :: .symbol .star :: bracketed [ts])
      e.everywhere := by
    have hpath : Parser.Spelt 0 _ (.path true (.anywhere ::
        [(.symbol .star :: bracketed [ts], Step.mk .child .anyName [e])].map Prod.snd)) :=
      Parser.spelt_anywhere (List.cons_ne_nil _ _) (List.forall_mem_singleton.mpr hstep)
    simp only [List.map_cons, List.map_nil, separated, List.flatMap_nil, List.append_nil] at hpath
    exact hpath
  have hspells : Spells (.symbol .doubleSlash :: .symbol .star :: bracketed [ts])
      (String.ofList ("//*[".toList ++ (text ++ [']']))).toList := by
    have hall := hslashes.append (hstar.append (hopen.append (hwritten.append hclose)))
    rw [String.toList_ofList]
    simpa [bracketed] using hall.spells
  exact ⟨e, parse_of_spells hspells (hpath.mono (Nat.zero_le 5)), hdecides⟩

end UiTree.Query
