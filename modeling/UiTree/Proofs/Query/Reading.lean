import UiTree.Proofs.Query.WellFormed

/-!
# Reading tokens whatever follows

The parser reads an expression by tiers, and what it reads ends where something follows that the
tier does not take: nothing, a closing token, or an operator that binds more loosely. A parser reads
some tokens as a value if it does so before everything that ends them, and then it leaves that
over. A loop that reads an item after each separating symbol reads as many items as there are.

## Implementation notes

The tiers are counted from the inside: operands, unions, order, equality, `and`, `or`. Closing
tokens have a tier beyond these, as they end every expression.
-/

namespace UiTree.Query

/-- The tier of an operator: the looser it binds, the greater. -/
def Operator.tier : Operator → Nat
  | .less | .lessEqual | .greater | .greaterEqual => 2
  | .equal | .notEqual => 3
  | .and => 4
  | .or => 5

/-- The token of an operator. -/
def Operator.token : Operator → Token
  | .or => .name "or"
  | .and => .name "and"
  | .equal => .symbol .equal
  | .notEqual => .symbol .notEqual
  | .less => .symbol .less
  | .lessEqual => .symbol .lessEqual
  | .greater => .symbol .greater
  | .greaterEqual => .symbol .greaterEqual

/-- The outermost tier that a token may end an operand of, or `none` if it ends no operand. A
closing token ends every expression. -/
def Token.tier? : Token → Option Nat
  | .symbol .closeParen | .symbol .closeBracket | .symbol .comma => some 6
  | .symbol .pipe => some 1
  | t => (Parser.operator? t).map Operator.tier

theorem operator?_token (op : Operator) : Parser.operator? op.token = some op := by
  cases op <;> rfl

theorem tier?_of_operator? {t : Token} {op : Operator} (h : Parser.operator? t = some op) :
    t.tier? = some op.tier := by
  unfold Parser.operator? at h
  split at h <;> cases h <;> rfl

/-- Some groups of tokens with a token between each two. -/
def separated (sep : Token) : List (List Token) → List Token
  | [] => []
  | group :: groups => group ++ groups.flatMap (sep :: ·)

/-- Some groups of tokens, each in brackets. -/
def bracketed (groups : List (List Token)) : List Token :=
  groups.flatMap fun group => .symbol .openBracket :: (group ++ [.symbol .closeBracket])

namespace Parser

/-- The operators of a tier. -/
def operatorsAt : Nat → List Operator
  | 2 => [.less, .lessEqual, .greater, .greaterEqual]
  | 3 => [.equal, .notEqual]
  | 4 => [.and]
  | 5 => [.or]
  | _ => []

theorem mem_operatorsAt {op : Operator} {n : Nat} : op ∈ operatorsAt n ↔ op.tier = n := by
  unfold operatorsAt
  split
  · cases op <;> simp [Operator.tier]
  · cases op <;> simp [Operator.tier]
  · cases op <;> simp [Operator.tier]
  · cases op <;> simp [Operator.tier]
  · cases op <;> simp_all [Operator.tier] <;> omega

/-- The parser of a tier. -/
def parserAt (stop : Nat) (inner : Parser Expr) : Nat → Parser Expr
  | 0 => primary stop inner
  | 1 => union stop (primary stop inner)
  | n + 2 => joined (operatorsAt (n + 2)) (parserAt stop inner (n + 1))

theorem level_eq_parserAt (stop : Nat) (inner : Parser Expr) :
    level stop inner = parserAt stop inner 5 := rfl

/-- What follows ends an operand of a tier. -/
def Ends (n : Nat) (rest : List Located) : Prop :=
  ∀ t ∈ rest.head?, ∃ m, t.token.tier? = some m ∧ n < m

variable {α : Type} {m n : Nat} {rest : List Located}

theorem ends_nil (n : Nat) : Ends n [] :=
  fun _ h => nomatch h

theorem Ends.mono (h : Ends n rest) (hmn : m ≤ n) : Ends m rest := by
  intro t ht
  obtain ⟨k, hk, hlt⟩ := h t ht
  exact ⟨k, hk, Nat.lt_of_le_of_lt hmn hlt⟩

theorem ends_cons {t : Token} {offset : Nat} (h : t.tier? = some m) (hlt : n < m) :
    Ends n (⟨t, offset⟩ :: rest) := by
  rintro u ⟨⟩
  exact ⟨m, h, hlt⟩

theorem Ends.eat?_eq_none (h : Ends n rest) {s : Symbol}
    (hs : ∀ m, (Token.symbol s).tier? = some m → m ≤ n) : eat? s rest = none := by
  unfold eat?
  split
  · next found offset more =>
    refine if_neg ?_
    rintro rfl
    obtain ⟨k, hk, hlt⟩ := h _ rfl
    have := hs k hk
    omega
  · rfl

theorem Ends.operatorOf?_eq_none (h : Ends n rest) (hmn : m ≤ n) :
    operatorOf? (operatorsAt m) rest = none := by
  unfold operatorOf?
  split
  · next t more =>
    split
    · next op hop =>
      obtain ⟨k, hk, hlt⟩ := h t rfl
      rw [tier?_of_operator? hop] at hk
      refine if_neg fun hmem => ?_
      have htier := mem_operatorsAt.mp (List.contains_iff_mem.mp hmem)
      have := Option.some.inj hk
      omega
    · rfl
  · rfl

/-- A parser reads some tokens as a value, whatever follows of a kind. -/
def Reads (p : Parser α) (Follow : List Located → Prop) (ts : List Token) (a : α) : Prop :=
  ∀ found rest, found.map (·.token) = ts → Follow rest → p (found ++ rest) = .ok (a, rest)

/-- Some tokens spell an expression at a tier. Brackets and parentheses in them are nested less
deep than there are tokens. -/
def Spelt (n : Nat) (ts : List Token) (e : Expr) : Prop :=
  ∀ stop depth, ts.length ≤ depth →
    Reads (parserAt stop (expression stop depth) n) (Ends n) ts e

theorem Spelt.reads_inner {ts : List Token} {e : Expr} (h : Spelt 5 ts e) {stop depth : Nat}
    (hlt : ts.length < depth) : Reads (expression stop depth) (Ends 5) ts e := by
  cases depth with
  | zero => omega
  | succ depth =>
      rw [expression, level_eq_parserAt]
      exact h stop depth (Nat.le_of_lt_succ hlt)

theorem exists_of_map_cons {t : Token} {ts : List Token} {found : List Located}
    (h : found.map (·.token) = t :: ts) :
    ∃ offset more, found = ⟨t, offset⟩ :: more ∧ more.map (·.token) = ts := by
  obtain ⟨⟨_, offset⟩, more, rfl, rfl, hmore⟩ := List.map_eq_cons_iff.mp h
  exact ⟨offset, more, rfl, hmore⟩

theorem exists_of_map_concat {t : Token} {ts : List Token} {found : List Located}
    (h : found.map (·.token) = ts ++ [t]) :
    ∃ offset before, found = before ++ [⟨t, offset⟩] ∧ before.map (·.token) = ts := by
  obtain ⟨before, last, rfl, hbefore, hlast⟩ := List.map_eq_append_iff.mp h
  obtain ⟨offset, more, rfl, hmore⟩ := exists_of_map_cons hlast
  obtain rfl := List.map_eq_nil_iff.mp hmore
  exact ⟨offset, before, rfl, hbefore⟩

@[simp] theorem eat?_self {s : Symbol} {offset : Nat} :
    eat? s (⟨.symbol s, offset⟩ :: rest) = some rest :=
  if_pos rfl

theorem eat?_eq_none_of_ne {s : Symbol} {t : Token} {offset : Nat} (h : t ≠ .symbol s) :
    eat? s (⟨t, offset⟩ :: rest) = none := by
  unfold eat?
  split
  · next heq =>
    cases heq
    exact if_neg fun hs => h (by rw [hs])
  · rfl

@[simp] theorem expect_self {stop : Nat} {s : Symbol} {what : Expectation} {offset : Nat} :
    expect stop s what (⟨.symbol s, offset⟩ :: rest) = .ok rest := by
  rw [expect, eat?_self]

section Repetition

variable {next : α → List Located → Option (Except Refusal (α × List Located))}

theorem repeatWith_stop {a : α} (h : next a rest = none) (limit : Nat) :
    repeatWith next limit a rest = .ok (a, rest) := by
  cases limit with
  | zero => rfl
  | succ limit => rw [repeatWith, h]

theorem repeatWith_step {a b : α} {ts : List Located} (h : next a ts = some (.ok (b, rest)))
    (limit : Nat) : repeatWith next (limit + 1) a ts = repeatWith next limit b rest := by
  rw [repeatWith, h]
  rfl

end Repetition

/-- A loop that adds to a list what it reads after a symbol reads one item after the other. -/
theorem repeatWith_items
    {next : List α → List Located → Option (Except Refusal (List α × List Located))}
    {F : List Located → Prop} {sep : Symbol} {items : List (List Token × α)}
    (hnext : ∀ x ∈ items, ∀ before offset found more, found.map (·.token) = x.1 → F more →
      next before (⟨.symbol sep, offset⟩ :: (found ++ more)) = some (.ok (before ++ [x.2], more)))
    (hsep : ∀ offset more, F (⟨.symbol sep, offset⟩ :: more)) (hrest : F rest)
    (hstop : ∀ before, next before rest = none) {limit : Nat} (hlimit : items.length ≤ limit)
    {found : List Located}
    (hfound : found.map (·.token) = items.flatMap fun x => .symbol sep :: x.1)
    (before : List α) :
    repeatWith next limit before (found ++ rest) = .ok (before ++ items.map Prod.snd, rest) := by
  induction items generalizing limit found before with
  | nil =>
      obtain rfl := List.map_eq_nil_iff.mp hfound
      rw [List.map_nil, List.append_nil]
      exact repeatWith_stop (hstop before) limit
  | cons x items ih =>
      obtain ⟨offset, found, rfl, hitems⟩ := exists_of_map_cons hfound
      obtain ⟨first, others, rfl, hfirst, hothers⟩ := List.map_eq_append_iff.mp hitems
      have hmore : F (others ++ rest) := by
        cases items with
        | nil =>
            obtain rfl := List.map_eq_nil_iff.mp hothers
            exact hrest
        | cons y items =>
            obtain ⟨offset, others, rfl, -⟩ := exists_of_map_cons hothers
            exact hsep offset _
      obtain ⟨limit, rfl⟩ : ∃ k, limit = k + 1 := ⟨limit - 1, by
        rw [List.length_cons] at hlimit
        omega⟩
      rw [List.cons_append, List.append_assoc,
        repeatWith_step (hnext x List.mem_cons_self before offset first _ hfirst hmore),
        ih (fun y hy => hnext y (List.mem_cons_of_mem x hy)) (Nat.le_of_succ_le_succ hlimit)
          hothers, List.append_assoc]
      rfl

theorem length_le_flatMap_cons (sep : Token) (items : List (List Token × α)) :
    items.length ≤ (items.flatMap fun x => sep :: x.1).length := by
  induction items with
  | nil => exact Nat.zero_le _
  | cons x items ih =>
      rw [List.length_cons, List.flatMap_cons, List.length_append, List.length_cons]
      omega

theorem length_lt_flatMap_cons (sep : Token) {items : List (List Token × α)}
    {x : List Token × α} (hx : x ∈ items) :
    x.1.length < (items.flatMap fun x => sep :: x.1).length := by
  obtain ⟨before, after, rfl⟩ := List.append_of_mem hx
  simp only [List.flatMap_append, List.flatMap_cons, List.length_append, List.length_cons]
  omega

/-- A loop does not stop before all items are read. -/
theorem repeated_items
    {next : List α → List Located → Option (Except Refusal (List α × List Located))}
    {F : List Located → Prop} {sep : Symbol} {items : List (List Token × α)}
    (hnext : ∀ x ∈ items, ∀ before offset found more, found.map (·.token) = x.1 → F more →
      next before (⟨.symbol sep, offset⟩ :: (found ++ more)) = some (.ok (before ++ [x.2], more)))
    (hsep : ∀ offset more, F (⟨.symbol sep, offset⟩ :: more)) (hrest : F rest)
    (hstop : ∀ before, next before rest = none) {found : List Located}
    (hfound : found.map (·.token) = items.flatMap fun x => .symbol sep :: x.1)
    (before : List α) :
    repeated next before (found ++ rest) = .ok (before ++ items.map Prod.snd, rest) := by
  refine repeatWith_items hnext hsep hrest hstop ?_ hfound before
  have hlength := congrArg List.length hfound
  rw [List.length_map] at hlength
  rw [List.length_append, hlength]
  exact Nat.le_trans (length_le_flatMap_cons _ items) (Nat.le_add_right _ _)

end Parser

end UiTree.Query
