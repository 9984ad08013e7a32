import UiTree.Proofs.Query.Reading
import UiTree.Proofs.Query.Spelling

/-!
# Printing expressions

An expression is printed without abbreviations: every step names its axis, and paths have single
slashes. Parentheses stand only where an operand binds more loosely than its place takes. The right
operand of an operator has to bind more tightly than the operator, the left one need not, and the
operands of a union have to be no unions. The root alone is never an operand, as a name after it
would be taken for a step.

Blanks set off operators and bars and follow commas, and they stand where two tokens would
otherwise run together.
-/

namespace UiTree.Query

/-- How that is written which can be written in several ways: numbers, and the names that stand for
no type. -/
structure Orthography where
  numeral : Float → Numeral
  stranger : String
  isName : IsName stranger.toList
  noType : ElementType.ofName? stranger = none

/-- The tier of the outermost operator of an expression. The root alone is beyond all operators. -/
def Expr.tier : Expr → Nat
  | .binary op _ _ => op.tier
  | .union _ => 1
  | .path true [] => 6
  | _ => 0

/-- Some tokens, in parentheses if these are needed. -/
def enclosed (needed : Bool) (ts : List Token) : List Token :=
  if needed then .symbol .openParen :: (ts ++ [.symbol .closeParen]) else ts

/-- The tokens of a test. -/
def NodeTest.tokens (o : Orthography) : NodeTest → List Token
  | .anyNode => [.name "node", .symbol .openParen, .symbol .closeParen]
  | .anyName => [.symbol .star]
  | .element (some t) => [.name t.documentName]
  | .element none => [.name o.stranger]
  | .named a => [.name a.documentName]

mutual

/-- The tokens of an expression. -/
def Expr.tokens (o : Orthography) : Expr → List Token
  | .binary op a b =>
    enclosed (op.tier < a.tier) (a.tokens o) ++
      op.token :: enclosed (op.tier ≤ b.tier) (b.tokens o)
  | .union parts => separated (.symbol .pipe) (Expr.allTokens o 0 parts)
  | .path absolute steps =>
    (if absolute then [.symbol .slash] else []) ++
      separated (.symbol .slash) (Step.allTokens o steps)
  | .literal s => [.literal s]
  | .number x => [.number x]
  | .call f arguments =>
    .name f.name :: .symbol .openParen ::
      (separated (.symbol .comma) (Expr.allTokens o 6 arguments) ++ [.symbol .closeParen])

/-- The tokens of a step. -/
def Step.tokens (o : Orthography) : Step → List Token
  | .mk axis test predicates =>
    [.name axis.name, .symbol .doubleColon] ++
      (test.tokens o ++ bracketed (Expr.allTokens o 6 predicates))

/-- The tokens of each of some expressions, in parentheses if it is beyond a tier. -/
def Expr.allTokens (o : Orthography) (tier : Nat) : List Expr → List (List Token)
  | [] => []
  | e :: es => enclosed (tier < e.tier) (e.tokens o) :: Expr.allTokens o tier es

/-- The tokens of each of some steps. -/
def Step.allTokens (o : Orthography) : List Step → List (List Token)
  | [] => []
  | s :: ss => s.tokens o :: Step.allTokens o ss

end

/-- A text in quotes of a kind that it does not contain, if there is one. -/
def quoted (cs : List Char) : List Char :=
  let quote := if cs.contains '\'' then '"' else '\''
  quote :: (cs ++ [quote])

/-- The text of a token. -/
def Token.text (o : Orthography) : Token → List Char
  | .symbol s => s.text.toList
  | .literal s => quoted s.toList
  | .number x => (o.numeral x).text
  | .name s => s.toList

/-- Whether blanks set off a token. -/
def Token.isWide : Token → Bool
  | .symbol .pipe => true
  | t => (Parser.operator? t).isSome

/-- Whether two tokens would run together. -/
def Token.sticksTo : Token → Token → Bool
  | .symbol .slash, .symbol s => s = .slash || s = .doubleSlash
  | .symbol .dot, .symbol s => s = .dot || s = .dotDot
  | .symbol .dot, .number _ => true
  | .name _, .symbol s | .number _, .symbol s => s = .dot || s = .dotDot
  | .name _, .name _ | .name _, .number _ | .number _, .name _ | .number _, .number _ => true
  | _, _ => false

/-- Whether a token is a comma. -/
def Token.isComma : Token → Bool
  | .symbol .comma => true
  | _ => false

/-- Whether a blank stands between two tokens. -/
def blankBetween (t u : Token) : Bool :=
  t.isWide || u.isWide || t.isComma || t.sticksTo u

/-- The text of some tokens. -/
def layout (o : Orthography) : List Token → List Char
  | [] => []
  | [t] => t.text o
  | t :: u :: ts => t.text o ++ ((if blankBetween t u then [' '] else []) ++ layout o (u :: ts))

/-- The text of an expression. -/
def Expr.print (o : Orthography) (e : Expr) : String :=
  String.ofList (layout o (e.tokens o))

variable {o : Orthography} {t u : Token} {cs rest : List Char} {c : Char}

/-- Whether a token has a spelling, and it is this one. -/
def Orthography.Spells (o : Orthography) : Token → Prop
  | .symbol _ => True
  | .literal s => '\'' ∉ s.toList ∨ '"' ∉ s.toList
  | .number x => (o.numeral x).value = x
  | .name s => IsName s.toList

theorem spelled_quoted {s : String} (h : '\'' ∉ s.toList ∨ '"' ∉ s.toList) :
    (Token.literal s).Spelled (quoted s.toList) := by
  have hquote {quote : Char} (hquote : quote = '\'' ∨ quote = '"') (hs : quote ∉ s.toList) :
      (Token.literal s).Spelled (quote :: (s.toList ++ [quote])) := by
    have hspelled := Token.Spelled.literal hquote hs
    rwa [String.ofList_toList] at hspelled
  rw [quoted]
  split
  · next hmem =>
    exact hquote (.inr rfl) (h.resolve_left fun hnot => hnot (List.contains_iff_mem.mp hmem))
  · next hnot =>
    exact hquote (.inl rfl) fun hmem => hnot (List.contains_iff_mem.mpr hmem)

/-- The text of a token is a spelling of it. -/
theorem Orthography.Spells.spelled (h : o.Spells t) : t.Spelled (t.text o) := by
  cases t with
  | symbol s => exact .symbol s
  | literal s => exact spelled_quoted h
  | number x =>
      have hspelled := Token.Spelled.number (o.numeral x)
      rwa [show (o.numeral x).value = x from h] at hspelled
  | name s => exact spelled_name h

theorem Spells.tight {ts : List Token} {text : List Char} (h : t.Spelled text)
    (hrest : t.EndsBefore rest) (more : Spells ts rest) : Spells (t :: ts) (text ++ rest) := by
  rw [← List.nil_append (text ++ rest)]
  exact .cons (fun _ hc => nomatch hc) h hrest more

theorem Spells.blank {ts : List Token} (h : Spells ts cs) : Spells ts (' ' :: cs) := by
  have hblank : Text.isBlank ' ' = true := by decide
  cases h with
  | nil hblanks => exact .nil (List.forall_mem_cons.mpr ⟨hblank, hblanks⟩)
  | cons hblanks h hrest more =>
      exact .cons (List.forall_mem_cons.mpr ⟨hblank, hblanks⟩) h hrest more

theorem endsBefore_blank (t : Token) (cs : List Char) : t.EndsBefore (' ' :: cs) := by
  rintro c ⟨⟩
  cases t with
  | symbol s => cases s <;> simp [Token.Extends]
  | literal s => exact id
  | number x => simp [Token.Extends]
  | name s =>
      have hblank : isNameChar ' ' = false := by decide
      simp [Token.Extends, hblank]

/-- The characters that the spellings of a token begin with. -/
def Token.BeginsWith (c : Char) : Token → Prop
  | .symbol s => s.text.toList.head? = some c
  | .literal _ => c = '\'' ∨ c = '"'
  | .number _ => c.isDigit = true ∨ c = '.'
  | .name _ => isNameStart c = true

theorem beginsWith_of_spelled {text : List Char} (h : t.Spelled text) :
    ∃ c more, text = c :: more ∧ t.BeginsWith c := by
  cases h with
  | symbol s =>
      obtain ⟨c, more, htext⟩ : ∃ c more, s.text.toList = c :: more := by
        cases s <;> exact ⟨_, _, rfl⟩
      exact ⟨c, more, htext, congrArg List.head? htext⟩
  | literal hquote hbody => exact ⟨_, _, rfl, hquote⟩
  | number n =>
      obtain ⟨c, more, htext, hstart⟩ := n.exists_text_eq_cons
      exact ⟨c, more, htext, hstart.imp_right And.left⟩
  | name h =>
      obtain ⟨c, more, rfl, hc, -⟩ := h
      refine ⟨c, more, rfl, hc⟩

theorem symbol_of_slash {s : Symbol} (h : (Token.symbol s).BeginsWith '/') :
    s = .slash ∨ s = .doubleSlash := by
  revert h
  cases s <;> simp [Token.BeginsWith, Symbol.text]

/-- Only points, numbers and names begin with what may continue a name. -/
theorem Token.BeginsWith.cases_of_isNameChar (hu : u.BeginsWith c) (hc : isNameChar c = true) :
    u = .symbol .dot ∨ u = .symbol .dotDot ∨ (∃ x, u = .number x) ∨ ∃ s, u = .name s := by
  cases u with
  | symbol s =>
      have hall : s.text.toList.head?.any isNameChar = true → s = .dot ∨ s = .dotDot := by
        cases s <;> decide
      have hhead : s.text.toList.head? = some c := hu
      rcases hall (by rw [hhead]; exact hc) with rfl | rfl
      · exact .inl rfl
      · exact .inr (.inl rfl)
  | literal s => rcases hu with rfl | rfl <;> exact absurd hc (by decide)
  | number x => exact .inr (.inr (.inl ⟨x, rfl⟩))
  | name s => exact .inr (.inr (.inr ⟨s, rfl⟩))

/-- Two tokens that do not run together need no blank between them. -/
theorem not_extends_of_beginsWith (hu : u.BeginsWith c) (hbetween : blankBetween t u = false) :
    ¬ t.Extends c := by
  simp only [blankBetween, Bool.or_eq_false_iff] at hbetween
  obtain ⟨⟨⟨hwide, -⟩, -⟩, hsticks⟩ := hbetween
  intro hext
  have hpoint {d : Char} (h : d.isDigit = true ∨ d = '.') : isNameChar d = true := by
    rcases h with h | rfl
    · exact isNameChar_of_isDigit h
    · decide
  cases t with
  | literal s => exact hext
  | name n =>
      rcases hu.cases_of_isNameChar hext with rfl | rfl | ⟨x, rfl⟩ | ⟨s, rfl⟩ <;> cases hsticks
  | number x =>
      rcases hu.cases_of_isNameChar (hpoint hext) with rfl | rfl | ⟨x, rfl⟩ | ⟨s, rfl⟩ <;>
        cases hsticks
  | symbol s =>
      cases s
      case slash =>
        obtain rfl : c = '/' := hext
        cases u with
        | symbol s => rcases symbol_of_slash hu with rfl | rfl <;> cases hsticks
        | literal s => exact absurd hu (show ¬ ('/' = '\'' ∨ '/' = '"') by decide)
        | number x => exact absurd hu (show ¬ ('/'.isDigit = true ∨ '/' = '.') by decide)
        | name s => exact absurd hu (show ¬ isNameStart '/' = true by decide)
      case dot =>
        rcases hu.cases_of_isNameChar (hpoint hext.symm) with rfl | rfl | ⟨x, rfl⟩ | ⟨s, rfl⟩
        · cases hsticks
        · cases hsticks
        · cases hsticks
        · have hstart : isNameStart c = true := hu
          rcases hext with rfl | hdigit
          · exact absurd hstart (by decide)
          · rw [isNameStart_of_isDigit hdigit] at hstart
            cases hstart
      all_goals first | exact hext | cases hwide

/-- The text of some tokens spells them. -/
theorem spells_layout {ts : List Token} (h : ∀ t ∈ ts, o.Spells t) : Spells ts (layout o ts) := by
  induction ts with
  | nil => exact .nil (by simp [layout])
  | cons t ts ih =>
      have hspelled := (h t List.mem_cons_self).spelled
      have hmore := ih fun u hu => h u (List.mem_cons_of_mem t hu)
      cases ts with
      | nil =>
          rw [layout, ← List.append_nil (t.text o)]
          exact .tight hspelled (fun _ hc => nomatch hc) (.nil (by simp))
      | cons u ts =>
          rw [layout]
          by_cases hbetween : blankBetween t u = true
          · rw [if_pos hbetween]
            exact .tight hspelled (endsBefore_blank t _) hmore.blank
          · rw [if_neg hbetween, List.nil_append]
            refine .tight hspelled ?_ hmore
            obtain ⟨c, more, htext, hbegins⟩ := beginsWith_of_spelled (h u (by simp)).spelled
            have hlayout : ∃ more, layout o (u :: ts) = c :: more := by
              cases ts with
              | nil => exact ⟨more, htext⟩
              | cons v ts => exact ⟨_, by rw [layout, htext, List.cons_append]⟩
            obtain ⟨more, hlayout⟩ := hlayout
            rw [hlayout]
            rintro d ⟨⟩
            exact not_extends_of_beginsWith hbegins (Bool.eq_false_iff.mpr hbetween)

end UiTree.Query
