import Mathlib.Data.List.Basic
import Mathlib.Data.List.TakeWhile
import Mathlib.Data.Nat.Digits.Defs
import UiTree.Query.Lexer
import UiTree.Proofs.Outcome

/-!
# How tokens are spelled

A symbol has one spelling. A literal stands between two quotes of a kind that it does not contain, a
number is a row of digits with at most one point, and a name starts with a letter or an underscore.
A token is read from its spelling unless the next character would belong to it. So any text that
puts blanks between the spellings of some tokens, where they are needed, spells these tokens, and
every token of a text has a spelling.
-/

namespace UiTree.Query

/-- At least one digit, and possibly a point between or beside the digits. -/
structure Numeral where
  whole : List Char
  /-- The digits after the point, if there is a point. -/
  fraction : Option (List Char)
  isDigit : ∀ c ∈ whole ++ fraction.getD [], c.isDigit = true
  ne_nil : whole ++ fraction.getD [] ≠ []

namespace Numeral

/-- The characters of a numeral. -/
def text (n : Numeral) : List Char :=
  match n.fraction with
  | none => n.whole
  | some fraction => n.whole ++ '.' :: fraction

/-- The number that the digits form without the point. The last digit is the least significant. -/
def significand (n : Numeral) : Nat :=
  Nat.ofDigits 10 ((n.whole ++ n.fraction.getD []).reverse.map fun c => c.toNat - '0'.toNat)

/-- The number that a numeral stands for: the floating-point number nearest to the significand with
the point set before as many digits as follow it. -/
def value (n : Numeral) : Float :=
  Float.ofScientific n.significand true (n.fraction.getD []).length

end Numeral

/-- A name starts with a letter or an underscore, and nothing in the rest ends it. -/
def IsName (cs : List Char) : Prop :=
  ∃ c more, cs = c :: more ∧ isNameStart c = true ∧ nameRest more = more

/-- The spellings of a token. -/
inductive Token.Spelled : Token → List Char → Prop where
  | symbol (s : Symbol) : Spelled (.symbol s) s.text.toList
  | literal {quote : Char} {body : List Char} (hquote : quote = '\'' ∨ quote = '"')
      (hbody : quote ∉ body) : Spelled (.literal (String.ofList body)) (quote :: (body ++ [quote]))
  | number (n : Numeral) : Spelled (.number n.value) n.text
  | name {cs : List Char} (h : IsName cs) : Spelled (.name (String.ofList cs)) cs

/-- Whether a character right after a token belongs to the token, or makes another of it. -/
def Token.Extends : Token → Char → Prop
  | .symbol .slash, c => c = '/'
  | .symbol .dot, c => c = '.' ∨ c.isDigit = true
  | .symbol .less, c | .symbol .greater, c => c = '='
  | .symbol _, _ => False
  | .literal _, _ => False
  | .number _, c => c.isDigit = true ∨ c = '.'
  | .name _, c => isNameChar c = true

/-- A token ends before the characters that are left. -/
def Token.EndsBefore (t : Token) (rest : List Char) : Prop :=
  ∀ c ∈ rest.head?, ¬ t.Extends c

variable {c : Char} {more rest : List Char} {t : Token}

/-- A symbol of two characters comes first only if these are the next two. -/
theorem symbolOf?_long_eq_none
    (h : ∀ d ∈ rest.head?, ∀ s ∈ Symbol.long, s.text.toList ≠ [c, d]) :
    symbolOf? Symbol.long (c :: rest) = none := by
  have htwo : ∀ s ∈ Symbol.long, s.text.toList.length = 2 := by decide
  refine List.find?_eq_none.mpr fun s hs hprefix => ?_
  rw [List.isPrefixOf_iff_prefix] at hprefix
  obtain ⟨after, hafter⟩ := hprefix
  have hlength := htwo s hs
  match htext : s.text.toList with
  | [x, y] =>
      rw [htext] at hafter
      obtain ⟨rfl, hrest⟩ := List.cons.inj hafter
      exact h y (by rw [← hrest]; rfl) s hs htext
  | [] | [_] | _ :: _ :: _ :: _ => simp [htext] at hlength

/-- The characters that symbols of two characters begin with. -/
theorem symbolOf?_long_of_not_mem (h : c ∉ ['/', ':', '!', '<', '>', '.']) :
    symbolOf? Symbol.long (c :: rest) = none := by
  have hfirst : ∀ s ∈ Symbol.long,
      s.text.toList.head?.all ['/', ':', '!', '<', '>', '.'].contains = true := by decide
  refine symbolOf?_long_eq_none fun d _ s hs htext => h ?_
  have hc := hfirst s hs
  rw [htext] at hc
  exact List.contains_iff_mem.mp hc

/-- A character that begins one symbol of two characters has to be followed by the second one. -/
theorem symbolOf?_long_of_ne {second : Char}
    (h : ∀ s ∈ Symbol.long, s.text.toList.head? = some c → s.text.toList = [c, second])
    (hrest : ∀ d ∈ rest.head?, d ≠ second) : symbolOf? Symbol.long (c :: rest) = none := by
  refine symbolOf?_long_eq_none fun d hd s hs htext => hrest d hd ?_
  have hsecond := h s hs (by rw [htext]; rfl)
  rw [htext] at hsecond
  exact (List.cons.inj (List.cons.inj hsecond).2).1

theorem isBlank_eq_false_of_isNameChar (h : isNameChar c = true) : Text.isBlank c = false := by
  rw [Bool.eq_false_iff]
  intro hblank
  have hletter := Text.isAlphanumeric_eq_false_of_isBlank hblank
  simp only [isNameChar, hletter, Bool.false_or, Bool.or_eq_true, beq_iff_eq] at h
  rcases h with (rfl | rfl) | rfl <;> revert hblank <;> decide

theorem isNameChar_of_isNameStart (h : isNameStart c = true) : isNameChar c = true := by
  simp only [isNameStart, Bool.or_eq_true] at h
  rcases h with h | h
  · simp [isNameChar, Text.isAlphanumeric_of_isAlphabetic h]
  · simp [isNameChar, h]

theorem leadingDigits_append (hrest : ∀ c ∈ rest.head?, c.isDigit = false) (cs : List Char) :
    leadingDigits (cs ++ rest) = leadingDigits cs := by
  have hstop : rest.takeWhile Char.isDigit = [] := by
    cases rest with
    | nil => rfl
    | cons c rest => simp [hrest c rfl]
  rw [leadingDigits, leadingDigits, List.takeWhile_append, hstop, List.append_nil]
  split
  · next hlength => exact ((List.takeWhile_prefix _).eq_of_length hlength).symm
  · rfl

theorem beginsWithDot_cons (c : Char) (cs : List Char) : beginsWithDot (c :: cs) = (c == '.') := by
  unfold beginsWithDot
  split
  · simp_all
  · next h =>
    refine (beq_eq_false_iff_ne.mpr ?_).symm
    rintro rfl
    exact h cs rfl

theorem beginsWithDot_append {ds : List Char} (hrest : ∀ c ∈ rest.head?, c ≠ '.') :
    beginsWithDot (ds ++ rest) = beginsWithDot ds := by
  cases ds with
  | nil =>
      cases rest with
      | nil => rfl
      | cons c rest => simp [beginsWithDot, hrest c rfl]
  | cons d ds => simp [beginsWithDot_cons]

theorem beginsWithDot_of_isDigit {ds : List Char} (hds : ∀ c ∈ ds, c.isDigit = true) :
    beginsWithDot ds = false := by
  cases ds with
  | nil => rfl
  | cons c ds =>
      rw [beginsWithDot_cons, beq_eq_false_iff_ne]
      rintro rfl
      exact absurd (hds '.' List.mem_cons_self) (by decide)

/-- Reading digits from the left gives the number that they form. -/
theorem digitsValue_eq_ofDigits (digits : List Char) :
    Number.digitsValue digits =
      Nat.ofDigits 10 (digits.reverse.map fun c => c.toNat - '0'.toNat) := by
  rw [Nat.ofDigits_eq_foldr, List.foldr_map, List.foldr_reverse]
  exact List.foldl_ext _ _ _ fun n c _ => Nat.add_comm _ _

namespace Numeral

variable {n : Numeral}

/-- The parts of a numeral have the value that the numeral stands for. -/
theorem numberValue_parts (n : Numeral) : numberValue (n.whole, n.fraction) = n.value := by
  rw [numberValue, Number.ofDigits, digitsValue_eq_ofDigits]
  rfl

example : value ⟨['2'], some ['5'], List.all_eq_true.mp rfl, List.cons_ne_nil _ _⟩ = 5 / 2 := by
  decide +kernel

/-- A numeral is read whole, unless more digits or a point follow. -/
theorem numberParts_text (hrest : (Token.number n.value).EndsBefore rest) :
    numberParts (n.text ++ rest) = (n.whole, n.fraction) := by
  have hdigit : ∀ c ∈ rest.head?, c.isDigit = false := fun c hc =>
    Bool.eq_false_iff.mpr fun h => hrest c hc (.inl h)
  have hdot : ∀ c ∈ rest.head?, c ≠ '.' := fun c hc h => hrest c hc (.inr h)
  obtain ⟨whole, _ | fraction, hdigits, -⟩ := n
  · have hwhole : leadingDigits (whole ++ rest) = whole := by
      rw [leadingDigits_append hdigit, leadingDigits,
        List.takeWhile_eq_self_iff.mpr (by simpa using hdigits)]
    simp only [text, numberParts, hwhole, List.drop_left]
    split
    · exact absurd rfl (hdot '.' rfl)
    · rfl
  · simp only [Option.getD_some, List.mem_append] at hdigits
    have hwhole : leadingDigits (whole ++ '.' :: (fraction ++ rest)) = whole := by
      have hpoint : ∀ c ∈ ('.' :: (fraction ++ rest)).head?, c.isDigit = false := by
        rintro c ⟨⟩
        decide
      rw [leadingDigits_append hpoint, leadingDigits,
        List.takeWhile_eq_self_iff.mpr fun c hc => hdigits c (.inl hc)]
    have hfraction : ∀ c ∈ fraction, c.isDigit = true := fun c hc => hdigits c (.inr hc)
    have hdigits : leadingDigits fraction = fraction := List.takeWhile_eq_self_iff.mpr hfraction
    simp only [text, numberParts, List.append_assoc, List.cons_append, hwhole, List.drop_left,
      beginsWithDot_append hdot, beginsWithDot_of_isDigit hfraction,
      leadingDigits_append hdigit, hdigits,
      Bool.false_eq_true, if_false]

theorem length_text : numberLength (n.whole, n.fraction) = n.text.length := by
  obtain ⟨whole, _ | fraction, -, -⟩ := n
  · rfl
  · simp [numberLength, text]
    omega

/-- A numeral begins like a number. -/
theorem exists_text_eq_cons (n : Numeral) : ∃ c more, n.text = c :: more ∧
    (c.isDigit = true ∨ c = '.' ∧ ∃ d more', more = d :: more' ∧ d.isDigit = true) := by
  obtain ⟨_ | ⟨c, whole⟩, fraction, hdigits, hne⟩ := n
  · rcases fraction with _ | _ | ⟨d, fraction⟩
    · exact absurd rfl hne
    · exact absurd rfl hne
    · exact ⟨'.', _, rfl, .inr ⟨rfl, d, _, rfl, hdigits d (by simp)⟩⟩
  · cases fraction with
    | none => exact ⟨c, whole, rfl, .inl (hdigits c (by simp))⟩
    | some fraction => exact ⟨c, whole ++ '.' :: fraction, rfl, .inl (hdigits c (by simp))⟩

end Numeral

theorem symbolOf?_long_of_isDigit (h : c.isDigit = true) :
    symbolOf? Symbol.long (c :: rest) = none := by
  refine symbolOf?_long_of_not_mem ?_
  intro hmem
  simp only [List.mem_cons, List.not_mem_nil, or_false] at hmem
  rcases hmem with rfl | rfl | rfl | rfl | rfl | rfl <;> revert h <;> decide

/-- A number is read from each of its numerals. -/
theorem token_numeral {n : Numeral} (htext : n.text = c :: more)
    (hrest : (Token.number n.value).EndsBefore rest) :
    token c (more ++ rest) = .ok (.number n.value, more.length) := by
  obtain ⟨c', more', htext', hstart⟩ := n.exists_text_eq_cons
  obtain ⟨rfl, rfl⟩ : c' = c ∧ more' = more := by simpa [htext] using htext'.symm
  have hsymbol : symbolOf? Symbol.long (c' :: (more' ++ rest)) = none := by
    rcases hstart with hdigit | ⟨rfl, d, ds, rfl, hdigit⟩
    · exact symbolOf?_long_of_isDigit hdigit
    · have hdot : d ≠ '.' := by
        rintro rfl
        revert hdigit
        decide
      simp [symbolOf?, Symbol.long, Symbol.text, Ne.symm hdot]
  have hnumber : startsNumber c' (more' ++ rest) = true := by
    rcases hstart with hdigit | ⟨rfl, d, ds, rfl, hdigit⟩
    · simp [startsNumber, hdigit]
    · simp [startsNumber, hdigit]
  have hparts : numberParts (c' :: (more' ++ rest)) = (n.whole, n.fraction) := by
    rw [← Numeral.numberParts_text hrest, htext]
    rfl
  simp only [token, hsymbol, hnumber, if_true, hparts, Numeral.length_text, htext,
    List.length_cons, Nat.add_sub_cancel, Numeral.numberValue_parts]

theorem isNameChar_of_isDigit (h : c.isDigit = true) : isNameChar c = true := by
  have hbounds := Text.isDigit_iff.mp h
  simp [isNameChar, Text.isAlphanumeric_ascii (show c.toNat < 128 by omega), Char.isAlphanum, h]

theorem isNameStart_of_isDigit (h : c.isDigit = true) : isNameStart c = false := by
  have hbounds := Text.isDigit_iff.mp h
  have hne : c ≠ '_' := by
    rintro rfl
    exact absurd h (by decide)
  rw [isNameStart, Text.isAlphabetic_ascii (by omega), Bool.or_eq_false_iff,
    beq_eq_false_iff_ne, ← Bool.not_eq_true, Text.isAlpha_iff]
  exact ⟨by omega, hne⟩

/-- A name goes on only with what names go on with. -/
theorem nameRest_append (hrest : ∀ c ∈ rest.head?, ¬ isNameChar c = true) (cs : List Char) :
    nameRest (cs ++ rest) = nameRest cs := by
  have hdot : ∀ c ∈ rest.head?, c ≠ '.' := by
    rintro c hc rfl
    exact hrest '.' hc (by decide)
  induction cs with
  | nil =>
      cases rest with
      | nil => rfl
      | cons c rest => simp [nameRest, hrest c rfl]
  | cons c cs ih => rw [List.cons_append, nameRest, nameRest, beginsWithDot_append hdot, ih]

theorem token_name (hc : isNameStart c = true) (hmore : nameRest more = more)
    (hrest : ∀ c ∈ rest.head?, ¬ isNameChar c = true) :
    token c (more ++ rest) = .ok (.name (String.ofList (c :: more)), more.length) := by
  have ne_of {d : Char} (hd : isNameStart d = false) : c ≠ d := by
    rintro rfl
    rw [hc] at hd
    cases hd
  have hsymbol : symbolOf? Symbol.long (c :: (more ++ rest)) = none := by
    refine symbolOf?_long_of_not_mem ?_
    simp only [List.mem_cons, List.not_mem_nil, or_false, not_or]
    exact ⟨ne_of (by decide), ne_of (by decide), ne_of (by decide), ne_of (by decide),
      ne_of (by decide), ne_of (by decide)⟩
  have hdigit : c.isDigit = false := Bool.eq_false_iff.mpr fun h => by
    rw [isNameStart_of_isDigit h] at hc
    cases hc
  have hnumber : startsNumber c (more ++ rest) = false := by
    simp [startsNumber, hdigit, ne_of (show isNameStart '.' = false by decide)]
  have hquote : (c == '\'' || c == '"') = false := by
    simp [ne_of (show isNameStart '\'' = false by decide),
      ne_of (show isNameStart '"' = false by decide)]
  simp only [token, hsymbol, hnumber, hquote, hc, if_true, nameRest_append hrest, hmore,
    Bool.false_eq_true, if_false]

theorem takeWhile_ne_append {quote : Char} {body : List Char} (h : quote ∉ body) :
    (body ++ quote :: rest).takeWhile (· != quote) = body := by
  rw [List.takeWhile_append_of_pos]
  · simp
  · intro c hc
    rw [bne_iff_ne]
    rintro rfl
    exact h hc

theorem token_literal {quote : Char} {body : List Char} (hquote : quote = '\'' ∨ quote = '"')
    (hbody : quote ∉ body) :
    token quote (body ++ quote :: rest) =
      .ok (.literal (String.ofList body), body.length + 1) := by
  have hsymbol : symbolOf? Symbol.long (quote :: (body ++ quote :: rest)) = none := by
    refine symbolOf?_long_of_not_mem ?_
    rcases hquote with rfl | rfl <;> decide
  have hnumber : startsNumber quote (body ++ quote :: rest) = false := by
    rcases hquote with rfl | rfl <;> rfl
  have hquote : (quote == '\'' || quote == '"') = true := by
    simpa using hquote
  simp only [token, hsymbol, hnumber, hquote, if_true, takeWhile_ne_append hbody,
    Bool.false_eq_true, if_false, List.length_append, List.length_cons]
  rw [if_pos (by omega)]

theorem token_short {s : Symbol} (hlong : symbolOf? Symbol.long (c :: rest) = none)
    (hnumber : startsNumber c rest = false) (hquote : (c == '\'' || c == '"') = false)
    (hname : isNameStart c = false) (hshort : symbolOf? Symbol.short [c] = some s) :
    token c rest = .ok (.symbol s, 0) := by
  simp only [token, hlong, hnumber, hquote, hname, hshort, Bool.false_eq_true, if_false]

/-- A symbol is read from its spelling, unless it and the next character are another symbol or a
number. -/
theorem token_symbol {s : Symbol} (htext : s.text.toList = c :: more)
    (hrest : (Token.symbol s).EndsBefore rest) :
    token c (more ++ rest) = .ok (.symbol s, more.length) := by
  cases s
  case doubleSlash | dotDot | doubleColon | notEqual | lessEqual | greaterEqual =>
    cases htext
    rfl
  case openBracket | closeBracket | openParen | closeParen | «at» | comma | pipe | star | equal =>
    cases htext
    exact token_short (symbolOf?_long_of_not_mem (by decide)) rfl rfl (by decide) rfl
  case slash | less | greater =>
    cases htext
    exact token_short (symbolOf?_long_of_ne (by decide) hrest) rfl rfl (by decide) rfl
  case dot =>
    cases htext
    have hdot : ∀ d ∈ rest.head?, d ≠ '.' := fun d hd h => hrest d hd (.inl h)
    refine token_short (symbolOf?_long_of_ne (by decide) hdot) ?_ rfl (by decide) rfl
    cases rest with
    | nil => rfl
    | cons d rest => exact Bool.eq_false_iff.mpr fun h => hrest d rfl (.inr h)

/-- A token is read from each of its spellings, unless the next character belongs to it. -/
theorem token_of_spelled {text : List Char} (h : t.Spelled text) (hrest : t.EndsBefore rest) :
    ∃ c more, text = c :: more ∧ Text.isBlank c = false ∧
      token c (more ++ rest) = .ok (t, more.length) := by
  cases h with
  | symbol s =>
      obtain ⟨c, more, htext⟩ : ∃ c more, s.text.toList = c :: more := by
        cases s <;> exact ⟨_, _, rfl⟩
      refine ⟨c, more, htext, ?_, token_symbol htext hrest⟩
      cases s <;> cases htext <;> decide
  | @literal quote body hquote hbody =>
      refine ⟨quote, _, rfl, by rcases hquote with rfl | rfl <;> decide, ?_⟩
      rw [List.append_assoc, List.singleton_append, token_literal hquote hbody,
        List.length_append, List.length_singleton]
  | number n =>
      obtain ⟨c, more, htext, hstart⟩ := n.exists_text_eq_cons
      refine ⟨c, more, htext, isBlank_eq_false_of_isNameChar ?_, token_numeral htext hrest⟩
      rcases hstart with hdigit | ⟨rfl, -⟩
      · exact isNameChar_of_isDigit hdigit
      · decide
  | name h =>
      obtain ⟨c, more, rfl, hc, hmore⟩ := h
      exact ⟨c, more, rfl, isBlank_eq_false_of_isNameChar (isNameChar_of_isNameStart hc),
        token_name hc hmore hrest⟩

/-- The symbol that is found comes first. -/
theorem text_prefix_of_symbolOf? {symbols : List Symbol} {s : Symbol} {cs : List Char}
    (h : symbolOf? symbols cs = some s) : s ∈ symbols ∧ s.text.toList <+: cs := by
  refine ⟨List.mem_of_find?_eq_some h, ?_⟩
  have hprefix := List.find?_some h
  rwa [List.isPrefixOf_iff_prefix] at hprefix

theorem nameRest_isPrefix (cs : List Char) : nameRest cs <+: cs := by
  induction cs with
  | nil => exact List.nil_prefix
  | cons c rest ih =>
      rw [nameRest]
      split
      · exact List.cons_prefix_cons.mpr ⟨rfl, ih⟩
      · exact List.nil_prefix

theorem nameRest_nameRest (cs : List Char) : nameRest (nameRest cs) = nameRest cs := by
  induction cs with
  | nil => rfl
  | cons c rest ih =>
      rw [nameRest]
      split
      · next hc =>
        obtain ⟨after, hafter⟩ := nameRest_isPrefix rest
        have hdot : beginsWithDot (nameRest rest) = true → beginsWithDot rest = true := by
          intro h
          cases hrest : nameRest rest with
          | nil =>
              rw [hrest] at h
              cases h
          | cons d more =>
              rw [hrest, beginsWithDot_cons] at h
              rw [← hafter, hrest, List.cons_append, beginsWithDot_cons, h]
        rw [nameRest, ih, if_pos]
        simp only [Bool.and_eq_true, Bool.not_eq_true', Bool.and_eq_false_imp] at hc ⊢
        exact ⟨hc.1, fun h => Bool.eq_false_iff.mpr fun hd =>
          Bool.eq_false_iff.mp (hc.2 h) (hdot hd)⟩
      · rfl

theorem leadingDigits_isPrefix (cs : List Char) : leadingDigits cs <+: cs :=
  List.takeWhile_prefix _

theorem isDigit_of_mem_leadingDigits {cs : List Char} (h : c ∈ leadingDigits cs) :
    c.isDigit = true :=
  List.all_eq_true.mp List.all_takeWhile c h

theorem leadingDigits_ne_nil {cs : List Char} (h : cs.head?.any Char.isDigit = true) :
    leadingDigits cs ≠ [] := by
  cases cs with
  | nil => cases h
  | cons c cs =>
      have h : c.isDigit = true := h
      simp [leadingDigits, h]

theorem leadingDigits_of_beginsWithDot {cs : List Char} (h : beginsWithDot cs = true) :
    leadingDigits cs = [] := by
  unfold beginsWithDot at h
  split at h
  · rfl
  · cases h

/-- Where a number begins, its digits and its point come first. -/
theorem exists_numeral (h : startsNumber c rest = true) :
    ∃ n : Numeral, numberParts (c :: rest) = (n.whole, n.fraction) ∧ n.text <+: c :: rest := by
  obtain ⟨after, hafter⟩ := leadingDigits_isPrefix (c :: rest)
  have hdrop : (c :: rest).drop (leadingDigits (c :: rest)).length = after := by
    have hleft : (leadingDigits (c :: rest) ++ after).drop (leadingDigits (c :: rest)).length =
        after := List.drop_left
    rwa [hafter] at hleft
  have hwhole : ∀ d ∈ leadingDigits (c :: rest), d.isDigit = true :=
    fun d hd => isDigit_of_mem_leadingDigits hd
  -- Without digits before it, the point comes first and a digit follows.
  have hpoint : leadingDigits (c :: rest) = [] → after = '.' :: rest ∧ leadingDigits rest ≠ [] := by
    intro hnil
    simp only [startsNumber, Bool.or_eq_true, Bool.and_eq_true, beq_iff_eq] at h
    rcases h with h | ⟨rfl, h⟩
    · exact absurd hnil (leadingDigits_ne_nil h)
    · exact ⟨by rw [← hdrop, hnil]; rfl, leadingDigits_ne_nil h⟩
  have hplain (hne : leadingDigits (c :: rest) ≠ []) : ∃ n : Numeral,
      (leadingDigits (c :: rest), none) = (n.whole, n.fraction) ∧ n.text <+: c :: rest :=
    ⟨⟨leadingDigits (c :: rest), none, by simpa using hwhole, by simpa using hne⟩, rfl,
      leadingDigits_isPrefix _⟩
  simp only [numberParts, hdrop]
  split
  · next more =>
    split
    · next hdot =>
      refine hplain fun hnil => ?_
      obtain ⟨hmore, hdigit⟩ := hpoint hnil
      obtain rfl := (List.cons.inj hmore).2
      exact hdigit (leadingDigits_of_beginsWithDot hdot)
    · have hfraction : ∀ d ∈ leadingDigits more, d.isDigit = true :=
        fun d hd => isDigit_of_mem_leadingDigits hd
      refine ⟨⟨_, some (leadingDigits more), fun d hd => ?_, fun hnil => ?_⟩, rfl, ?_⟩
      · exact (List.mem_append.mp hd).elim (hwhole d) (hfraction d)
      · obtain ⟨hnil, hnone⟩ := List.append_eq_nil_iff.mp hnil
        obtain ⟨hmore, hdigit⟩ := hpoint hnil
        obtain rfl := (List.cons.inj hmore).2
        exact hdigit hnone
      · rw [← hafter]
        exact (List.prefix_append_right_inj _).mpr
          (List.cons_prefix_cons.mpr ⟨rfl, leadingDigits_isPrefix more⟩)
  · next hnot =>
    refine hplain fun hnil => ?_
    exact hnot _ (hpoint hnil).1

theorem exists_of_length_takeWhile_lt {cs : List Char}
    (h : (cs.takeWhile (· != c)).length < cs.length) :
    ∃ after, cs = cs.takeWhile (· != c) ++ c :: after := by
  induction cs with
  | nil => cases h
  | cons d cs ih =>
      by_cases hd : d = c
      · exact ⟨cs, by simp [hd]⟩
      · have htake : (d :: cs).takeWhile (· != c) = d :: cs.takeWhile (· != c) := by
          simp [hd]
        rw [htake] at h ⊢
        obtain ⟨after, hafter⟩ := ih (Nat.lt_of_succ_lt_succ h)
        exact ⟨after, congrArg (d :: ·) hafter⟩

/-- A spelling that comes first is made of the characters that come first. -/
theorem Token.Spelled.of_isPrefix {text : List Char} {taken : Nat} (h : t.Spelled text)
    (hfirst : text <+: c :: rest) (hlength : text.length = taken + 1) :
    t.Spelled (c :: rest.take taken) ∧ taken ≤ rest.length := by
  have htext := List.prefix_iff_eq_take.mp hfirst
  have hle := hfirst.length_le
  rw [hlength, List.take_succ_cons] at htext
  rw [hlength, List.length_cons] at hle
  exact ⟨htext ▸ h, Nat.le_of_succ_le_succ hle⟩

/-- A literal goes on to the next quote of its kind. -/
theorem spelled_literal (hquote : c = '\'' ∨ c = '"')
    (hlt : (rest.takeWhile (· != c)).length < rest.length) :
    (Token.literal (String.ofList (rest.takeWhile (· != c)))).Spelled
        (c :: rest.take ((rest.takeWhile (· != c)).length + 1)) ∧
      (rest.takeWhile (· != c)).length + 1 ≤ rest.length := by
  obtain ⟨after, hafter⟩ := exists_of_length_takeWhile_lt hlt
  have hbody : c ∉ rest.takeWhile (· != c) := by
    intro hmem
    have hne := List.all_eq_true.mp List.all_takeWhile c hmem
    simp at hne
  refine (Token.Spelled.literal hquote hbody).of_isPrefix ?_ (by simp)
  refine List.cons_prefix_cons.mpr ⟨rfl, after, ?_⟩
  rw [List.append_assoc]
  exact hafter.symm

/-- A token is spelled by the characters that it takes, and takes no more than there are. -/
theorem spelled_of_token {taken : Nat} (h : token c rest = .ok (t, taken)) :
    t.Spelled (c :: rest.take taken) ∧ taken ≤ rest.length := by
  have hlong : ∀ s ∈ Symbol.long, s.text.toList.length = 1 + 1 := by decide
  have hshort : ∀ s ∈ Symbol.short, s.text.toList.length = 0 + 1 := by decide
  unfold token at h
  split at h
  · next s hs =>
    cases h
    obtain ⟨hmem, hfirst⟩ := text_prefix_of_symbolOf? hs
    exact (Token.Spelled.symbol s).of_isPrefix hfirst (hlong s hmem)
  split at h
  · next hstart =>
    obtain ⟨n, hparts, hfirst⟩ := exists_numeral hstart
    obtain ⟨d, more, hcons, -⟩ := n.exists_text_eq_cons
    simp only [hparts, Numeral.length_text, Numeral.numberValue_parts] at h
    cases h
    exact (Token.Spelled.number n).of_isPrefix hfirst (by rw [hcons]; rfl)
  split at h
  · next hquote =>
    simp only [Bool.or_eq_true, beq_iff_eq] at hquote
    dsimp only at h
    split at h
    · next hlt =>
      cases h
      exact spelled_literal hquote hlt
    · cases h
  split at h
  · next hc =>
    cases h
    have hname : IsName (c :: nameRest rest) :=
      ⟨c, nameRest rest, rfl, hc, nameRest_nameRest rest⟩
    exact (Token.Spelled.name hname).of_isPrefix
      (List.cons_prefix_cons.mpr ⟨rfl, nameRest_isPrefix rest⟩) rfl
  split at h
  · next s hs =>
    cases h
    obtain ⟨hmem, hfirst⟩ := text_prefix_of_symbolOf? hs
    exact (Token.Spelled.symbol s).of_isPrefix (hfirst.trans (List.prefix_append [c] rest))
      (hshort s hmem)
  · cases h

theorem spelled_name {name : String} (h : IsName name.toList) :
    (Token.name name).Spelled name.toList := by
  have hspelled := Token.Spelled.name h
  rwa [String.ofList_toList] at hspelled

/-- A name ends before a character that no name goes on with. -/
theorem name_endsBefore (hc : isNameChar c = false) (name : String) (cs : List Char) :
    (Token.name name).EndsBefore (c :: cs) := by
  rintro _ ⟨⟩
  exact Bool.eq_false_iff.mp hc

/-- A text spells some tokens: it consists of their spellings, with blanks before, between and
after them as far as they are needed. -/
inductive Spells : List Token → List Char → Prop where
  | nil {blanks : List Char} (hblanks : ∀ c ∈ blanks, Text.isBlank c = true) : Spells [] blanks
  | cons {blanks : List Char} {t : Token} {ts : List Token} {text rest : List Char}
      (hblanks : ∀ c ∈ blanks, Text.isBlank c = true) (h : t.Spelled text)
      (hrest : t.EndsBefore rest) (more : Spells ts rest) :
      Spells (t :: ts) (blanks ++ (text ++ rest))

theorem tokens_blanks {blanks : List Char} (h : ∀ c ∈ blanks, Text.isBlank c = true)
    (offset : Nat) (cs : List Char) :
    tokens 0 offset (blanks ++ cs) = tokens 0 (offset + Text.byteLength blanks) cs := by
  induction blanks generalizing offset with
  | nil => rfl
  | cons c blanks ih =>
      rw [List.cons_append, tokens, if_pos (h c List.mem_cons_self),
        ih (fun d hd => h d (List.mem_cons_of_mem c hd)), Text.byteLength_cons, Nat.add_assoc]

/-- A token is read from its spelling, and the others from what is left. -/
theorem tokens_spelled {text : List Char} (h : t.Spelled text) (hrest : t.EndsBefore rest)
    (offset : Nat) :
    tokens 0 offset (text ++ rest) =
      tokens 0 (offset + Text.byteLength text) rest >>= fun found =>
        .ok (⟨t, offset⟩ :: found) := by
  obtain ⟨c, more, rfl, hc, htoken⟩ := token_of_spelled h hrest
  rw [List.cons_append, tokens, hc, htoken, Text.byteLength_cons, ← Nat.add_assoc]
  simp only [Bool.false_eq_true, if_false]
  rw [tokens_passing, List.take_left, List.drop_left]

/-- The tokens of some characters, wherever these stand in a text. -/
def HasTokens (cs : List Char) (ts : List Token) : Prop :=
  ∀ offset, ∃ found, tokens 0 offset cs = .ok found ∧ found.map (·.token) = ts

namespace HasTokens

variable {cs : List Char} {ts : List Token}

theorem nil : HasTokens [] [] :=
  fun _ => ⟨[], rfl, rfl⟩

theorem blanks {blanks : List Char} (h : HasTokens cs ts)
    (hblanks : ∀ c ∈ blanks, Text.isBlank c = true) : HasTokens (blanks ++ cs) ts := by
  intro offset
  rw [tokens_blanks hblanks]
  exact h _

theorem space (h : HasTokens cs ts) : HasTokens ([' '] ++ cs) ts :=
  h.blanks (List.forall_mem_singleton.mpr (by decide))

theorem cons {text : List Char} (h : HasTokens cs ts) (htext : t.Spelled text)
    (hends : t.EndsBefore cs) : HasTokens (text ++ cs) (t :: ts) := by
  intro offset
  obtain ⟨found, hfound, hmap⟩ := h (offset + Text.byteLength text)
  refine ⟨⟨t, offset⟩ :: found, ?_, by rw [List.map_cons, hmap]⟩
  rw [tokens_spelled htext hends, hfound, ok_bind]

end HasTokens

/-- The tokens that a text spells are read from it. -/
theorem tokens_of_spells {ts : List Token} {cs : List Char} (h : Spells ts cs) :
    HasTokens cs ts := by
  induction h with
  | @nil blanks hblanks =>
      have hall := HasTokens.nil.blanks hblanks
      rwa [List.append_nil] at hall
  | cons hblanks hspelled hrest _ ih => exact (ih.cons hspelled hrest).blanks hblanks

/-- Every token of a text has a spelling. -/
theorem spelled_of_tokens {passing offset : Nat} {cs : List Char} {found : List Located}
    (h : tokens passing offset cs = .ok found) : ∀ t ∈ found, ∃ text, t.token.Spelled text := by
  induction cs generalizing passing offset found with
  | nil =>
      cases passing <;> cases h <;> exact fun _ ht => absurd ht List.not_mem_nil
  | cons c rest ih =>
      cases passing with
      | succ passing => exact ih h
      | zero =>
          rw [tokens] at h
          split at h
          · exact ih h
          · split at h
            · cases h
            · next t taken htoken =>
              obtain ⟨more, hmore, hfound⟩ := bind_eq_ok.mp h
              cases hfound
              intro u hu
              rcases List.mem_cons.mp hu with rfl | hu
              · exact ⟨_, (spelled_of_token htoken).1⟩
              · exact ih hmore u hu

end UiTree.Query
