import UiTree.Proofs.Query.Concatenation
import UiTree.Proofs.Query.RereadingExpressions
import UiTree.Proofs.Query.RoundTrip

/-!
# Paths that are written on

A text that is compiled to a location path, and is not in parentheses, can be written on with a
slash, or two, and a further step. It is compiled to the path with the step after the others,
whatever abbreviations and blanks there are in the text.
-/

namespace UiTree.Query

namespace Parser

variable {α : Type} {ts rest : List Located} {stop : Nat} {inner operand : Parser Expr} {e : Expr}

/-- A loop returns what it began with, or something of the kind that it makes. -/
theorem repeatWith_cases {P : α → Prop}
    {next : α → List Located → Option (Except Refusal (α × List Located))} {a b : α}
    (hfirst : ∀ ts c rest, next a ts = some (.ok (c, rest)) → P c)
    (hnext : ∀ d ts c rest, P d → next d ts = some (.ok (c, rest)) → P c) (limit : Nat)
    (h : repeatWith next limit a ts = .ok (b, rest)) : b = a ∧ rest = ts ∨ P b := by
  induction limit generalizing a ts with
  | zero =>
      cases h
      exact .inl ⟨rfl, rfl⟩
  | succ limit ih =>
      rw [repeatWith] at h
      split at h
      · cases h
        exact .inl ⟨rfl, rfl⟩
      · next result hresult =>
        obtain ⟨⟨c, ts'⟩, rfl, h⟩ := bind_eq_ok.mp h
        have hc : P c := hfirst ts c ts' hresult
        obtain ⟨rfl, -⟩ | hb := ih (fun ts d rest => hnext c ts d rest hc) h
        · exact .inr hc
        · exact .inr hb

/-- What is no operation was read as an operand. -/
theorem operand_of_joined {ops : List Operator} (h : joined ops operand ts = .ok (e, rest))
    (he : ∀ op a b, e ≠ .binary op a b) : operand ts = .ok (e, rest) := by
  rw [joined_eq] at h
  obtain ⟨⟨first, ts'⟩, hfirst, hloop⟩ := bind_eq_ok.mp h
  have hnext (left : Expr) (ts : List Located) (e : Expr) (rest : List Located)
      (h : joinNext ops operand left ts = some (.ok (e, rest))) : ∃ op a b, e = .binary op a b := by
    obtain ⟨⟨op, ts₁⟩, -, hread⟩ := Option.map_eq_some_iff.mp h
    obtain ⟨⟨right, ts₂⟩, -, hvalue⟩ := bind_eq_ok.mp hread
    cases hvalue
    exact ⟨op, left, right, rfl⟩
  obtain ⟨rfl, rfl⟩ | ⟨op, a, b, hbinary⟩ :=
    repeatWith_cases (hnext first) (fun left ts e rest _ => hnext left ts e rest) _ hloop
  · exact hfirst
  · exact absurd hbinary (he op a b)

/-- What is no union was read as its only operand. -/
theorem operand_of_union (h : union stop operand ts = .ok (e, rest))
    (he : ∀ parts, e ≠ .union parts) : operand ts = .ok (e, rest) := by
  rw [union_eq] at h
  obtain ⟨⟨parts, ts₂⟩, hparts, h⟩ := bind_eq_ok.mp h
  obtain ⟨value, hvalue, h⟩ := bind_eq_ok.mp h
  cases h
  obtain ⟨⟨first, ts₁⟩, hfirst, hloop⟩ := bind_eq_ok.mp hparts
  have hnext (found : List Expr) (ts : List Located) (parts : List Expr) (rest : List Located)
      (hfound : 1 ≤ found.length)
      (h : itemNext .pipe operand found ts = some (.ok (parts, rest))) : 2 ≤ parts.length := by
    obtain ⟨ts₁, -, hread⟩ := Option.map_eq_some_iff.mp h
    obtain ⟨⟨part, ts₂⟩, -, hvalue⟩ := bind_eq_ok.mp hread
    cases hvalue
    rw [List.length_append, List.length_singleton]
    omega
  obtain ⟨hall, rfl⟩ | htwo := repeatWith_cases
    (fun ts parts rest => hnext [first] ts parts rest (Nat.le_refl 1))
    (fun found ts parts rest htwo => hnext found ts parts rest (Nat.le_of_succ_le htwo)) _ hloop
  · obtain rfl : parts = [first] := hall
    cases hvalue
    exact hfirst
  · match parts, htwo with
    | first :: second :: others, _ =>
        simp only [unionOf] at hvalue
        split at hvalue
        · exact absurd (Except.ok.inj hvalue).symm (he _)
        · cases hvalue

/-- An expression that is no operation was read as a union. -/
theorem union_of_level (h : level stop inner ts = .ok (e, rest))
    (he : ∀ op a b, e ≠ .binary op a b) : union stop (primary stop inner) ts = .ok (e, rest) :=
  operand_of_joined (operand_of_joined (operand_of_joined (operand_of_joined h he) he) he) he

/-- A path that is not in parentheses was read as a path. -/
theorem path_of_level {absolute : Bool} {all : List Step}
    (h : level stop inner ts = .ok (.path absolute all, rest))
    (hparen : eat? .openParen ts = none) :
    LeadsPath ts ∧ path stop inner ts = .ok (.path absolute all, rest) := by
  have hprimary : primary stop inner ts = .ok (.path absolute all, rest) :=
    operand_of_union (union_of_level h nofun) nofun
  obtain ⟨s, offset, rfl, heq⟩ | ⟨x, offset, rfl, heq⟩ | ⟨offset, offset', more, rfl, -⟩ |
    ⟨name, start, offset, more, rfl, -, hcall⟩ | hpath := primary_cases hprimary
  · cases heq
  · cases heq
  · cases eat?_self.symm.trans hparen
  · obtain ⟨f, args, -, heq, -⟩ := call_eq_ok hcall
    cases heq
  · exact hpath

end Parser

variable {cs more : List Char} {t : Token} {found : List Located} {offset : Nat} {s : Step}
  {added : List Step}

/-- The first token of a text begins after the blanks. -/
theorem head_of_tokens {symbol : Symbol} {start : Nat} {c : Char}
    (hsymbol : symbol.text.toList = [c])
    (h : tokens 0 offset cs = .ok (⟨.symbol symbol, start⟩ :: found)) :
    (cs.dropWhile Text.isBlank).head? = some c := by
  induction cs generalizing offset with
  | nil => cases h
  | cons d rest ih =>
      rw [tokens] at h
      split at h
      · next hblank =>
        rw [List.dropWhile_cons_of_pos hblank]
        exact ih h
      · next hblank =>
        rw [List.dropWhile_cons_of_neg hblank]
        split at h
        · cases h
        · next t taken htoken =>
          obtain ⟨others, -, hfound⟩ := bind_eq_ok.mp h
          cases hfound
          have hspelled := (spelled_of_token htoken).1
          generalize htext : d :: rest.take taken = text at hspelled
          cases hspelled
          rw [hsymbol] at htext
          rw [(List.cons.inj htext).1]
          rfl

/-- A text spells a step, wherever it stands. -/
def SpellsStep (text : List Char) (s : Step) : Prop :=
  ∀ offset, ∃ found, tokens 0 offset text = .ok found ∧ ∀ stop depth, found.length ≤ depth →
    Parser.step stop (Parser.expression stop depth) found = .ok (s, [])

/-- A text that is read as a step in one place spells the step. -/
theorem spellsStep_of_step {stop depth : Nat} (hfound : tokens 0 offset cs = .ok found)
    (h : Parser.step stop (Parser.expression stop depth) found = .ok (s, [])) :
    SpellsStep cs s := by
  intro offset'
  obtain ⟨used, -, rfl, hreads⟩ :=
    Parser.step_rereads (Parser.expression_rereads stop depth) stop found s [] h
  obtain ⟨found', hfound', htokens⟩ := exists_tokens_offset hfound offset'
  rw [List.append_nil] at htokens
  refine ⟨found', hfound', fun stop depth hdepth => ?_⟩
  have hlength : used.length ≤ depth := by
    rw [← List.length_map, ← htokens, List.length_map]
    exact hdepth
  have hread := hreads stop depth hlength found' [] htokens (.ended ⟨⟨rfl, rfl⟩, rfl⟩)
  rwa [List.append_nil] at hread

theorem spells_axis (a : Axis) :
    Spells
      [.name a.name, .symbol .doubleColon, .name "node", .symbol .openParen, .symbol .closeParen]
      (a.name ++ "::node()").toList := by
  have hnode : IsName "node".toList := isName_of_isNameText (by decide)
  rw [String.toList_append]
  refine .tight (spelled_name (isName_axis a)) (name_endsBefore (by decide) _ _) ?_
  refine .tight (.symbol .doubleColon) (fun _ _ => id) ?_
  refine .tight (spelled_name hnode) (name_endsBefore (by decide) _ _) ?_
  refine .tight (.symbol .openParen) (fun _ _ => id) ?_
  exact .tight (.symbol .closeParen) (fun _ _ => id) (.nil nofun)

/-- The name of an axis before two colons and the test that every node passes spell a step. -/
theorem spellsStep_axis (a : Axis) :
    SpellsStep (a.name ++ "::node()").toList (.mk a .anyNode []) := by
  obtain ⟨found, hfound, htokens⟩ := tokens_of_spells (spells_axis a) 0
  have hspelt : Parser.StepSpelt (found.map (·.token)) (.mk a .anyNode []) :=
    ⟨_, _, [], .named, .anyNode, (fun _ hp => nomatch hp), rfl, htokens⟩
  have hends : Parser.EndsStep [] := ⟨rfl, rfl⟩
  have hstep := (hspelt.reads 0 _ (Nat.le_refl _) rfl hends).1
  rw [List.append_nil] at hstep
  exact spellsStep_of_step hfound hstep

theorem spellsStep_here : SpellsStep ".".toList .here :=
  fun offset => ⟨[⟨.symbol .dot, offset⟩], rfl, fun _ _ _ => rfl⟩

/-- A text that begins with a slash adds steps to a path that it is written after. -/
structure Continues (text : List Char) (added : List Step) : Prop where
  head : text.head? = some '/'
  adds : ∀ offset, ∃ found, tokens 0 offset text = .ok found ∧ Parser.AfterStep found ∧
    ∀ stop depth, found.length ≤ depth → ∀ before,
      Parser.stepNext stop (Parser.expression stop depth) before found =
        some (.ok (before ++ added, []))

theorem SpellsStep.slash (h : SpellsStep cs s) (hcs : cs.head? ≠ some '/') :
    Continues ('/' :: cs) [s] := by
  refine ⟨rfl, fun offset => ?_⟩
  have hends : (Token.symbol .slash).EndsBefore cs := by
    rintro c hc rfl
    exact hcs hc
  have htokens := tokens_spelled (.symbol .slash) hends offset
  obtain ⟨found, hfound, hstep⟩ := h (offset + Text.byteLength ['/'])
  refine ⟨⟨.symbol .slash, offset⟩ :: found, ?_, ⟨⟨rfl, rfl⟩, rfl⟩, ?_⟩
  · have htext : Symbol.slash.text.toList = ['/'] := rfl
    rwa [htext, hfound] at htokens
  · intro stop depth hdepth before
    rw [Parser.stepNext_slash, hstep stop depth (Nat.le_of_succ_le hdepth)]
    rfl

theorem SpellsStep.doubleSlash (h : SpellsStep cs s) :
    Continues ('/' :: '/' :: cs) [.anywhere, s] := by
  refine ⟨rfl, fun offset => ?_⟩
  have hends : (Token.symbol .doubleSlash).EndsBefore cs := fun _ _ => id
  have htokens := tokens_spelled (.symbol .doubleSlash) hends offset
  obtain ⟨found, hfound, hstep⟩ := h (offset + Text.byteLength ['/', '/'])
  refine ⟨⟨.symbol .doubleSlash, offset⟩ :: found, ?_, ⟨⟨rfl, rfl⟩, rfl⟩, ?_⟩
  · have htext : Symbol.doubleSlash.text.toList = ['/', '/'] := rfl
    rwa [htext, hfound] at htokens
  · intro stop depth hdepth before
    rw [Parser.stepNext_doubleSlash, hstep stop depth (Nat.le_of_succ_le hdepth)]
    rfl

/-! ### Texts -/

/-- The tokens of a text that is compiled are read as its expression. -/
theorem exists_tokens_of_compile {text : String} {q : Compiled} (h : compile text = .ok q) :
    ∃ ts stop depth, tokens 0 0 text.toList = .ok ts ∧
      Parser.level stop (Parser.expression stop depth) ts = .ok (q.expr, []) := by
  unfold compile parse at h
  split at h
  · cases h
  · next e he =>
    split at he
    · cases he
    · next ts hts =>
      unfold parseTokens at he
      split at he
      · cases he
      · obtain ⟨⟨found, rest⟩, hfound, he⟩ := bind_eq_ok.mp he
        simp only at he
        split at he
        · cases he
          split at h
          · cases h
            exact ⟨ts, _, _, hts, hfound⟩
          · cases h
        · cases he

/-- A text whose tokens are read as a path is compiled to the path. -/
theorem exists_compile_of_path {text : String} {ts : List Located} {absolute : Bool}
    {steps : List Step} (hts : tokens 0 0 text.toList = .ok ts) (hleads : Parser.LeadsPath ts)
    (h : ∀ stop, Parser.path stop (Parser.expression stop ts.length) ts =
      .ok (.path absolute steps, [])) :
    ∃ q, compile text = .ok q ∧ q.expr = .path absolute steps := by
  have hne : ts.isEmpty = false := by
    cases hleads <;> rfl
  have hread (stop : Nat) :
      Parser.expression stop (ts.length + 1) ts = .ok (.path absolute steps, []) := by
    rw [Parser.expression, Parser.level_eq_parserAt]
    exact Parser.parserAt_of_primary (hleads.primary_eq.trans (h stop)) (Parser.ends_nil 5)
  have hparse : parse text = .ok (.path absolute steps) := by
    rw [parse, tokenize, hts]
    simp only [parseTokens, hne, Bool.false_eq_true, if_false, hread, ok_bind]
  rw [compile, hparse]
  exact ⟨_, rfl, rfl⟩

/-- A text is compiled to a path that has steps, and the text is not in parentheses. -/
structure SpellsPath (text : String) (q : Compiled) (absolute : Bool) (steps : List Step) :
    Prop where
  compiled : compile text = .ok q
  expr : q.expr = .path absolute steps
  steps_ne : steps ≠ []
  bare : (text.toList.dropWhile Text.isBlank).head? ≠ some '('

/-- After the tokens of a path the parser stands where it can go on with more steps. -/
theorem SpellsPath.exists_tokens {text : String} {q : Compiled} {absolute : Bool}
    {steps : List Step} (h : SpellsPath text q absolute steps) :
    ∃ ts, tokens 0 0 text.toList = .ok ts ∧ Parser.LeadsPath ts ∧
      Parser.EndsIn Parser.NoSlash ts ∧
      ∀ stop depth, ts.length ≤ depth → ∀ more, Parser.AfterStep more →
        ∃ limit, more.length ≤ limit ∧
          Parser.path stop (Parser.expression stop depth) (ts ++ more) =
            Parser.repeatWith (Parser.stepNext stop (Parser.expression stop depth)) limit steps
              more >>= fun x => .ok (.path absolute x.1, x.2) := by
  obtain ⟨ts, stop, depth, hts, hlevel⟩ := exists_tokens_of_compile h.compiled
  have hparen : Parser.eat? .openParen ts = none := by
    refine Option.eq_none_iff_forall_ne_some.mpr fun after hafter => ?_
    obtain ⟨offset, rfl⟩ := Parser.exists_of_eat? hafter
    exact h.bare (head_of_tokens rfl hts)
  rw [h.expr] at hlevel
  obtain ⟨hleads, hpath⟩ := Parser.path_of_level hlevel hparen
  obtain ⟨_, -, -, hroot⟩ | ⟨left, more, _, before, all, hleft, hstart, hsteps, heq⟩ :=
    Parser.path_cases hpath
  · cases hroot
    exact absurd rfl h.steps_ne
  cases heq
  obtain ⟨-, -, used, hends, hused, harrives⟩ :=
    Parser.path_arrives (Parser.expression_rereads stop depth) hstart hsteps
  obtain rfl : ts = used := by rw [hleft, hused, List.append_nil]
  refine ⟨ts, hts, hleads, hends, fun stop depth hdepth more hmore => ?_⟩
  exact harrives stop depth hdepth ts more rfl (.ended hmore)

/-- A path that is written on is compiled to the path with the steps that were added. -/
theorem SpellsPath.append {text tail : String} {q : Compiled} {absolute : Bool} {steps : List Step}
    (h : SpellsPath text q absolute steps) (htail : Continues tail.toList added) :
    ∃ r, compile (text ++ tail) = .ok r ∧ r.expr = .path absolute (steps ++ added) := by
  obtain ⟨ts, hts, hleads, hends, harrives⟩ := h.exists_tokens
  obtain ⟨found, hfound, hafter, hnext⟩ := htail.adds (0 + Text.byteLength text.toList)
  have htokens : tokens 0 0 (text ++ tail).toList = .ok (ts ++ found) := by
    rw [String.toList_append]
    refine tokens_append (Nat.zero_le _) hts ?_ ?_ hfound
    · intro m hm
      rw [htail.head] at hm
      cases hm
      exact setsOff_slash
    · intro _ t ht
      obtain ⟨front, last, rfl, hlast⟩ := hends
      rw [List.getLast?_concat] at ht
      cases ht
      exact hlast
  have hwhole : Parser.LeadsPath (ts ++ found) := by
    rw [← List.append_nil ts] at hleads
    exact hleads.again hends rfl (.ended hafter)
  refine exists_compile_of_path htokens hwhole fun stop => ?_
  obtain ⟨limit, hlimit, heq⟩ := harrives stop (ts ++ found).length
    (by rw [List.length_append]; omega) found hafter
  have hone := hnext stop (ts ++ found).length (by rw [List.length_append]; omega) steps
  obtain ⟨limit, rfl⟩ : ∃ k, limit = k + 1 := by
    cases found with
    | nil => cases hone
    | cons t found => exact ⟨limit - 1, by rw [List.length_cons] at hlimit; omega⟩
  rw [heq, Parser.repeatWith_step hone, Parser.repeatWith_stop rfl, ok_bind]

/-- Two slashes and a step are a path from the root that looks everywhere. -/
theorem SpellsStep.exists_compile_anywhere {text : String} (h : SpellsStep text.toList s) :
    ∃ q, compile ("//" ++ text) = .ok q ∧ q.expr = .path true [.anywhere, s] := by
  have hends : (Token.symbol .doubleSlash).EndsBefore text.toList := fun _ _ => id
  have htokens := tokens_spelled (.symbol .doubleSlash) hends 0
  obtain ⟨found, hfound, hstep⟩ := h (0 + Text.byteLength Symbol.doubleSlash.text.toList)
  rw [hfound, ok_bind] at htokens
  have hwhole : tokens 0 0 ("//" ++ text).toList = .ok (⟨.symbol .doubleSlash, 0⟩ :: found) := by
    rwa [String.toList_append]
  refine exists_compile_of_path hwhole (.symbol nofun) fun stop => ?_
  rw [List.length_cons, Parser.path, Parser.steps_eq, hstep stop (found.length + 1) (Nat.le_succ _)]
  rfl

end UiTree.Query
