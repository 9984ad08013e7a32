import UiTree.Proofs.Query.RereadingPaths

/-!
# Reading an expression again

Operands, unions and operations are read again from the same tokens, hence so are the expressions
that stand in parentheses and brackets, by induction on how deep these are nested.
-/

namespace UiTree.Query

namespace Parser

variable {α : Type} {F : List Located → Prop} {L : Token → Prop}
  {ts rest used used' more : List Located} {s : Symbol} {stop : Nat} {inner : Parser Expr}

/-! ### Operands -/

/-- What the loop of a list does: it reads an item after each separating symbol. -/
def itemNext (sep : Symbol) (item : Parser α) (found : List α) (ts : List Located) :
    Option (Except Refusal (List α × List Located)) :=
  (eat? sep ts).map fun ts => do
    let (next, ts) ← item ts
    .ok (found ++ [next], ts)

theorem itemNext_eq_none_iff {item : Parser α} {found : List α} :
    itemNext s item found ts = none ↔ eat? s ts = none :=
  Option.map_eq_none_iff

theorem itemNext_reruns {item : Parser α} {q : Nat → Nat → Parser α} (sep : Symbol)
    (h : RereadsWithin L F item q) :
    Reruns L F (itemNext sep item) fun stop depth => itemNext sep (q stop depth) := by
  intro before ts b rest hnext
  obtain ⟨ts₁, heat, hread⟩ := Option.map_eq_some_iff.mp hnext
  obtain ⟨offset, rfl⟩ := exists_of_eat? heat
  obtain ⟨⟨a, ts₂⟩, ha, hvalue⟩ := bind_eq_ok.mp hread
  cases hvalue
  obtain ⟨used, hused, rfl, hreads⟩ := h _ _ _ ha
  refine ⟨⟨.symbol sep, offset⟩ :: used, hused.append [_], rfl, ?_⟩
  intro stop depth hdepth used' more htokens hmore
  obtain ⟨offset', used', rfl, hused'⟩ := exists_of_same_cons htokens
  change itemNext sep (q stop depth) before _ = _
  rw [itemNext, List.cons_append, eat?_self, Option.map_some,
    hreads stop depth hdepth used' more hused' hmore]
  rfl

theorem arguments_eq (h : eat? .closeParen ts = none) : arguments stop inner ts =
    inner ts >>= fun x => repeated (itemNext .comma inner) [x.1] x.2 >>= fun y =>
      expect stop .closeParen .commaOrCloseParen y.2 >>= fun ts => .ok (y.1, ts) := by
  rw [arguments, h]
  rfl

theorem arguments_rereads (hinner : InnerRereads inner) (stop : Nat) :
    Rereads (fun _ => True) F (arguments stop inner)
      fun stop depth => arguments stop (expression stop depth) := by
  intro ts args rest h
  cases hclose : eat? .closeParen ts with
  | some after =>
      obtain ⟨offset, rfl⟩ := exists_of_eat? hclose
      cases h
      exact readsAgain_cons trivial fun _ _ _ _ => rfl
  | none =>
  rw [arguments_eq hclose] at h
  obtain ⟨⟨first, ts₁⟩, hfirst, h⟩ := bind_eq_ok.mp h
  obtain ⟨⟨others, ts₂⟩, hothers, h⟩ := bind_eq_ok.mp h
  obtain ⟨rest, hend, h⟩ := bind_eq_ok.mp h
  cases h
  obtain ⟨left, hleft, hfound, hreads⟩ := hinner.within _ _ _ hfirst
  obtain ⟨right, -, rfl, hloop⟩ := repeated_rereads (fun _ => rfl)
    (itemNext_reruns .comma hinner.within)
    (fun _ _ _ hnone hmore _ _ => itemNext_eq_none_iff.mpr
      (hmore.of_looks (looks_eat?_eq_none _) nofun (itemNext_eq_none_iff.mp hnone))) hothers
  obtain ⟨offset, rfl⟩ := exists_of_expect hend
  have hused : EndsIn (fun _ => True) (left ++ (right ++ [⟨.symbol .closeParen, offset⟩])) :=
    ((endsIn_singleton trivial).append right).append left
  have hwhole : ts = left ++ (right ++ [⟨.symbol .closeParen, offset⟩]) ++ rest := by
    simp [hfound]
  refine ⟨_, hused, hwhole, ?_⟩
  intro stop depth hdepth used' more htokens _
  have hclose' : eat? .closeParen (used' ++ more) = none := by
    have hresumes : Resumes (fun _ => False) ts (used' ++ more) := hwhole ▸ hused.resumes htokens
    exact hresumes.of_looks (looks_eat?_eq_none _) nofun hclose
  rw [List.length_append, List.length_append, List.length_singleton] at hdepth
  rw [List.map_append, List.map_append] at htokens
  obtain ⟨left', others', rfl, hleft', hothers'⟩ := List.map_eq_append_iff.mp htokens
  obtain ⟨right', close', rfl, hright', hclosing⟩ := List.map_eq_append_iff.mp hothers'
  obtain ⟨offset', rfl⟩ := exists_of_same_singleton hclosing
  change arguments stop (expression stop depth) _ = _
  rw [arguments_eq hclose', List.append_assoc, List.append_assoc, List.singleton_append,
    hreads stop depth (by omega) left' _ hleft' (Resumes.append .same hright'), ok_bind,
    hloop stop depth (by omega) right' _ hright' .same, ok_bind]
  simp only [expect_self, ok_bind]

theorem call_eq_ok {start : Nat} {name : String} {e : Expr}
    (h : call stop inner start name ts = .ok (e, rest)) :
    ∃ f args, arguments stop inner ts = .ok (args, rest) ∧ e = .call f args ∧
      ∀ stop inner start ts rest, arguments stop inner ts = .ok (args, rest) →
        call stop inner start name ts = .ok (.call f args, rest) := by
  unfold call at h
  split at h
  · cases h
  · next f hf =>
    obtain ⟨⟨args, rest⟩, hargs, h⟩ := bind_eq_ok.mp h
    simp only at h
    split at h
    · cases h
    · next haccepts =>
      split at h
      · cases h
      · next hcounts =>
        cases h
        refine ⟨f, args, hargs, rfl, fun stop inner start ts rest hargs => ?_⟩
        simp only [call, hf, hargs, ok_bind, if_neg haccepts, if_neg hcounts]

/-- What an operand begins with if it is a path. -/
inductive LeadsPath : List Located → Prop where
  | symbol {s : Symbol} {offset : Nat} {more : List Located} (hs : s ≠ .openParen) :
      LeadsPath (⟨.symbol s, offset⟩ :: more)
  | node {offset offset' : Nat} {more : List Located} :
      LeadsPath (⟨.name "node", offset⟩ :: ⟨.symbol .openParen, offset'⟩ :: more)
  | name {name : String} {offset : Nat} {more : List Located} (h : eat? .openParen more = none) :
      LeadsPath (⟨.name name, offset⟩ :: more)

theorem LeadsPath.primary_eq (h : LeadsPath ts) : primary stop inner ts = path stop inner ts := by
  cases h with
  | symbol hs =>
      unfold primary
      split <;> first | rfl | simp_all
  | node => rfl
  | name h =>
      unfold primary
      split <;> first | rfl | simp_all

theorem LeadsPath.again (h : LeadsPath (used ++ rest)) (hused : EndsIn L used)
    (htokens : used'.map (·.token) = used.map (·.token)) (hmore : Resumes AfterStep rest more) :
    LeadsPath (used' ++ more) := by
  obtain ⟨t, offset, tail, rfl⟩ := hused.exists_cons
  obtain ⟨offset', tail', rfl, htail⟩ := exists_of_same_cons htokens
  have hresumes : Resumes AfterStep (tail ++ rest) (tail' ++ more) := hmore.append htail
  rw [List.cons_append] at h ⊢
  generalize tail ++ rest = after at h hresumes
  cases h with
  | symbol hs => exact .symbol hs
  | node =>
      generalize tail' ++ more = after' at hresumes
      cases hresumes with
      | same => exact .node
  | name hopen =>
      exact .name (hresumes.of_looks (looks_eat?_eq_none _) (fun _ h => h.ends.2) hopen)

/-- An operand is a literal, a number, an expression in parentheses, a call or a path. -/
theorem primary_cases {e : Expr} (h : primary stop inner ts = .ok (e, rest)) :
    (∃ s offset, ts = ⟨.literal s, offset⟩ :: rest ∧ e = .literal s) ∨
    (∃ x offset, ts = ⟨.number x, offset⟩ :: rest ∧ e = .number x) ∨
    (∃ offset offset' more, ts = ⟨.symbol .openParen, offset⟩ :: more ∧
      inner more = .ok (e, ⟨.symbol .closeParen, offset'⟩ :: rest)) ∨
    (∃ name start offset more, ts = ⟨.name name, start⟩ :: ⟨.symbol .openParen, offset⟩ :: more ∧
      name ≠ "node" ∧ call stop inner start name more = .ok (e, rest)) ∨
    LeadsPath ts ∧ path stop inner ts = .ok (e, rest) := by
  unfold primary at h
  split at h
  · cases h
  · next s offset more =>
    cases h
    exact .inl ⟨s, offset, rfl, rfl⟩
  · next x offset more =>
    cases h
    exact .inr (.inl ⟨x, offset, rfl, rfl⟩)
  · next offset more =>
    obtain ⟨⟨e, ts'⟩, he, h⟩ := bind_eq_ok.mp h
    obtain ⟨rest, hclose, h⟩ := bind_eq_ok.mp h
    cases h
    obtain ⟨offset', rfl⟩ := exists_of_expect hclose
    exact .inr (.inr (.inl ⟨offset, offset', more, rfl, he⟩))
  · next name start offset more =>
    split at h
    · next hname =>
      subst hname
      exact .inr (.inr (.inr (.inr ⟨.node, h⟩)))
    · next hname => exact .inr (.inr (.inr (.inl ⟨name, start, offset, more, rfl, hname, h⟩)))
  · next hnil hliteral hnumber hparen hname =>
    refine .inr (.inr (.inr (.inr ⟨?_, h⟩)))
    match ts with
    | [] => exact absurd rfl hnil
    | ⟨.literal s, offset⟩ :: more => exact absurd rfl (hliteral s offset more)
    | ⟨.number x, offset⟩ :: more => exact absurd rfl (hnumber x offset more)
    | ⟨.symbol s, offset⟩ :: more =>
        refine .symbol ?_
        rintro rfl
        exact hparen offset more rfl
    | ⟨.name name, offset⟩ :: more =>
        refine .name (Option.eq_none_iff_forall_ne_some.mpr fun after hafter => ?_)
        obtain ⟨offset', rfl⟩ := exists_of_eat? hafter
        exact hname name offset offset' after rfl

theorem primary_rereads (hinner : InnerRereads inner) (stop : Nat) :
    Rereads (fun _ => True) AfterPath (primary stop inner)
      fun stop depth => primary stop (expression stop depth) := by
  intro ts e rest h
  obtain ⟨s, offset, rfl, rfl⟩ | ⟨x, offset, rfl, rfl⟩ | ⟨offset, offset', more, rfl, he⟩ |
    ⟨name, start, offset, more, rfl, hname, hcall⟩ | ⟨hleads, hpath⟩ := primary_cases h
  · exact readsAgain_cons trivial fun _ _ _ _ => rfl
  · exact readsAgain_cons trivial fun _ _ _ _ => rfl
  · obtain ⟨inside, -, rfl, hreads⟩ := hinner.within _ _ _ he
    refine ⟨⟨.symbol .openParen, offset⟩ :: (inside ++ [⟨.symbol .closeParen, offset'⟩]),
      ⟨_ :: inside, _, rfl, trivial⟩, by simp, ?_⟩
    intro stop depth hdepth used' more htokens _
    obtain ⟨_, _, rfl, hparen⟩ := exists_of_same_cons htokens
    rw [List.map_append] at hparen
    obtain ⟨_, inside', rfl, hinside⟩ := exists_of_map_concat hparen
    rw [List.length_cons, List.length_append] at hdepth
    change primary stop (expression stop depth) _ = _
    rw [List.cons_append, List.append_assoc, List.singleton_append, primary,
      hreads stop depth (by omega) inside' _ hinside .same]
    simp only [ok_bind, expect_self]
  · obtain ⟨f, args, hargs, rfl, hagain⟩ := call_eq_ok hcall
    obtain ⟨used, hused, rfl, hreads⟩ := arguments_rereads (F := AfterPath) hinner stop _ _ _ hargs
    refine ⟨⟨.name name, start⟩ :: ⟨.symbol .openParen, offset⟩ :: used,
      hused.append [_, _], rfl, ?_⟩
    intro stop depth hdepth used' more htokens hmore
    obtain ⟨start', _, rfl, hopen⟩ := exists_of_same_cons htokens
    obtain ⟨_, used', rfl, hused'⟩ := exists_of_same_cons hopen
    rw [List.length_cons, List.length_cons] at hdepth
    have hargs' : arguments stop (expression stop depth) (used' ++ more) = .ok (args, more) :=
      hreads stop depth (by omega) used' more hused' hmore
    change primary stop (expression stop depth) _ = _
    rw [List.cons_append, List.cons_append, primary, if_neg hname]
    exact hagain _ _ _ _ _ hargs'
  · obtain ⟨used, hused, rfl, hreads⟩ := path_rereads hinner stop ts e rest hpath
    refine ⟨used, hused, rfl, ?_⟩
    intro stop depth hdepth used' more htokens hmore
    change primary stop (expression stop depth) _ = _
    rw [(hleads.again hused htokens (hmore.mono fun _ h => h.step)).primary_eq]
    exact hreads stop depth hdepth used' more htokens hmore

/-! ### Expressions -/

/-- The value of a union: a single part stands for itself, and several have to be of nodes. -/
def unionOf (start : Nat) (parts : List Expr) : Except Refusal Expr :=
  match parts with
  | [part] => .ok part
  | parts =>
    if Expr.allSelectNodes parts then .ok (.union parts)
    else .error (.malformed start .unionOfOther)

theorem unionOf_eq_ok {start : Nat} {parts : List Expr} {e : Expr}
    (h : unionOf start parts = .ok e) (start' : Nat) : unionOf start' parts = .ok e := by
  unfold unionOf at h ⊢
  split at h
  · exact h
  · split at h
    · next hselect =>
      rw [if_pos hselect]
      exact h
    · cases h

theorem union_eq {operand : Parser Expr} : union stop operand ts =
    (operand ts >>= fun x => repeated (itemNext .pipe operand) [x.1] x.2) >>= fun y =>
      unionOf (offset stop ts) y.1 >>= fun e => .ok (e, y.2) := by
  rw [bind_assoc]
  unfold union
  refine bind_congr fun x => bind_congr fun y => ?_
  obtain ⟨parts, rest⟩ := y
  match parts with
  | [part] => rfl
  | [] => rfl
  | first :: second :: others =>
      simp only [unionOf]
      split <;> rfl

/-- No path goes on after a whole expression. -/
theorem Ends.afterPath (h : Ends 5 more) : AfterPath more :=
  ⟨⟨h.endsStep, h.eat?_eq_none fun _ => nofun⟩, h.eat?_eq_none fun _ => nofun,
    h.eat?_eq_none fun _ => nofun, h.startsStep_eq_false⟩

theorem union_rereads {operand : Parser Expr} {q : Nat → Nat → Parser Expr}
    (h : Rereads (fun _ => True) AfterPath operand q) (stop : Nat) :
    Rereads (fun _ => True) (Ends 5) (union stop operand)
      fun stop depth => union stop (q stop depth) := by
  have hends : Rereads (fun _ => True) (Ends 5) operand q := h.mono fun _ => Ends.afterPath
  have hpipe (more : List Located) (hmore : Ends 5 more) : eat? .pipe more = none :=
    hmore.eat?_eq_none (by rintro m ⟨⟩; decide)
  intro ts e rest he
  rw [union_eq] at he
  obtain ⟨⟨parts, rest⟩, hparts, he⟩ := bind_eq_ok.mp he
  obtain ⟨e, hvalue, he⟩ := bind_eq_ok.mp he
  cases he
  obtain ⟨used, hused, rfl, hreads⟩ := chain_rereads (fun e => [e]) hends (fun _ => rfl)
    (itemNext_reruns .pipe hends.within)
    (fun _ _ _ hnone hmore _ _ => itemNext_eq_none_iff.mpr
      (hmore.of_looks (looks_eat?_eq_none _) hpipe (itemNext_eq_none_iff.mp hnone)))
    ts parts rest hparts
  refine ⟨used, hused, rfl, ?_⟩
  intro stop depth hdepth used' more htokens hmore
  have hparts' := hreads stop depth hdepth used' more htokens hmore
  dsimp only at hparts' ⊢
  rw [union_eq, hparts', ok_bind]
  simp only [unionOf_eq_ok hvalue, ok_bind]

theorem joinNext_eq_none_iff {ops : List Operator} {operand : Parser Expr} {e : Expr} :
    joinNext ops operand e ts = none ↔ operatorOf? ops ts = none :=
  Option.map_eq_none_iff

theorem joinNext_reruns {ops : List Operator} {operand : Parser Expr} {q : Nat → Nat → Parser Expr}
    (h : Rereads L F operand q) :
    Reruns L F (joinNext ops operand) fun stop depth => joinNext ops (q stop depth) := by
  intro left ts e rest hnext
  obtain ⟨⟨op, ts₁⟩, hop, hread⟩ := Option.map_eq_some_iff.mp hnext
  obtain ⟨t, offset, rfl, hagain⟩ := exists_of_operatorOf? hop
  obtain ⟨⟨right, ts₂⟩, hright, hvalue⟩ := bind_eq_ok.mp hread
  cases hvalue
  obtain ⟨used, hused, rfl, hreads⟩ := h _ _ _ hright
  refine ⟨⟨t, offset⟩ :: used, hused.append [_], rfl, ?_⟩
  intro stop depth hdepth used' more htokens hmore
  obtain ⟨offset', used', rfl, hused'⟩ := exists_of_same_cons htokens
  change joinNext ops (q stop depth) left _ = _
  rw [joinNext, List.cons_append, hagain, Option.map_some]
  dsimp only
  rw [hreads stop depth (Nat.le_of_succ_le hdepth) used' more hused' hmore]
  rfl

theorem joined_rereads {operand : Parser Expr} {q : Nat → Nat → Parser Expr} {n : Nat} (hn : n ≤ 5)
    (h : Rereads (fun _ => True) (Ends 5) operand q) :
    Rereads (fun _ => True) (Ends 5) (joined (operatorsAt n) operand)
      fun stop depth => joined (operatorsAt n) (q stop depth) := by
  exact chain_rereads (fun e => e) h (fun _ => rfl) (joinNext_reruns h)
    (fun _ _ _ hnone hmore _ _ => joinNext_eq_none_iff.mpr
      (hmore.of_looks (looks_operatorOf?_eq_none _) (fun _ h => h.operatorOf?_eq_none hn)
        (joinNext_eq_none_iff.mp hnone)))

/-- A whole expression is read again before nothing and before a token that closes it. -/
theorem level_rereads (hinner : InnerRereads inner) (stop : Nat) :
    Rereads (fun _ => True) (Ends 5) (level stop inner)
      fun stop depth => level stop (expression stop depth) := by
  have hunion : Rereads (fun _ => True) (Ends 5) (union stop (primary stop inner))
      fun stop depth => union stop (primary stop (expression stop depth)) :=
    union_rereads (primary_rereads hinner stop) stop
  have horder := joined_rereads (n := 2) (by decide) hunion
  have hequality := joined_rereads (n := 3) (by decide) horder
  exact joined_rereads (n := 5) (by decide) (joined_rereads (n := 4) (by decide) hequality)

/-- What an expression is read from in parentheses and brackets is read again as that expression. -/
theorem expression_rereads (stop depth : Nat) : InnerRereads (expression stop depth) := by
  induction depth with
  | zero => exact fun found e rest he => nomatch he
  | succ depth ih => exact (level_rereads ih stop).mono fun _ h => h.elim

end Parser

/-- A text that is parsed has tokens that spell its expression. -/
theorem exists_spelt_of_parse {text : String} {e : Expr} (h : parse text = .ok e) :
    ∃ ts, tokens 0 0 text.toList = .ok ts ∧ Parser.Spelt 5 (ts.map (·.token)) e := by
  unfold parse at h
  split at h
  · cases h
  · next ts hts =>
    refine ⟨ts, hts, ?_⟩
    unfold parseTokens at h
    split at h
    · cases h
    · obtain ⟨⟨found, rest⟩, hfound, h⟩ := bind_eq_ok.mp h
      simp only at h
      split at h
      · cases h
        obtain ⟨used, -, hused, hreads⟩ := Parser.level_rereads
          (Parser.expression_rereads text.utf8ByteSize ts.length) text.utf8ByteSize ts e [] hfound
        obtain rfl : ts = used := hused.trans (List.append_nil used)
        intro stop depth hdepth found more htokens hmore
        rw [List.length_map] at hdepth
        exact hreads stop depth hdepth found more htokens (.ended hmore)
      · cases h

end UiTree.Query
