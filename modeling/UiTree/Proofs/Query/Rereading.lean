import UiTree.Proofs.Query.Grammar

/-!
# Reading the same tokens again

What a parser has read from some tokens it reads again from the same tokens in another place, if
what follows there goes on in the same way. A parser looks no further than at the first token that
it leaves, so it is enough that this token is the same; where it had read everything, what follows
has to be of a kind that it would not have gone on with.

## Implementation notes

A loop is stated by where it stands after the tokens that it had read, as it may have more to read
there.
-/

namespace UiTree.Query

namespace Parser

variable {α β : Type} {F G P : List Located → Prop} {L : Token → Prop}
  {ts rest more used used' : List Located} {s : Symbol}

theorem exists_of_same_cons {t : Token} {offset : Nat}
    (h : used'.map (·.token) = (⟨t, offset⟩ :: used).map (·.token)) :
    ∃ offset' more, used' = ⟨t, offset'⟩ :: more ∧ more.map (·.token) = used.map (·.token) :=
  exists_of_map_cons h

theorem exists_of_same_singleton {t : Token} {offset : Nat}
    (h : used'.map (·.token) = [(⟨t, offset⟩ : Located)].map (·.token)) :
    ∃ offset', used' = [⟨t, offset'⟩] := by
  obtain ⟨offset', more, rfl, hnil⟩ := exists_of_same_cons h
  obtain rfl := List.map_eq_nil_iff.mp hnil
  exact ⟨offset', rfl⟩

/-- What follows goes on like what followed before: it begins with the same token, or it is of a
kind if nothing followed before. -/
inductive Resumes (F : List Located → Prop) : List Located → List Located → Prop where
  | ended {more : List Located} (h : F more) : Resumes F [] more
  | same {t : Token} {offset offset' : Nat} {rest more : List Located} :
      Resumes F (⟨t, offset⟩ :: rest) (⟨t, offset'⟩ :: more)

theorem Resumes.mono (h : Resumes F rest more) (hFG : ∀ more, F more → G more) :
    Resumes G rest more := by
  cases h with
  | ended h => exact .ended (hFG _ h)
  | same => exact .same

/-- The same tokens before them go on alike. -/
theorem Resumes.append (h : Resumes F rest more)
    (htokens : used'.map (·.token) = used.map (·.token)) :
    Resumes F (used ++ rest) (used' ++ more) := by
  cases used with
  | nil =>
      obtain rfl := List.map_eq_nil_iff.mp htokens
      exact h
  | cons t used =>
      obtain ⟨offset, used', rfl, -⟩ := exists_of_map_cons htokens
      exact .same

/-- Whether tokens have a property is seen from the first of them. -/
def Looks (P : List Located → Prop) : Prop :=
  ∀ t offset offset' rest more, P (⟨t, offset⟩ :: rest) → P (⟨t, offset'⟩ :: more)

theorem Resumes.of_looks (h : Resumes F rest more) (hP : Looks P) (hF : ∀ more, F more → P more)
    (hrest : P rest) : P more := by
  cases h with
  | ended h => exact hF _ h
  | same => exact hP _ _ _ _ _ hrest

theorem looks_eat?_eq_none (s : Symbol) : Looks fun ts => eat? s ts = none := by
  intro t offset offset' rest more h
  refine eat?_eq_none_of_ne ?_
  rintro rfl
  cases eat?_self.symm.trans h

theorem looks_startsStep (b : Bool) : Looks fun ts => startsStep ts = b := by
  intro t offset offset' rest more h
  cases t <;> exact h

theorem looks_operatorOf?_eq_none (ops : List Operator) :
    Looks fun ts => operatorOf? ops ts = none := by
  intro t offset offset' rest more h
  simp only [operatorOf?] at h ⊢
  split at h
  · split at h
    · cases h
    · next hmem => rw [if_neg hmem]
  · rfl

theorem exists_of_eat? (h : eat? s ts = some rest) :
    ∃ offset, ts = ⟨.symbol s, offset⟩ :: rest := by
  unfold eat? at h
  split at h
  · next found offset more =>
    obtain ⟨hs, hmore⟩ := Option.ite_none_right_eq_some.mp h
    subst hs
    cases hmore
    exact ⟨offset, rfl⟩
  · cases h

theorem exists_of_expect {stop : Nat} {what : Expectation} (h : expect stop s what ts = .ok rest) :
    ∃ offset, ts = ⟨.symbol s, offset⟩ :: rest := by
  unfold expect at h
  split at h
  · next hrest =>
    cases h
    exact exists_of_eat? hrest
  · cases h

theorem exists_of_operatorOf? {ops : List Operator} {op : Operator}
    (h : operatorOf? ops ts = some (op, rest)) :
    ∃ t offset, ts = ⟨t, offset⟩ :: rest ∧
      ∀ offset more, operatorOf? ops (⟨t, offset⟩ :: more) = some (op, more) := by
  unfold operatorOf? at h
  split at h
  · next t more =>
    split at h
    · next found hfound =>
      obtain ⟨hmem, h⟩ := Option.ite_none_right_eq_some.mp h
      cases h
      refine ⟨t.token, t.offset, rfl, fun offset more => ?_⟩
      simp only [operatorOf?, hfound, hmem, if_true]
    · cases h
  · cases h

/-- The last of some tokens is of a kind. -/
def EndsIn (L : Token → Prop) (used : List Located) : Prop :=
  ∃ before t, used = before ++ [t] ∧ L t.token

theorem EndsIn.append (h : EndsIn L used) (before : List Located) : EndsIn L (before ++ used) := by
  obtain ⟨middle, t, rfl, ht⟩ := h
  exact ⟨before ++ middle, t, (List.append_assoc ..).symm, ht⟩

theorem EndsIn.append_of (h : EndsIn L used') (hused : used = [] ∨ EndsIn L used) :
    EndsIn L (used' ++ used) := by
  obtain rfl | hused := hused
  · rwa [List.append_nil]
  · exact hused.append used'

theorem endsIn_singleton {t : Token} {offset : Nat} (h : L t) : EndsIn L [⟨t, offset⟩] :=
  ⟨[], _, rfl, h⟩

theorem EndsIn.exists_cons (h : EndsIn L used) : ∃ t offset more, used = ⟨t, offset⟩ :: more := by
  obtain ⟨before, t, rfl, -⟩ := h
  cases before with
  | nil => exact ⟨t.token, t.offset, [], rfl⟩
  | cons u before => exact ⟨u.token, u.offset, _, rfl⟩

theorem EndsIn.mono {L' : Token → Prop} (h : EndsIn L used) (hL : ∀ t, L t → L' t) :
    EndsIn L' used := by
  obtain ⟨before, t, hused, ht⟩ := h
  exact ⟨before, t, hused, hL _ ht⟩

/-- The same tokens begin in the same way. -/
theorem EndsIn.resumes (h : EndsIn L used) (htokens : used'.map (·.token) = used.map (·.token)) :
    Resumes F (used ++ rest) (used' ++ more) := by
  obtain ⟨t, offset, tail, rfl⟩ := h.exists_cons
  obtain ⟨offset', tail', rfl, -⟩ := exists_of_same_cons htokens
  exact .same

/-- Some tokens are those before `rest` and others that parsers read as a value, before everything
that goes on like `rest`. The depth is that of the nesting that the parsers allow for. -/
def ReadsAgain (L : Token → Prop) (F : List Located → Prop) (q : Nat → Nat → Parser α)
    (found rest : List Located) (a : α) : Prop :=
  ∃ used, EndsIn L used ∧ found = used ++ rest ∧ ∀ stop depth, used.length ≤ depth →
    Reads (q stop depth) (Resumes F rest) (used.map (·.token)) a

/-- What one parser reads the others read again. -/
def Rereads (L : Token → Prop) (F : List Located → Prop) (p : Parser α) (q : Nat → Nat → Parser α) :
    Prop :=
  ∀ found a rest, p found = .ok (a, rest) → ReadsAgain L F q found rest a

/-- A single token that is read whatever follows. -/
theorem readsAgain_cons {q : Nat → Nat → Parser α} {t : Token} {offset : Nat} {a : α} (ht : L t)
    (h : ∀ stop depth offset more, q stop depth (⟨t, offset⟩ :: more) = .ok (a, more)) :
    ReadsAgain L F q (⟨t, offset⟩ :: rest) rest a := by
  refine ⟨[⟨t, offset⟩], endsIn_singleton ht, rfl, ?_⟩
  intro stop depth _ used' more htokens _
  obtain ⟨offset', rfl⟩ := exists_of_same_singleton htokens
  exact h stop depth offset' more

/-- The parser of what stands in parentheses and brackets is followed by tokens that close these. -/
def InnerRereads (inner : Parser Expr) : Prop :=
  Rereads (fun _ => True) (fun _ => False) inner fun stop depth => expression stop (depth + 1)

/-- What a parser reads others read again if they allow for deeper nesting than there are tokens. -/
def RereadsWithin (L : Token → Prop) (F : List Located → Prop) (p : Parser α)
    (q : Nat → Nat → Parser α) : Prop :=
  ∀ found a rest, p found = .ok (a, rest) → ∃ used, EndsIn L used ∧ found = used ++ rest ∧
    ∀ stop depth, used.length < depth →
      Reads (q stop depth) (Resumes F rest) (used.map (·.token)) a

theorem Rereads.mono {p : Parser α} {q : Nat → Nat → Parser α} (h : Rereads L F p q)
    (hGF : ∀ more, G more → F more) : Rereads L G p q := by
  intro found a rest ha
  obtain ⟨used, hused, hfound, hreads⟩ := h found a rest ha
  exact ⟨used, hused, hfound, fun stop depth hdepth used' more htokens hmore =>
    hreads stop depth hdepth used' more htokens (hmore.mono hGF)⟩

theorem Rereads.within {p : Parser α} {q : Nat → Nat → Parser α} (h : Rereads L F p q) :
    RereadsWithin L F p q := by
  intro found a rest ha
  obtain ⟨used, hused, hfound, hreads⟩ := h found a rest ha
  exact ⟨used, hused, hfound, fun stop depth hdepth => hreads stop depth (Nat.le_of_lt hdepth)⟩

theorem InnerRereads.within {inner : Parser Expr} (h : InnerRereads inner) :
    RereadsWithin (fun _ => True) (fun _ => False) inner expression := by
  intro found e rest he
  obtain ⟨used, hused, hfound, hreads⟩ := h found e rest he
  refine ⟨used, hused, hfound, fun stop depth hdepth => ?_⟩
  cases depth with
  | zero => exact absurd hdepth (Nat.not_lt_zero _)
  | succ depth => exact hreads stop depth (Nat.le_of_lt_succ hdepth)

section Repetition

variable {next : α → List Located → Option (Except Refusal (α × List Located))}
  {next' : Nat → Nat → α → List Located → Option (Except Refusal (α × List Located))}

/-- What a loop reads in one go it reads again. -/
def Reruns (L : Token → Prop) (F : List Located → Prop)
    (next : α → List Located → Option (Except Refusal (α × List Located)))
    (next' : Nat → Nat → α → List Located → Option (Except Refusal (α × List Located))) : Prop :=
  ∀ a ts b rest, next a ts = some (.ok (b, rest)) → ∃ used, EndsIn L used ∧ ts = used ++ rest ∧
    ∀ stop depth, used.length ≤ depth → ∀ used' more, used'.map (·.token) = used.map (·.token) →
      Resumes F rest more → next' stop depth a (used' ++ more) = some (.ok (b, more))

/-- Over the same tokens a loop comes to stand at the same place, if it is given enough turns. -/
def Arrives (F : List Located → Prop)
    (next' : Nat → Nat → α → List Located → Option (Except Refusal (α × List Located)))
    (used rest : List Located) (a b : α) : Prop :=
  ∀ stop depth, used.length ≤ depth → ∀ used' more, used'.map (·.token) = used.map (·.token) →
    Resumes F rest more → ∀ limit, (used' ++ more).length ≤ limit →
      ∃ limit', more.length ≤ limit' ∧ repeatWith (next' stop depth) limit a (used' ++ more) =
        repeatWith (next' stop depth) limit' b more

theorem arrives_nil {a : α} : Arrives F next' [] rest a a := by
  intro stop depth _ used' more htokens _ limit hlimit
  obtain rfl := List.map_eq_nil_iff.mp htokens
  exact ⟨limit, hlimit, rfl⟩

/-- A loop stops where it has nothing to go on with. -/
theorem repeatWith_arrives (hnil : ∀ a, next a [] = none) (hnext : Reruns L F next next')
    {limit : Nat} {a b : α} {found : List Located} (hlimit : found.length ≤ limit)
    (h : repeatWith next limit a found = .ok (b, rest)) :
    next b rest = none ∧ ∃ used, (used = [] ∨ EndsIn L used) ∧ found = used ++ rest ∧
      Arrives F next' used rest a b := by
  induction limit generalizing a found with
  | zero =>
      obtain rfl := List.length_eq_zero_iff.mp (Nat.le_zero.mp hlimit)
      cases h
      exact ⟨hnil _, [], .inl rfl, rfl, arrives_nil⟩
  | succ limit ih =>
      rw [repeatWith] at h
      split at h
      · next hnone =>
        cases h
        exact ⟨hnone, [], .inl rfl, rfl, arrives_nil⟩
      · next result hresult =>
        obtain ⟨⟨c, ts⟩, rfl, h⟩ := bind_eq_ok.mp h
        obtain ⟨first, hfirst, rfl, hrerun⟩ := hnext a found c ts hresult
        obtain ⟨t, offset, tail, rfl⟩ := hfirst.exists_cons
        have hts : ts.length ≤ limit := by
          simp only [List.cons_append, List.length_cons, List.length_append] at hlimit
          omega
        obtain ⟨hnone, others, hothers, rfl, harrives⟩ := ih hts h
        refine ⟨hnone, (⟨t, offset⟩ :: tail) ++ others, .inr (hfirst.append_of hothers),
          (List.append_assoc ..).symm, ?_⟩
        intro stop depth hdepth used' more htokens hmore limit' hlimit'
        rw [List.length_append] at hdepth
        rw [List.map_append] at htokens
        obtain ⟨first', others', rfl, hfirst', hothers'⟩ := List.map_eq_append_iff.mp htokens
        have hstep := hrerun stop depth (by omega) first' (others' ++ more) hfirst'
          (hmore.append hothers')
        obtain ⟨offset', tail', rfl, -⟩ := exists_of_map_cons hfirst'
        simp only [List.cons_append, List.length_cons, List.length_append] at hlimit'
        obtain ⟨limit', rfl⟩ : ∃ k, limit' = k + 1 := ⟨limit' - 1, by omega⟩
        have henough : (others' ++ more).length ≤ limit' := by
          rw [List.length_append]
          omega
        obtain ⟨limit'', hlimit'', heq⟩ :=
          harrives stop depth (by omega) others' more hothers' hmore limit' henough
        refine ⟨limit'', hlimit'', ?_⟩
        rw [List.append_assoc, repeatWith_step hstep, heq]

/-- If what follows ends a loop, it reads the same again. -/
theorem repeated_rereads (hnil : ∀ a, next a [] = none) (hnext : Reruns L F next next')
    (hstop : ∀ a ts more, next a ts = none → Resumes F ts more →
      ∀ stop depth, next' stop depth a more = none)
    {a b : α} {found : List Located} (h : repeated next a found = .ok (b, rest)) :
    ∃ used, (used = [] ∨ EndsIn L used) ∧ found = used ++ rest ∧
      ∀ stop depth, used.length ≤ depth →
        Reads (repeated (next' stop depth) a) (Resumes F rest) (used.map (·.token)) b := by
  obtain ⟨hnone, used, hused, hfound, harrives⟩ :=
    repeatWith_arrives hnil hnext (Nat.le_refl found.length) h
  refine ⟨used, hused, hfound, fun stop depth hdepth used' more htokens hmore => ?_⟩
  obtain ⟨limit', -, heq⟩ := harrives stop depth hdepth used' more htokens hmore _ (Nat.le_refl _)
  rw [repeated, heq]
  exact repeatWith_stop (hstop b rest more hnone hmore stop depth) limit'

/-- A first operand and what a loop reads after it. -/
theorem chain_rereads {p : Parser β} {q : Nat → Nat → Parser β} (wrap : β → α)
    (hp : Rereads L F p q) (hnil : ∀ a, next a [] = none) (hnext : Reruns L F next next')
    (hstop : ∀ a ts more, next a ts = none → Resumes F ts more →
      ∀ stop depth, next' stop depth a more = none) :
    Rereads L F (fun ts => p ts >>= fun x => repeated next (wrap x.1) x.2)
      fun stop depth ts => q stop depth ts >>= fun x =>
        repeated (next' stop depth) (wrap x.1) x.2 := by
  intro ts a rest h
  obtain ⟨⟨first, ts'⟩, hfirst, hloop⟩ := bind_eq_ok.mp h
  obtain ⟨left, hleft, rfl, hreads⟩ := hp ts first ts' hfirst
  obtain ⟨right, hright, rfl, hagain⟩ := repeated_rereads hnil hnext hstop hloop
  refine ⟨left ++ right, hleft.append_of hright, (List.append_assoc ..).symm, ?_⟩
  intro stop depth hdepth used' more htokens hmore
  rw [List.length_append] at hdepth
  rw [List.map_append] at htokens
  obtain ⟨left', right', rfl, hleft', hright'⟩ := List.map_eq_append_iff.mp htokens
  dsimp only
  rw [List.append_assoc, hreads stop depth (by omega) left' _ hleft' (hmore.append hright'),
    ok_bind]
  exact hagain stop depth (by omega) right' more hright' hmore

end Repetition

end Parser

end UiTree.Query
