import UiTree.Proofs.Query.Rereading

/-!
# Reading a path again

Tests, predicates, steps and paths are read again from the same tokens, if the expressions inside
their brackets are. After the steps of a path the parser stands where it can go on with more steps.
-/

namespace UiTree.Query

namespace Parser

variable {F : List Located → Prop} {ts rest : List Located}

/-! ### Steps -/

/-- A step does not end in a slash. -/
def NoSlash (t : Token) : Prop :=
  t ≠ .symbol .slash

theorem nodeTest_rereads (stop : Nat) (a : Axis) :
    Rereads NoSlash (fun more => eat? .openParen more = none) (nodeTest stop a)
      fun stop _ => nodeTest stop a := by
  intro found test rest h
  unfold nodeTest at h
  split at h
  · next offset more =>
    cases h
    exact readsAgain_cons nofun fun _ _ _ _ => rfl
  · next name start offset more =>
    split at h
    · next hname =>
      subst hname
      obtain ⟨after, hclose, h⟩ := bind_eq_ok.mp h
      obtain ⟨offset', rfl⟩ := exists_of_expect hclose
      cases h
      refine ⟨[⟨.name "node", start⟩, ⟨.symbol .openParen, offset⟩, ⟨.symbol .closeParen, offset'⟩],
        ⟨[_, _], _, rfl, nofun⟩, rfl, ?_⟩
      intro stop depth _ used' more htokens _
      obtain ⟨_, _, rfl, hopen⟩ := exists_of_same_cons htokens
      obtain ⟨_, _, rfl, hclose⟩ := exists_of_same_cons hopen
      obtain ⟨_, rfl⟩ := exists_of_same_singleton hclose
      rfl
    · cases h
  · next name start more hmore =>
    have hopen : eat? .openParen more = none := by
      refine Option.eq_none_iff_forall_ne_some.mpr fun after hafter => ?_
      obtain ⟨offset, rfl⟩ := exists_of_eat? hafter
      exact hmore offset after rfl
    have hrest : more = rest := by
      split at h
      · split at h
        · exact (Prod.mk.inj (Except.ok.inj h)).2
        · cases h
      · exact (Prod.mk.inj (Except.ok.inj h)).2
    subst hrest
    refine ⟨[⟨.name name, start⟩], endsIn_singleton nofun, rfl, ?_⟩
    intro stop depth _ used' more' htokens hresumes
    obtain ⟨offset, rfl⟩ := exists_of_same_singleton htokens
    have hopen' : eat? .openParen more' = none :=
      hresumes.of_looks (looks_eat?_eq_none _) (fun _ => id) hopen
    rw [List.singleton_append]
    dsimp only
    rw [nodeTest_name hopen']
    split at h
    · next haxis =>
      rw [if_pos haxis]
      cases hfound : DocumentAttribute.ofName? name with
      | none =>
          simp only [hfound] at h
          cases h
      | some found =>
          simp only [hfound] at h
          cases h
          rfl
    · next haxis =>
      cases h
      rw [if_neg haxis]
  · cases h

variable {inner : Parser Expr}

/-- What the loop of the predicates of a step does. -/
def predicateNext (stop : Nat) (inner : Parser Expr) (found : List Expr) (ts : List Located) :
    Option (Except Refusal (List Expr × List Located)) :=
  (eat? .openBracket ts).map fun ts => do
    let (predicate, ts) ← inner ts
    let ts ← expect stop .closeBracket .closeBracket ts
    .ok (found ++ [predicate], ts)

theorem predicateNext_eq_none_iff {stop : Nat} {found : List Expr} :
    predicateNext stop inner found ts = none ↔ eat? .openBracket ts = none :=
  Option.map_eq_none_iff

theorem predicateNext_reruns (hinner : InnerRereads inner) (stop : Nat) :
    Reruns NoSlash F (predicateNext stop inner)
      fun stop depth => predicateNext stop (expression stop depth) := by
  intro before ts b rest hnext
  obtain ⟨ts₁, heat, hread⟩ := Option.map_eq_some_iff.mp hnext
  obtain ⟨offset, rfl⟩ := exists_of_eat? heat
  obtain ⟨⟨predicate, ts₂⟩, hpredicate, hread⟩ := bind_eq_ok.mp hread
  obtain ⟨ts₃, hclose, hvalue⟩ := bind_eq_ok.mp hread
  obtain ⟨offset', rfl⟩ := exists_of_expect hclose
  obtain ⟨inside, -, rfl, hreads⟩ := hinner.within _ _ _ hpredicate
  cases hvalue
  refine ⟨⟨.symbol .openBracket, offset⟩ :: (inside ++ [⟨.symbol .closeBracket, offset'⟩]),
    ⟨_ :: inside, _, rfl, nofun⟩, by simp, ?_⟩
  intro stop depth hdepth used' more htokens _
  obtain ⟨_, _, rfl, hbracket⟩ := exists_of_same_cons htokens
  rw [List.map_append] at hbracket
  obtain ⟨_, inside', rfl, hinside⟩ := exists_of_map_concat hbracket
  rw [List.length_cons, List.length_append] at hdepth
  change predicateNext stop (expression stop depth) before _ = _
  rw [predicateNext, List.cons_append, eat?_self, Option.map_some, List.append_assoc,
    List.singleton_append, hreads stop depth (by omega) inside' _ hinside .same]
  simp only [ok_bind, expect_self]

theorem predicates_rereads (hinner : InnerRereads inner) {stop : Nat} {found : List Located}
    {preds : List Expr} (h : predicates stop inner found = .ok (preds, rest)) :
    ∃ used, (used = [] ∨ EndsIn NoSlash used) ∧ found = used ++ rest ∧
      ∀ stop depth, used.length ≤ depth →
        Reads (predicates stop (expression stop depth))
          (Resumes (fun more => eat? .openBracket more = none) rest) (used.map (·.token))
          preds := by
  refine repeated_rereads (fun _ => rfl) (predicateNext_reruns hinner stop) ?_ h
  intro before ts more hnone hmore stop' depth
  have hopen : eat? .openBracket ts = none := predicateNext_eq_none_iff.mp hnone
  exact predicateNext_eq_none_iff.mpr
    (hmore.of_looks (looks_eat?_eq_none _) (fun _ => id) hopen)

/-- What does not go on with a step. -/
structure AfterStep (more : List Located) : Prop where
  ends : EndsStep more
  colon : eat? .doubleColon more = none

/-- A step that is not a point or two has an axis, a test and predicates. -/
theorem step_eq {stop : Nat} (hdot : eat? .dot ts = none) (hdotDot : eat? .dotDot ts = none) :
    step stop inner ts =
      axis ts >>= fun x => nodeTest stop x.1 x.2 >>= fun y =>
        predicates stop inner y.2 >>= fun z => .ok (.mk x.1 y.1 z.1, z.2) := by
  unfold step
  split
  · cases eat?_self.symm.trans hdot
  · cases eat?_self.symm.trans hdotDot
  · rfl

theorem axis_eq_child (hat : eat? .at ts = none)
    (hcolon : ∀ name offset more, ts = ⟨.name name, offset⟩ :: more →
      eat? .doubleColon more = none) :
    axis ts = .ok (.child, ts) := by
  unfold axis
  split
  · cases eat?_self.symm.trans hat
  · cases eat?_self.symm.trans (hcolon _ _ _ rfl)
  · rfl

/-- An axis is a mark, or a name before two colons; where neither stands it is that of children. -/
theorem axis_cases {a : Axis} (h : axis ts = .ok (a, rest)) :
    (∃ offset, ts = ⟨.symbol .at, offset⟩ :: rest ∧ a = .attributes) ∨
    (∃ name offset offset', ts = ⟨.name name, offset⟩ :: ⟨.symbol .doubleColon, offset'⟩ :: rest ∧
      Axis.ofName? name = some a) ∨
    (ts = rest ∧ a = .child ∧ eat? .at ts = none ∧
      ∀ name offset more, ts = ⟨.name name, offset⟩ :: more → eat? .doubleColon more = none) := by
  unfold axis at h
  split at h
  · next offset more =>
    cases h
    exact .inl ⟨offset, rfl, rfl⟩
  · next name offset offset' more =>
    split at h
    · next hname =>
      cases h
      exact .inr (.inl ⟨name, offset, offset', rfl, hname⟩)
    · cases h
  · next hat hcolon =>
    cases h
    refine .inr (.inr ⟨rfl, rfl, ?_, ?_⟩)
    · refine Option.eq_none_iff_forall_ne_some.mpr fun after hafter => ?_
      obtain ⟨offset, rfl⟩ := exists_of_eat? hafter
      exact hat offset after rfl
    · rintro name offset more rfl
      refine Option.eq_none_iff_forall_ne_some.mpr fun after hafter => ?_
      obtain ⟨offset', rfl⟩ := exists_of_eat? hafter
      exact hcolon name offset offset' after rfl

/-- An axis is read again if the token after it is the same, and no colons come after that where
none did. -/
theorem axis_again {a : Axis} {t : Token} {offset : Nat}
    (h : axis ts = .ok (a, ⟨t, offset⟩ :: rest)) :
    ∃ left, ts = left ++ ⟨t, offset⟩ :: rest ∧ ∀ left' offset' more,
      left'.map (·.token) = left.map (·.token) →
        Resumes (fun more => eat? .doubleColon more = none) rest more →
          axis (left' ++ ⟨t, offset'⟩ :: more) = .ok (a, ⟨t, offset'⟩ :: more) := by
  obtain ⟨offset₁, rfl, rfl⟩ | ⟨name, offset₁, offset₂, rfl, hname⟩ | ⟨rfl, rfl, hat, hcolon⟩ :=
    axis_cases h
  · refine ⟨[⟨.symbol .at, offset₁⟩], rfl, fun left' offset' more hleft _ => ?_⟩
    obtain ⟨_, rfl⟩ := exists_of_same_singleton hleft
    rfl
  · refine ⟨[⟨.name name, offset₁⟩, ⟨.symbol .doubleColon, offset₂⟩], rfl,
      fun left' offset' more hleft _ => ?_⟩
    obtain ⟨_, _, rfl, hright⟩ := exists_of_same_cons hleft
    obtain ⟨_, rfl⟩ := exists_of_same_singleton hright
    rw [List.cons_append, List.singleton_append, axis, hname]
  · refine ⟨[], rfl, fun left' offset' more hleft hmore => ?_⟩
    obtain rfl := List.map_eq_nil_iff.mp hleft
    refine axis_eq_child (looks_eat?_eq_none _ _ _ _ _ _ hat) ?_
    rintro name _ _ ⟨⟩
    exact hmore.of_looks (looks_eat?_eq_none _) (fun _ => id) (hcolon name offset rest rfl)

theorem step_rereads (hinner : InnerRereads inner) (stop : Nat) :
    Rereads NoSlash AfterStep (step stop inner)
      fun stop depth => step stop (expression stop depth) := by
  intro found s rest h
  cases hdot : eat? .dot found with
  | some after =>
      obtain ⟨offset, rfl⟩ := exists_of_eat? hdot
      cases h
      exact readsAgain_cons nofun fun _ _ _ _ => rfl
  | none =>
  cases hdotDot : eat? .dotDot found with
  | some after =>
      obtain ⟨offset, rfl⟩ := exists_of_eat? hdotDot
      cases h
      exact readsAgain_cons nofun fun _ _ _ _ => rfl
  | none =>
  rw [step_eq hdot hdotDot] at h
  obtain ⟨⟨a, ts₁⟩, haxis, h⟩ := bind_eq_ok.mp h
  obtain ⟨⟨test, ts₂⟩, htest, h⟩ := bind_eq_ok.mp h
  obtain ⟨⟨preds, rest⟩, hpreds, h⟩ := bind_eq_ok.mp h
  cases h
  obtain ⟨middle, hmiddle, rfl, hreadTest⟩ := nodeTest_rereads stop a ts₁ test ts₂ htest
  obtain ⟨right, hright, rfl, hreadPreds⟩ := predicates_rereads hinner hpreds
  obtain ⟨t, offset, tail, rfl⟩ := hmiddle.exists_cons
  obtain ⟨left, hfound, hreadAxis⟩ := axis_again haxis
  have hends : EndsIn NoSlash (left ++ (⟨t, offset⟩ :: tail ++ right)) :=
    (hmiddle.append_of hright).append left
  have hused : found = left ++ (⟨t, offset⟩ :: tail ++ right) ++ rest := by
    rw [hfound, List.append_assoc]
    simp
  refine ⟨_, hends, hused, ?_⟩
  intro stop depth hdepth used' more htokens hmore
  have hresumes : Resumes (fun _ => False) found (used' ++ more) := by
    rw [hused]
    exact hends.resumes htokens
  rw [List.length_append, List.length_append] at hdepth
  rw [List.map_append, List.map_append] at htokens
  obtain ⟨left', others', rfl, hleft, hothers⟩ := List.map_eq_append_iff.mp htokens
  obtain ⟨middle', right', rfl, hmiddle', hright'⟩ := List.map_eq_append_iff.mp hothers
  have hafter : Resumes AfterStep (right ++ rest) (right' ++ more) := hmore.append hright'
  have htest' : nodeTest stop a (middle' ++ (right' ++ more)) = .ok (test, right' ++ more) :=
    hreadTest stop depth (by omega) middle' _ hmiddle' (hafter.mono fun _ h => h.ends.2)
  have hpreds' : predicates stop (expression stop depth) (right' ++ more) = .ok (preds, more) :=
    hreadPreds stop depth (by omega) right' more hright' (hmore.mono fun _ h => h.ends.1)
  have haxis' : axis (left' ++ (middle' ++ (right' ++ more))) =
      .ok (a, middle' ++ (right' ++ more)) := by
    obtain ⟨offset', tail', rfl, htail⟩ := exists_of_same_cons hmiddle'
    exact hreadAxis left' offset' (tail' ++ (right' ++ more)) hleft
      ((hafter.append htail).mono fun _ h => h.colon)
  have hdot' : eat? .dot (left' ++ (middle' ++ right') ++ more) = none :=
    hresumes.of_looks (looks_eat?_eq_none _) nofun hdot
  have hdotDot' : eat? .dotDot (left' ++ (middle' ++ right') ++ more) = none :=
    hresumes.of_looks (looks_eat?_eq_none _) nofun hdotDot
  change step stop (expression stop depth) _ = _
  rw [step_eq hdot' hdotDot', List.append_assoc, List.append_assoc, haxis', ok_bind, htest',
    ok_bind, hpreds', ok_bind]

/-! ### Paths -/

/-- What the loop of the steps of a path does. -/
def stepNext (stop : Nat) (inner : Parser Expr) (found : List Step) (ts : List Located) :
    Option (Except Refusal (List Step × List Located)) :=
  match eat? .slash ts with
  | some ts => some do
    let (next, ts) ← step stop inner ts
    .ok (found ++ [next], ts)
  | none =>
    (eat? .doubleSlash ts).map fun ts => do
      let (next, ts) ← step stop inner ts
      .ok (found ++ [.anywhere, next], ts)

variable {stop : Nat} {before all : List Step}

theorem steps_eq : steps stop inner before ts =
    step stop inner ts >>= fun x =>
      repeatWith (stepNext stop inner) x.2.length (before ++ [x.1]) x.2 := rfl

theorem stepNext_slash {offset : Nat} :
    stepNext stop inner before (⟨.symbol .slash, offset⟩ :: ts) =
      some (step stop inner ts >>= fun x => .ok (before ++ [x.1], x.2)) := rfl

theorem stepNext_doubleSlash {offset : Nat} :
    stepNext stop inner before (⟨.symbol .doubleSlash, offset⟩ :: ts) =
      some (step stop inner ts >>= fun x => .ok (before ++ [.anywhere, x.1], x.2)) := rfl

theorem stepNext_eq_none_iff : stepNext stop inner before ts = none ↔
    eat? .slash ts = none ∧ eat? .doubleSlash ts = none := by
  unfold stepNext
  split
  · next heat => simp [heat]
  · next heat => simp [heat]

theorem stepNext_reruns (hinner : InnerRereads inner) (stop : Nat) :
    Reruns NoSlash AfterStep (stepNext stop inner)
      fun stop depth => stepNext stop (expression stop depth) := by
  intro before ts b rest h
  have hsep {sep : Symbol} {offset : Nat} {more : List Located} (wrap : Step → List Step)
      (heq : ∀ stop inner offset more, stepNext stop inner before (⟨.symbol sep, offset⟩ :: more) =
        some (step stop inner more >>= fun x => .ok (wrap x.1, x.2)))
      (h : stepNext stop inner before (⟨.symbol sep, offset⟩ :: more) = some (.ok (b, rest))) :
      ∃ used, EndsIn NoSlash used ∧ ⟨.symbol sep, offset⟩ :: more = used ++ rest ∧
        ∀ stop depth, used.length ≤ depth → ∀ used' more,
          used'.map (·.token) = used.map (·.token) → Resumes AfterStep rest more →
            stepNext stop (expression stop depth) before (used' ++ more) =
              some (.ok (b, more)) := by
    rw [heq] at h
    obtain ⟨⟨s, rest⟩, hs, hvalue⟩ := bind_eq_ok.mp (Option.some.inj h)
    cases hvalue
    obtain ⟨used, hused, rfl, hreads⟩ := step_rereads hinner stop more s rest hs
    refine ⟨⟨.symbol sep, offset⟩ :: used, hused.append [_], rfl, ?_⟩
    intro stop depth hdepth used' more htokens hmore
    obtain ⟨offset', used', rfl, hused'⟩ := exists_of_same_cons htokens
    have hstep : step stop (expression stop depth) (used' ++ more) = .ok (s, more) :=
      hreads stop depth (Nat.le_of_succ_le hdepth) used' more hused' hmore
    rw [List.cons_append, heq, hstep, ok_bind]
  cases hslash : eat? .slash ts with
  | some after =>
      obtain ⟨offset, rfl⟩ := exists_of_eat? hslash
      exact hsep (fun s => before ++ [s]) (fun _ _ _ _ => stepNext_slash) h
  | none =>
  cases hdouble : eat? .doubleSlash ts with
  | some after =>
      obtain ⟨offset, rfl⟩ := exists_of_eat? hdouble
      exact hsep (fun s => before ++ [.anywhere, s]) (fun _ _ _ _ => stepNext_doubleSlash) h
  | none =>
      rw [stepNext_eq_none_iff.mpr ⟨hslash, hdouble⟩] at h
      cases h

/-- After the steps of a path the loop stands where it can go on with more steps. -/
theorem steps_arrives (hinner : InnerRereads inner) {found : List Located}
    (h : steps stop inner before found = .ok (all, rest)) :
    eat? .slash rest = none ∧ eat? .doubleSlash rest = none ∧
      ∃ used, EndsIn NoSlash used ∧ found = used ++ rest ∧
        ∀ stop depth, used.length ≤ depth → ∀ used' more,
          used'.map (·.token) = used.map (·.token) → Resumes AfterStep rest more →
            ∃ limit, more.length ≤ limit ∧
              steps stop (expression stop depth) before (used' ++ more) =
                repeatWith (stepNext stop (expression stop depth)) limit all more := by
  rw [steps_eq] at h
  obtain ⟨⟨first, ts⟩, hfirst, hloop⟩ := bind_eq_ok.mp h
  obtain ⟨left, hleft, rfl, hreads⟩ := step_rereads hinner stop found first ts hfirst
  obtain ⟨hnone, right, hright, rfl, harrives⟩ := repeatWith_arrives (fun _ => rfl)
    (stepNext_reruns hinner stop) (Nat.le_refl ts.length) hloop
  obtain ⟨hslash, hdouble⟩ := stepNext_eq_none_iff.mp hnone
  refine ⟨hslash, hdouble, left ++ right, hleft.append_of hright, (List.append_assoc ..).symm, ?_⟩
  intro stop depth hdepth used' more htokens hmore
  rw [List.length_append] at hdepth
  rw [List.map_append] at htokens
  obtain ⟨left', right', rfl, hleft', hright'⟩ := List.map_eq_append_iff.mp htokens
  have hstep : step stop (expression stop depth) (left' ++ (right' ++ more)) =
      .ok (first, right' ++ more) :=
    hreads stop depth (by omega) left' _ hleft' (hmore.append hright')
  obtain ⟨limit, hlimit, heq⟩ :=
    harrives stop depth (by omega) right' more hright' hmore _ (Nat.le_refl _)
  refine ⟨limit, hlimit, ?_⟩
  rw [steps_eq, List.append_assoc, hstep, ok_bind, heq]

theorem startsStep_of_step {s : Step} (h : step stop inner ts = .ok (s, rest)) :
    startsStep ts = true := by
  unfold step at h
  split at h
  · rfl
  · rfl
  · obtain ⟨⟨a, ts₁⟩, haxis, h⟩ := bind_eq_ok.mp h
    obtain ⟨⟨test, ts₂⟩, htest, -⟩ := bind_eq_ok.mp h
    obtain ⟨_, rfl, -⟩ | ⟨_, _, _, rfl, -⟩ | ⟨rfl, -⟩ := axis_cases haxis
    · rfl
    · rfl
    · simp only [nodeTest] at htest
      split at htest
      · rfl
      · rfl
      · rfl
      · cases htest

/-- What may stand before the first step of a path: nothing, a slash or two slashes. -/
inductive PathStart : List Token → Bool → List Step → Prop where
  | relative : PathStart [] false []
  | absolute : PathStart [.symbol .slash] true []
  | anywhere : PathStart [.symbol .doubleSlash] true [.anywhere]

theorem PathStart.path_eq {left : List Located} {absolute : Bool}
    (h : PathStart (left.map (·.token)) absolute before) (hts : startsStep ts = true) :
    path stop inner (left ++ ts) =
      steps stop inner before ts >>= fun x => .ok (.path absolute x.1, x.2) := by
  generalize htokens : left.map (·.token) = tokens at h
  cases h with
  | relative =>
      obtain rfl := List.map_eq_nil_iff.mp htokens
      rw [List.nil_append]
      unfold path
      split
      · cases hts
      · cases hts
      · rfl
  | absolute =>
      obtain ⟨offset, more, rfl, hnil⟩ := exists_of_map_cons htokens
      obtain rfl := List.map_eq_nil_iff.mp hnil
      rw [List.singleton_append, path, if_pos hts]
  | anywhere =>
      obtain ⟨offset, more, rfl, hnil⟩ := exists_of_map_cons htokens
      obtain rfl := List.map_eq_nil_iff.mp hnil
      rfl

/-- A path is the root alone, or it has steps. -/
theorem path_cases {e : Expr} (h : path stop inner ts = .ok (e, rest)) :
    (∃ offset,
      ts = ⟨.symbol .slash, offset⟩ :: rest ∧ startsStep rest = false ∧ e = .path true []) ∨
    ∃ left more absolute before all, ts = left ++ more ∧
      PathStart (left.map (·.token)) absolute before ∧
        steps stop inner before more = .ok (all, rest) ∧ e = .path absolute all := by
  unfold path at h
  split at h
  · next offset more =>
    split at h
    · obtain ⟨⟨all, rest⟩, hall, hvalue⟩ := bind_eq_ok.mp h
      cases hvalue
      exact .inr ⟨[_], more, true, [], all, rfl, .absolute, hall, rfl⟩
    · next hstarts =>
      cases h
      exact .inl ⟨offset, rfl, Bool.eq_false_iff.mpr hstarts, rfl⟩
  · next offset more =>
    obtain ⟨⟨all, rest⟩, hall, hvalue⟩ := bind_eq_ok.mp h
    cases hvalue
    exact .inr ⟨[_], more, true, [.anywhere], all, rfl, .anywhere, hall, rfl⟩
  · obtain ⟨⟨all, rest⟩, hall, hvalue⟩ := bind_eq_ok.mp h
    cases hvalue
    exact .inr ⟨[], ts, false, [], all, rfl, .relative, hall, rfl⟩

theorem startsStep_of_steps (h : steps stop inner before ts = .ok (all, rest)) :
    startsStep ts = true := by
  obtain ⟨⟨first, ts'⟩, hfirst, -⟩ := bind_eq_ok.mp h
  exact startsStep_of_step hfirst

/-- After a path that has steps the loop stands where it can go on with more steps. -/
theorem path_arrives (hinner : InnerRereads inner) {left : List Located} {absolute : Bool}
    (hleft : PathStart (left.map (·.token)) absolute before)
    (h : steps stop inner before ts = .ok (all, rest)) :
    eat? .slash rest = none ∧ eat? .doubleSlash rest = none ∧
      ∃ used, EndsIn NoSlash used ∧ left ++ ts = used ++ rest ∧
        ∀ stop depth, used.length ≤ depth → ∀ used' more,
          used'.map (·.token) = used.map (·.token) → Resumes AfterStep rest more →
            ∃ limit, more.length ≤ limit ∧ path stop (expression stop depth) (used' ++ more) =
              repeatWith (stepNext stop (expression stop depth)) limit all more >>= fun x =>
                .ok (.path absolute x.1, x.2) := by
  have hstarts := startsStep_of_steps h
  obtain ⟨hslash, hdouble, right, hright, rfl, harrives⟩ := steps_arrives hinner h
  refine ⟨hslash, hdouble, left ++ right, hright.append left, (List.append_assoc ..).symm, ?_⟩
  intro stop depth hdepth used' more htokens hmore
  rw [List.length_append] at hdepth
  rw [List.map_append] at htokens
  obtain ⟨left', right', rfl, hleft', hright'⟩ := List.map_eq_append_iff.mp htokens
  have hstarts' : startsStep (right' ++ more) = true := by
    have hresumes : Resumes (fun _ => False) (right ++ rest) (right' ++ more) :=
      hright.resumes hright'
    exact hresumes.of_looks (looks_startsStep true) nofun hstarts
  obtain ⟨limit, hlimit, heq⟩ := harrives stop depth (by omega) right' more hright' hmore
  refine ⟨limit, hlimit, ?_⟩
  rw [List.append_assoc, PathStart.path_eq (hleft' ▸ hleft) hstarts', heq]

/-- What does not go on with a path. -/
structure AfterPath (more : List Located) : Prop where
  step : AfterStep more
  slash : eat? .slash more = none
  doubleSlash : eat? .doubleSlash more = none
  starts : startsStep more = false

theorem path_rereads (hinner : InnerRereads inner) (stop : Nat) :
    Rereads (fun _ => True) AfterPath (path stop inner)
      fun stop depth => path stop (expression stop depth) := by
  intro found e rest h
  obtain ⟨offset, rfl, hstarts, rfl⟩ | ⟨left, ts, absolute, before, all, rfl, hleft, hall, rfl⟩ :=
    path_cases h
  · refine ⟨[⟨.symbol .slash, offset⟩], endsIn_singleton trivial, rfl, ?_⟩
    intro stop depth _ used' more htokens hmore
    obtain ⟨offset', rfl⟩ := exists_of_same_singleton htokens
    have hstarts' : startsStep more = false :=
      hmore.of_looks (looks_startsStep false) (fun _ h => h.starts) hstarts
    change path stop (expression stop depth) _ = _
    rw [List.singleton_append, path, if_neg (Bool.eq_false_iff.mp hstarts')]
  · obtain ⟨hslash, hdouble, used, hused, hfound, harrives⟩ := path_arrives hinner hleft hall
    refine ⟨used, hused.mono fun _ _ => trivial, hfound, ?_⟩
    intro stop depth hdepth used' more htokens hmore
    obtain ⟨limit, -, heq⟩ := harrives stop depth hdepth used' more htokens
      (hmore.mono fun _ h => h.step)
    have hslash' : eat? .slash more = none :=
      hmore.of_looks (looks_eat?_eq_none _) (fun _ h => h.slash) hslash
    have hdouble' : eat? .doubleSlash more = none :=
      hmore.of_looks (looks_eat?_eq_none _) (fun _ h => h.doubleSlash) hdouble
    change path stop (expression stop depth) _ = _
    rw [heq, repeatWith_stop (stepNext_eq_none_iff.mpr ⟨hslash', hdouble'⟩), ok_bind]

end Parser

end UiTree.Query
