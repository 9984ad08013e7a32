import UiTree.Proofs.Query.Concatenation
import UiTree.Proofs.Query.PositionFree
import UiTree.Proofs.Query.RereadingExpressions
import UiTree.Proofs.Query.RoundTrip

/-!
# Successive predicates and conjunctions

A step numbers the nodes anew for each of its predicates, so that a predicate that asks for
positions depends on those before it. Two successive predicates that do not observe where a node
stands keep the nodes that pass both. They can be written in either order, and as one predicate that
is the conjunction of the two, between any other predicates.
-/

namespace UiTree.Query

variable {d : Document} {a b : Expr} {before middle middle' after : List Expr} {axis : Axis}
  {test : NodeTest} {n : DocNode} {ns : List DocNode} {c : Context}

/-! ### Evaluating a conjunction -/

/-- A conjunction holds if both operands do. -/
theorem eval_and {v w : Value} (hv : eval d a c = .ok v) (hw : eval d b c = .ok w) :
    eval d (.binary .and a b) c = .ok (.truth (v.toTruth && w.toTruth)) := by
  simp only [eval, hv, hw, ok_bind]
  cases v.toTruth <;> rfl

theorem Expr.Steady.and (ha : a.Steady d) (hb : b.Steady d) (hsa : a.Sound d) (hsb : b.Sound d) :
    (Expr.binary .and a b).Steady d := by
  refine ⟨fun n hn position size position' size' => ?_, fun c hc x hx => ?_⟩
  · simp only [eval, ha.same n hn position size position' size',
      hb.same n hn position size position' size']
  · obtain ⟨v, hv, -⟩ := hsa c hc
    obtain ⟨w, hw, -⟩ := hsb c hc
    cases (eval_and hv hw).symm.trans hx

theorem Expr.Sound.holds_and (hsa : a.Sound d) (hsb : b.Sound d) (hn : d.Has n) :
    (Expr.binary .and a b).holds d n = (a.holds d n && b.holds d n) := by
  obtain ⟨v, hv, -⟩ := hsa ⟨n, 1, 1⟩ hn
  obtain ⟨w, hw, -⟩ := hsb ⟨n, 1, 1⟩ hn
  rw [Expr.holds, Expr.holds, Expr.holds, eval_and hv hw, hv, hw]
  rfl

/-- Predicates go on with the nodes that the predicates before them have left. -/
theorem evalPredicates_append (before after : List Expr) (ns : List DocNode) :
    evalPredicates d (before ++ after) ns =
      evalPredicates d before ns >>= evalPredicates d after := by
  induction before generalizing ns with
  | nil => rw [List.nil_append, evalPredicates, ok_bind]
  | cons p ps ih => simp only [List.cons_append, evalPredicates, ih, bind_assoc]

/-- Predicates that keep the same nodes of every list can stand for each other between others. -/
theorem evalPredicates_congr (hbefore : ∀ e ∈ before, e.Sound d) (hns : ∀ n ∈ ns, d.Has n)
    (h : ∀ ms, (∀ m ∈ ms, d.Has m) → evalPredicates d middle ms = evalPredicates d middle' ms) :
    evalPredicates d (before ++ middle ++ after) ns =
      evalPredicates d (before ++ middle' ++ after) ns := by
  obtain ⟨ms, hms, hkept⟩ := evalPredicates_returns hbefore hns
  have hsame := h ms fun m hm => hns m (hkept.subset hm)
  simp only [evalPredicates_append, hms, ok_bind, hsame]

/-- Predicates that do not observe where a node stands are known by the nodes at which all of them
hold. -/
theorem evalPredicates_eq_of_all (h : ∀ e ∈ middle, e.Steady d ∧ e.Sound d)
    (h' : ∀ e ∈ middle', e.Steady d ∧ e.Sound d)
    (hall : ∀ m, d.Has m → (middle.all fun e => e.holds d m) = middle'.all fun e => e.holds d m)
    (hns : ∀ n ∈ ns, d.Has n) : evalPredicates d middle ns = evalPredicates d middle' ns := by
  rw [evalPredicates_eq_filter h hns, evalPredicates_eq_filter h' hns]
  exact congrArg _ (List.filter_congr fun m hm => hall m (hns m hm))

/-- A step selects the same from a node with other predicates that hold at the same nodes, if none
of those that are exchanged observes where a node stands. -/
theorem evalStep_congr (hd : d.Closed) (hbefore : ∀ e ∈ before, e.Sound d)
    (h : ∀ e ∈ middle, e.Steady d ∧ e.Sound d) (h' : ∀ e ∈ middle', e.Steady d ∧ e.Sound d)
    (hall : ∀ m, d.Has m → (middle.all fun e => e.holds d m) = middle'.all fun e => e.holds d m)
    (hn : d.Has n) :
    evalStep d (.mk axis test (before ++ middle ++ after)) n =
      evalStep d (.mk axis test (before ++ middle' ++ after)) n := by
  have hlisted : ∀ m ∈ (d.along axis n).filter (d.passes axis test), d.Has m :=
    fun m hm => Document.along_has hd axis hn m (List.mem_of_mem_filter hm)
  rw [evalStep, evalStep]
  exact evalPredicates_congr hbefore hlisted fun ms hms => evalPredicates_eq_of_all h h' hall hms

/-! ### Writing a conjunction -/

/-- Parentheses around a text have its tokens between them. -/
theorem HasTokens.paren {cs : List Char} {ts : List Token} (h : HasTokens cs ts) :
    HasTokens (['('] ++ (cs ++ [')'])) (.symbol .openParen :: (ts ++ [.symbol .closeParen])) := by
  have hsets : SetsOff ')' := ⟨by decide, by decide, by decide⟩
  have hclose : HasTokens ([')'] ++ []) [.symbol .closeParen] :=
    HasTokens.nil.cons (.symbol .closeParen) fun _ _ => id
  have hinside : HasTokens (cs ++ [')']) (ts ++ [.symbol .closeParen]) :=
    h.append hclose (by rintro _ ⟨⟩; exact hsets) nofun
  exact hinside.cons (.symbol .openParen) fun _ _ => id

/-- Two texts that are parsed, in parentheses and with `and` between them, are parsed as the
conjunction. -/
theorem parse_and {text text' : String} (ha : parse text = .ok a) (hb : parse text' = .ok b) :
    parse ("(" ++ text ++ ") and (" ++ text' ++ ")") = .ok (.binary .and a b) := by
  obtain ⟨ts, hts, hspelt⟩ := exists_spelt_of_parse ha
  obtain ⟨us, hus, hspelt'⟩ := exists_spelt_of_parse hb
  have hname : IsName "and".toList := isName_of_isNameText (by decide)
  have hand := ((hasTokens_of_tokens hus).paren.space.cons (spelled_name hname)
    (name_endsBefore (by decide) _ _)).space
  have hwhole :=
    (hasTokens_of_tokens hts).paren.append hand (by rintro _ ⟨⟩; exact setsOff_space) nofun
  have htext : ("(" ++ text ++ ") and (" ++ text' ++ ")").toList =
      (['('] ++ (text.toList ++ [')'])) ++
        ([' '] ++ ("and".toList ++ ([' '] ++ (['('] ++ (text'.toList ++ [')']))))) := by
    simp
  rw [← htext] at hwhole
  refine parse_of_hasTokens hwhole ?_
  have hleft := (hspelt.paren.mono (Nat.zero_le 3)).leads
  have hop : Operator.and.tier = 2 + 2 := rfl
  exact (hleft.binary hop (hspelt'.paren.mono (Nat.zero_le 3))).spelt.succ

/-- Whatever predicates are parsed from two texts, the two texts in parentheses with `and` between
them are parsed as their conjunction. In every capture where neither predicate observes the place of
a node among others, each step of an accepted query selects the same from every node with the two
predicates one after the other, in the other order, and with their conjunction, wherever these stand
among the predicates of the step. -/
theorem evalStep_and {text text' : String} (hs : (Step.mk axis test (before ++ after)).Accepted)
    (ha : parse text = .ok a) (hb : parse text' = .ok b) :
    parse ("(" ++ text ++ ") and (" ++ text' ++ ")") = .ok (.binary .and a b) ∧
    ∀ (request : CaptureRequest) (raw : RawNode) (time serial : Nat),
      let d := ((request.snapshot time raw).document serial).1
      a.Steady d → b.Steady d → ∀ n, d.Has n → ∃ ns,
        evalStep d (.mk axis test (before ++ [a, b] ++ after)) n = .ok ns ∧
          evalStep d (.mk axis test (before ++ [b, a] ++ after)) n = .ok ns ∧
            evalStep d (.mk axis test (before ++ [.binary .and a b] ++ after)) n = .ok ns := by
  refine ⟨parse_and ha hb, fun request raw time serial => ?_⟩
  intro d hsteady hsteady' n hn
  have hd : d.Closed := snapshot_document_closed request raw time serial
  have hsa : a.Sound d := (wellFormed_of_parse ha).sound hd
  have hsb : b.Sound d := (wellFormed_of_parse hb).sound hd
  have hothers : ∀ e ∈ before ++ after, e.Sound d := fun e he => (hs.wellFormed.2 e he).sound hd
  obtain ⟨hbefore, hafter⟩ := List.forall_mem_append.mp hothers
  have hab : ∀ e ∈ [a, b], e.Steady d ∧ e.Sound d := by
    simp only [List.forall_mem_cons]
    exact ⟨⟨hsteady, hsa⟩, ⟨hsteady', hsb⟩, fun _ he => absurd he List.not_mem_nil⟩
  have hba : ∀ e ∈ [b, a], e.Steady d ∧ e.Sound d := by
    simp only [List.forall_mem_cons]
    exact ⟨⟨hsteady', hsb⟩, ⟨hsteady, hsa⟩, fun _ he => absurd he List.not_mem_nil⟩
  have hand : ∀ e ∈ [Expr.binary .and a b], e.Steady d ∧ e.Sound d := by
    refine List.forall_mem_singleton.mpr ⟨hsteady.and hsteady' hsa hsb, ?_⟩
    exact (Expr.WellFormed.binary (wellFormed_of_parse ha) (wellFormed_of_parse hb)).sound hd
  have hall : ∀ e ∈ before ++ [a, b] ++ after, e.Sound d := by
    refine List.forall_mem_append.mpr ⟨List.forall_mem_append.mpr ⟨hbefore, ?_⟩, hafter⟩
    exact fun e he => (hab e he).2
  obtain ⟨ns, hns, -⟩ :=
    evalStep_returns hd (s := .mk axis test (before ++ [a, b] ++ after)) hall hn
  refine ⟨ns, hns, ?_, ?_⟩
  · rw [← hns]
    refine evalStep_congr hd hbefore hba hab (fun m _ => ?_) hn
    simp only [List.all_cons, List.all_nil, Bool.and_true]
    exact Bool.and_comm _ _
  · rw [← hns]
    refine evalStep_congr hd hbefore hand hab (fun m hm => ?_) hn
    simp only [List.all_cons, List.all_nil, Bool.and_true, hsa.holds_and hsb hm]

/-- Between a predicate that asks for the position and one that asks for the last node stand two
that do not, though one of them asks for the last node inside. -/
theorem evalStep_and_window :
    let d := ((CaptureRequest.snapshot {} 0 window).document 0).1
    let buttons := Step.mk .child (.element (some .button))
    ∃ first last a b, (buttons ([first] ++ [last])).Accepted ∧
      parse "@label" = .ok a ∧ parse "../Button[last()]" = .ok b ∧ a.Steady d ∧ b.Steady d ∧
      parse ("(" ++ "@label" ++ ") and (" ++ "../Button[last()]" ++ ")") = .ok (.binary .and a b) ∧
      d.Has (.element 0) ∧ ∃ ns,
        evalStep d (buttons ([first] ++ [a, b] ++ [last])) (.element 0) = .ok ns ∧
          evalStep d (buttons ([first] ++ [b, a] ++ [last])) (.element 0) = .ok ns ∧
            evalStep d (buttons ([first] ++ [.binary .and a b] ++ [last])) (.element 0) =
              .ok ns := by
  intro d buttons
  obtain ⟨q, absolute, steps, hq, hexpr, hshape⟩ := exists_path_of_compile
    (p := fun _ steps => steps.length == 1 && steps.all fun s =>
      s.axis == .child && s.test == .element (some .button) && s.predicates.length == 2)
    (by decide +kernel : (compile "Button[position() < 3][last()]").toOption.any _ = true)
  simp only [Bool.and_eq_true, beq_iff_eq] at hshape
  obtain ⟨hone, hstep⟩ := hshape
  obtain ⟨⟨axis, test, predicates⟩, rfl⟩ := List.length_eq_one_iff.mp hone
  simp only [List.all_cons, List.all_nil, Bool.and_true, Bool.and_eq_true, beq_iff_eq] at hstep
  obtain ⟨⟨rfl, rfl⟩, htwo⟩ := hstep
  obtain ⟨first, last, rfl⟩ := List.length_eq_two.mp htwo
  have hs : (buttons ([first] ++ [last])).Accepted :=
    ⟨_, q, hq, hexpr ▸ .step (List.mem_singleton_self _)⟩
  have hpath (text : String) (h : (parse text).toOption.any (fun e => e.path?.isSome) = true) :
      ∃ e : Expr, parse text = .ok e ∧ e.Positionless := by
    obtain ⟨e, he, hsome⟩ := exists_eq_ok_of_toOption_any h
    obtain ⟨⟨absolute, steps⟩, hpath⟩ := Option.isSome_iff_exists.mp hsome
    obtain rfl := Expr.eq_path_of_path? hpath
    exact ⟨_, he, .path, by rintro ⟨⟩⟩
  obtain ⟨a, ha, hfree⟩ := hpath "@label" (by decide +kernel)
  obtain ⟨b, hb, hfree'⟩ := hpath "../Button[last()]" (by decide +kernel)
  obtain ⟨hparse, hsame⟩ := evalStep_and hs ha hb
  have hsize : 0 < d.size := by decide +kernel
  have hn : d.Has (.element 0) := hsize
  exact ⟨first, last, a, b, hs, ha, hb, hfree.steady d, hfree'.steady d, hparse, hn,
    hsame {} window 0 0 (hfree.steady d) (hfree'.steady d) _ hn⟩

end UiTree.Query
