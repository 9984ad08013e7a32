import UiTree.Proofs.Query.Axes
import UiTree.Proofs.Query.Selection

/-!
# Sets of nodes

A set of nodes is a list in document order that has each node once: the root comes first, then each
element followed by its attributes. Every set that arises while an expression is evaluated is of
this kind, be it the value of an expression inside another one or what some steps of a path have
selected before the next step. There is one such list with given members, and the text of a set is
that of the node that stands first in the document.

## Implementation notes

The order is described here without the pairs of numbers that nodes are compared by.
-/

namespace UiTree.Query

namespace DocNode

/-- One node stands before another in document order. -/
inductive Precedes : DocNode → DocNode → Prop where
  | root {m : DocNode} (hm : m ≠ .root) : Precedes .root m
  | element {i k : Nat} : Precedes (.element i) (.attributeAt i k)
  | attributeAt {i k l : Nat} (h : k < l) : Precedes (.attributeAt i k) (.attributeAt i l)
  | owner {n m : DocNode} {i j : Nat} (hn : n.owner? = some i) (hm : m.owner? = some j)
      (h : i < j) : Precedes n m

variable {a b c : DocNode} {as bs ns : List DocNode}

theorem before_iff_precedes : a.before b = true ↔ a.Precedes b := by
  have hbefore : a.before b = true ↔
      a.key.1 < b.key.1 ∨ a.key.1 = b.key.1 ∧ a.key.2 < b.key.2 := by
    simp [before]
  rw [hbefore]
  constructor
  · intro h
    cases a with
    | root =>
        refine .root ?_
        rintro rfl
        simp at h
    | element i =>
        cases b with
        | root => simp [key] at h
        | element j =>
            simp only [key, Nat.add_lt_add_iff_right, Nat.lt_irrefl, and_false, or_false] at h
            exact .owner rfl rfl h
        | attributeAt j k =>
            simp only [key, Nat.add_lt_add_iff_right, Nat.add_right_cancel_iff] at h
            obtain h | ⟨rfl, -⟩ := h
            · exact .owner rfl rfl h
            · exact .element
    | attributeAt i k =>
        cases b with
        | root => simp [key] at h
        | element j =>
            simp only [key, Nat.add_lt_add_iff_right, Nat.not_lt_zero, and_false, or_false] at h
            exact .owner rfl rfl h
        | attributeAt j l =>
            simp only [key, Nat.add_lt_add_iff_right, Nat.add_right_cancel_iff] at h
            obtain h | ⟨rfl, h⟩ := h
            · exact .owner rfl rfl h
            · exact .attributeAt h
  · have howner {n : DocNode} {i : Nat} (hn : n.owner? = some i) : n.key.1 = i + 1 := by
      cases n <;> cases hn <;> rfl
    rintro (hb | _ | h | ⟨ha, hb, h⟩)
    · cases b with
      | root => exact absurd rfl hb
      | element i => exact .inl (Nat.succ_pos i)
      | attributeAt i k => exact .inl (Nat.succ_pos i)
    · exact .inr ⟨rfl, Nat.succ_pos _⟩
    · exact .inr ⟨rfl, Nat.succ_lt_succ h⟩
    · rw [howner ha, howner hb]
      exact .inl (Nat.succ_lt_succ h)

theorem before_trans (a b c : DocNode) (hab : a.before b = true) (hbc : b.before c = true) :
    a.before c = true := by
  simp only [before, Bool.or_eq_true, Bool.and_eq_true, decide_eq_true_eq, beq_iff_eq] at hab hbc ⊢
  omega

theorem not_precedes_self : ¬ a.Precedes a := by
  rw [← before_iff_precedes]
  simp [before]

theorem Precedes.trans (hab : a.Precedes b) (hbc : b.Precedes c) : a.Precedes c :=
  before_iff_precedes.mp
    (before_trans a b c (before_iff_precedes.mpr hab) (before_iff_precedes.mpr hbc))

instance : Std.Irrefl Precedes :=
  ⟨fun _ => not_precedes_self⟩

instance : Std.Antisymm Precedes :=
  ⟨fun _ _ hab hba => absurd (hab.trans hba) not_precedes_self⟩

/-- Some nodes stand in document order, each once. -/
def Ordered (ns : List DocNode) : Prop :=
  ns.Pairwise Precedes

theorem inOrder_ordered (ns : List DocNode) : Ordered (inOrder ns) :=
  (Ascending.pairwise_ofList separates_before before_trans ns).imp before_iff_precedes.mp

/-- A set of nodes is known by its members. -/
theorem Ordered.eq_of_mem_iff (ha : Ordered as) (hb : Ordered bs) (h : ∀ m, m ∈ as ↔ m ∈ bs) :
    as = bs :=
  List.Pairwise.eq_of_mem_iff ha hb h

theorem inOrder_congr (h : ∀ m, m ∈ as ↔ m ∈ bs) : inOrder as = inOrder bs :=
  (inOrder_ordered as).eq_of_mem_iff (inOrder_ordered bs) fun m => by
    rw [mem_inOrder, mem_inOrder, h]

theorem Ordered.inOrder_eq (h : Ordered ns) : inOrder ns = ns :=
  (inOrder_ordered ns).eq_of_mem_iff h fun _ => mem_inOrder

end DocNode

open DocNode (Ordered)

variable {d : Document} {e : Expr} {c : Context} {ns ms : List DocNode}

/-- Steps make a set of nodes of a set of nodes. -/
theorem evalSteps_ordered {steps : List Step} (h : evalSteps d steps ns = .ok ms)
    (hns : Ordered ns) : Ordered ms := by
  induction steps generalizing ns with
  | nil =>
      rw [evalSteps] at h
      cases h
      exact hns
  | cons s ss ih =>
      rw [evalSteps] at h
      obtain ⟨found, -, h⟩ := bind_eq_ok.mp h
      exact ih h (DocNode.inOrder_ordered found)

theorem ordered_singleton (n : DocNode) : Ordered [n] :=
  List.pairwise_singleton _ n

/-- The value of an expression, if it is a set of nodes, is in document order. -/
theorem eval_ordered (h : eval d e c = .ok (.nodes ns)) : Ordered ns := by
  have hkind : Kind.nodes = e.kind := kind_of_eval h
  cases e with
  | union parts =>
      rw [eval] at h
      obtain ⟨found, -, h⟩ := bind_eq_ok.mp h
      cases h
      exact DocNode.inOrder_ordered found
  | path absolute steps =>
      rw [eval] at h
      obtain ⟨found, hfound, h⟩ := bind_eq_ok.mp h
      cases h
      exact evalSteps_ordered hfound (ordered_singleton _)
  | call f arguments => cases f <;> cases hkind
  | binary | literal | number => cases hkind

/-- Evaluating an expression in a context includes evaluating another one, inside it, in a context
of its own. A predicate is evaluated at each node that the predicates before it have left. -/
inductive Reaches (d : Document) : Expr → Context → Expr → Context → Prop where
  | refl {e : Expr} {c : Context} : Reaches d e c e c
  | left {op : Operator} {a b e' : Expr} {c c' : Context} (h : Reaches d a c e' c') :
      Reaches d (.binary op a b) c e' c'
  | right {op : Operator} {a b e' : Expr} {c c' : Context} (h : Reaches d b c e' c') :
      Reaches d (.binary op a b) c e' c'
  | part {parts : List Expr} {e e' : Expr} {c c' : Context} (he : e ∈ parts)
      (h : Reaches d e c e' c') : Reaches d (.union parts) c e' c'
  | argument {f : Function} {arguments : List Expr} {e e' : Expr} {c c' : Context}
      (he : e ∈ arguments) (h : Reaches d e c e' c') : Reaches d (.call f arguments) c e' c'
  | predicate {absolute : Bool} {before after : List Step} {axis : Axis} {test : NodeTest}
      {earlier later : List Expr} {p e' : Expr} {c c' : Context} {ns ms : List DocNode}
      {n m : DocNode} {k : Nat}
      (hns : evalSteps d before [if absolute then .root else c.node] = .ok ns) (hn : n ∈ ns)
      (hms : evalPredicates d earlier ((d.along axis n).filter (d.passes axis test)) = .ok ms)
      (hm : ms[k]? = some m) (h : Reaches d p ⟨m, k + 1, ms.length⟩ e' c') :
      Reaches d (.path absolute (before ++ .mk axis test (earlier ++ p :: later) :: after)) c e' c'

/-- A set of nodes arises while an expression is evaluated in a context: it is the value of an
expression inside it, or what the first steps of a path inside it select. -/
inductive Arises (d : Document) (e : Expr) (c : Context) (ns : List DocNode) : Prop where
  | value {e' : Expr} {c' : Context} (h : Reaches d e c e' c')
      (hns : eval d e' c' = .ok (.nodes ns))
  | selected {absolute : Bool} {before after : List Step} {c' : Context}
      (h : Reaches d e c (.path absolute (before ++ after)) c')
      (hns : evalSteps d before [if absolute then .root else c'.node] = .ok ns)

theorem Arises.ordered (h : Arises d e c ns) : Ordered ns := by
  cases h with
  | value _ hns => exact eval_ordered hns
  | selected _ hns => exact evalSteps_ordered hns (ordered_singleton _)

/-- The text of a set is that of the node that stands before all others. -/
theorem toText_nodes (h : Ordered ns) :
    ns = [] ∧ (Value.nodes ns).toText d = "" ∨
      ∃ n ∈ ns, (∀ m ∈ ns, m = n ∨ n.Precedes m) ∧ (Value.nodes ns).toText d = d.textOf n := by
  cases ns with
  | nil => exact .inl ⟨rfl, rfl⟩
  | cons n rest =>
      refine .inr ⟨n, List.mem_cons_self, ?_, rfl⟩
      intro m hm
      exact (List.mem_cons.mp hm).imp_right ((List.pairwise_cons.mp h).1 m)

/-- Whatever text was compiled, and wherever the query is evaluated, every set of nodes that arises
has its nodes in document order, each once, so its text is that of the node that stands first. The
query selects, in ascending order, the elements that its value contains or has an attribute of. -/
theorem compile_ordered {text : String} {q : Compiled} (h : compile text = .ok q) :
    (∀ d c ns, Arises d q.expr c ns →
      Ordered ns ∧ (ns = [] ∧ (Value.nodes ns).toText d = "" ∨
        ∃ n ∈ ns, (∀ m ∈ ns, m = n ∨ n.Precedes m) ∧
          (Value.nodes ns).toText d = d.textOf n)) ∧
    ∀ (request : CaptureRequest) (raw : RawNode) (time serial : Nat),
      let s := request.snapshot time raw
      let (d, x) := s.document serial
      ∃ ns positions, eval d q.expr .start = .ok (.nodes ns) ∧ q.evaluate d x = .ok positions ∧
        positions.Pairwise (· < ·) ∧ (∀ p ∈ positions, p < s.size) ∧
          ∀ p, p ∈ positions ↔ ∃ n ∈ ns, n.owner? = some p := by
  obtain ⟨hwf, hselects, -⟩ := compile_eq_ok h
  refine ⟨fun d c ns harises => ⟨harises.ordered, toText_nodes harises.ordered⟩, ?_⟩
  intro request raw time serial s
  have hclosed := snapshot_document_closed request raw time serial
  obtain ⟨v, hv, hfits⟩ := hwf.sound hclosed .start trivial
  obtain ⟨ns, rfl⟩ := hfits.nodes hselects
  refine ⟨ns, _, hv, evaluate_of_eval hv hfits.within, Ascending.pairwise_ofList_lt _, ?_, ?_⟩
  · exact fun p hp => lt_size_of_mem_owners hfits.within hp
  · exact fun p => DocNode.mem_owners

/-- The name and the label of a button stand in the document in this order, whatever the order in
the union. -/
theorem compile_ordered_window : ∃ q,
    compile "//Button/@label | //Button/@name" = .ok q ∧
      ∀ d c ns, Arises d q.expr c ns → Ordered ns := by
  obtain ⟨q, hq⟩ := exists_eq_ok_of_isOk (x := compile "//Button/@label | //Button/@name")
    (by decide +kernel)
  exact ⟨q, hq, fun d c ns harises => ((compile_ordered hq).1 d c ns harises).1⟩

end UiTree.Query
