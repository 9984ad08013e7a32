import UiTree.Session.Locate
import UiTree.Proofs.Query.Footprint

/-!
# Locators see the attributes they read

A predicate compares texts of single nodes, and a query evaluates on the document of a capture. Both
select the same positions in every capture of a tree that holds what they read, whatever else it
holds.
-/

namespace UiTree

variable {s : AttributeSet}

theorem Condition.holds_restrict {c : Condition} (h : c.subject ∈ s) (n : SnapshotNode) :
    c.holds (n.restrict s) = c.holds n := by
  simp only [holds, SnapshotNode.comparedText?_restrict h]

namespace Predicate

theorem mem_attributes {p : Predicate} {a : Attribute} :
    a ∈ p.attributes ↔ ∃ clause ∈ p.clauses, ∃ c ∈ clause, c.subject = a := by
  simp [attributes]

theorem holds_restrict {p : Predicate} (h : ∀ a, a ∈ p.attributes → a ∈ s) (n : SnapshotNode) :
    p.holds (n.restrict s) = p.holds n := by
  have hclause (clause : List Condition) (hclause : clause ∈ p.clauses) :
      clause.all (·.holds (n.restrict s)) = clause.all (·.holds n) := by
    rw [Bool.eq_iff_iff, List.all_eq_true, List.all_eq_true]
    apply forall₂_congr
    intro c hc
    rw [Condition.holds_restrict (h _ (mem_attributes.mpr ⟨clause, hclause, c, hc, rfl⟩))]
  rw [holds, holds, Bool.eq_iff_iff, List.any_eq_true, List.any_eq_true]
  refine exists_congr fun clause => and_congr_right fun hmem => ?_
  rw [hclause clause hmem]

/-- A predicate selects the same positions of two snapshots whose nodes are the same within the
attributes it reads. -/
theorem find_congr {p : Predicate} {t t' : Snapshot}
    (hnodes : t.nodes.map (·.restrict p.attributes) = t'.nodes.map (·.restrict p.attributes)) :
    p.find t = p.find t' := by
  have hfind (t : Snapshot) : p.find t =
      (t.nodes.map (·.restrict p.attributes)).toList.zipIdx.filterMap fun x =>
        if p.holds x.1 then some x.2 else none := by
    rw [find, Snapshot.positions, Array.toList_map, List.zipIdx_map, List.filterMap_map]
    apply List.filterMap_congr
    intro x _
    simp [holds_restrict fun _ h => h]
  rw [hfind t, hfind t', hnodes]

end Predicate

/-- Captures of one tree with the same depth have the same nodes within the attributes that both of
them hold. -/
theorem CaptureRequest.snapshot_nodes_agree {q q' : CaptureRequest}
    (hdepth : q.maxDepth = q'.maxDepth) (h : ∀ a, a ∈ s → a ∈ q.attributes)
    (h' : ∀ a, a ∈ s → a ∈ q'.attributes) (time time' : Nat) (raw : RawNode) :
    (q.snapshot time raw).nodes.map (·.restrict s) =
      (q'.snapshot time' raw).nodes.map (·.restrict s) := by
  let narrow : CaptureRequest := { q with attributes := s }
  have hnarrow : narrow.maxDepth = q.maxDepth := rfl
  exact (snapshot_nodes_restrict hnarrow h 0 time raw).symm.trans
    (snapshot_nodes_restrict (hnarrow.trans hdepth) h' 0 time' raw)

namespace Locator

/-- What a locator reads is captured for it. -/
theorem mem_attributes_of_mem_reads {l : Locator} {a : Attribute} (h : a ∈ l.reads) :
    a ∈ l.attributes := by
  simp [attributes, h]

theorem exists_compile_of_ofQuery {text : String} {l : Locator} (h : ofQuery text = .ok l) :
    ∃ q, Query.compile text = .ok q ∧ l = .query q := by
  rw [ofQuery] at h
  cases hq : Query.compile text with
  | ok q =>
      rw [hq] at h
      cases h
      exact ⟨q, rfl, rfl⟩
  | error e =>
      rw [hq] at h
      cases h

theorem exists_parse_of_ofPredicate {text : String} {l : Locator} (h : ofPredicate text = .ok l) :
    ∃ p, l = .predicate p := by
  rw [ofPredicate] at h
  cases hp : Predicate.parse text with
  | ok p =>
      rw [hp] at h
      cases h
      exact ⟨p, rfl⟩
  | error e =>
      rw [hp] at h
      cases h

theorem select_predicate (p : Predicate) (t : Snapshot) :
    (predicate p).select t = .ok (p.find t) := rfl

/-- A query that compiled selects the same positions of two snapshots whose nodes are the same
within the attributes it reads. -/
theorem select_query_congr {text : String} {q : Query.Compiled} (h : Query.compile text = .ok q)
    {t t' : Snapshot}
    (hnodes : t.nodes.map (·.restrict q.attributes) = t'.nodes.map (·.restrict q.attributes)) :
    (query q).select t = (query q).select t' := by
  have heval := Query.evaluate_congr h hnodes 0 0
  simp only [select, heval]

theorem select_query_returns {text : String} {q : Query.Compiled}
    (h : Query.compile text = .ok q) (request : CaptureRequest) (time : Nat) (raw : RawNode) :
    ∃ positions, (query q).select (request.snapshot time raw) = .ok positions := by
  obtain ⟨hwf, hselects, -⟩ := Query.compile_eq_ok h
  obtain ⟨positions, heval, -⟩ := Query.evaluate_returns hwf hselects
    (Query.snapshot_document_closed request raw time 0)
  exact ⟨positions, by simp only [select, heval]⟩

/-- What a locator reads is captured for it. Whatever attributes are captured besides those that it
reads, it selects the same positions as in a capture with all attributes. -/
theorem select_snapshot_all {text : String} {l : Locator}
    (hl : ofQuery text = .ok l ∨ ofPredicate text = .ok l) :
    (∀ a, a ∈ l.reads → a ∈ l.attributes) ∧
      ∀ request : CaptureRequest, (∀ a, a ∈ l.reads → a ∈ request.attributes) →
        ∀ (raw : RawNode) (time time' : Nat), ∃ positions,
          l.select (request.snapshot time raw) = .ok positions ∧
            l.select (({ request with attributes := .all } : CaptureRequest).snapshot time' raw) =
              .ok positions := by
  refine ⟨fun a => mem_attributes_of_mem_reads, ?_⟩
  intro request hreads raw time time'
  let wide : CaptureRequest := { request with attributes := .all }
  have hdepth : request.maxDepth = wide.maxDepth := rfl
  have hnodes := CaptureRequest.snapshot_nodes_agree hdepth hreads
    (fun a _ => AttributeSet.mem_all a) time time' raw
  obtain hl | hl := hl
  · obtain ⟨q, hq, rfl⟩ := exists_compile_of_ofQuery hl
    obtain ⟨positions, hselect⟩ := select_query_returns hq request time raw
    exact ⟨positions, hselect, select_query_congr hq hnodes ▸ hselect⟩
  · obtain ⟨p, rfl⟩ := exists_parse_of_ofPredicate hl
    refine ⟨_, select_predicate p _, ?_⟩
    rw [select_predicate, Predicate.find_congr hnodes]

/-- This query reads names only inside a call inside a predicate, and a capture of a window with
types, names and labels is enough for it. -/
theorem select_snapshot_all_window :
    let request : CaptureRequest := { attributes := .ofList [.type, .name, .label] }
    ∃ l, ofQuery "//*[@label = 'Login']/.. | //button[not(@name)]" = .ok l ∧
      (∀ a, a ∈ l.reads → a ∈ request.attributes) ∧
        ∃ positions, l.select (request.snapshot 0 Query.window) = .ok positions ∧
          l.select (({ request with attributes := .all } : CaptureRequest).snapshot 5
            Query.window) = .ok positions := by
  intro request
  have hchecked : ∃ l, ofQuery "//*[@label = 'Login']/.. | //button[not(@name)]" = .ok l ∧
      Attribute.all.all (fun a => decide (a ∈ l.reads → a ∈ request.attributes)) = true := by
    apply exists_eq_ok_of_toOption_any
    decide +kernel
  obtain ⟨l, hl, hall⟩ := hchecked
  have hreads (a : Attribute) : a ∈ l.reads → a ∈ request.attributes :=
    of_decide_eq_true (List.all_eq_true.mp hall a a.mem_all)
  exact ⟨l, hl, hreads, (select_snapshot_all (.inl hl)).2 request hreads Query.window 0 5⟩

end Locator

end UiTree
