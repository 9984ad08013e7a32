import UiTree.Document.PageSource
import UiTree.Proofs.Snapshot.Restriction

/-!
# Leaving attributes out of page source

An attribute that has to be fetched can be left out when the tree is captured or when it is written:
the page source is the same. The type is the exception, since it names the element, and the place
among the siblings is written even if it was not captured.
-/

namespace UiTree

variable {E : AttributeSet} {levels depth i : Nat} {d d' : Document} {e : Element}
  {n : SnapshotNode}

/-- Restriction takes away the texts of the other attributes, unless they are not fetched. -/
theorem SnapshotNode.text?_restrict_eq (s : AttributeSet) (n : SnapshotNode)
    (a : DocumentAttribute) :
    (n.restrict s).text? a =
      if !a.source.isProvided || s.has a.source then n.text? a else none := by
  by_cases h : s.has a.source = true
  · rw [text?_restrict h, h, Bool.or_true, if_pos rfl]
  · rw [Bool.not_eq_true] at h
    rw [h, Bool.or_false]
    cases a <;>
      simp_all [restrict, Properties.restrict, text?, DocumentAttribute.source,
        Attribute.isProvided]

/-- The element without the attributes that come from a set. -/
def Element.without (E : AttributeSet) (e : Element) : Element :=
  { e with attributes := e.attributes.filter fun (a, _) => !E.has a.source }

/-- The element of a node that was captured without some attributes. -/
theorem SnapshotNode.element_restrict_filter (hprovided : ∀ a, a ∈ E → a.isProvided = true)
    (htype : .type ∉ E) (s : AttributeSet) (n : SnapshotNode) :
    (n.restrict (s.filter (!E.has ·))).element = ((n.restrict s).element).without E := by
  have htype : E.has .type = false := Bool.eq_false_iff.mpr htype
  have hproperties : (n.restrict (s.filter (!E.has ·))).properties.type =
      (n.restrict s).properties.type := by
    simp [restrict, Properties.restrict, AttributeSet.filter, htype]
  have hattributes : (n.restrict (s.filter (!E.has ·))).element.attributes =
      (n.restrict s).element.attributes.filter fun (a, _) => !E.has a.source := by
    rw [element, element, List.filter_filterMap]
    refine congrArg (List.filterMap · _) (funext fun a => ?_)
    have hfilter : (s.filter (!E.has ·)).has a.source = (s.has a.source && !E.has a.source) := rfl
    rw [text?_restrict_eq, text?_restrict_eq, hfilter]
    have hkeep (x : Option String) : ((x.map (a, ·)).filter fun (a, _) => !E.has a.source) =
        if E.has a.source then none else x.map (a, ·) := by
      cases x with
      | none => simp
      | some value => cases h : E.has a.source <;> simp [h]
    rw [hkeep]
    by_cases ha : E.has a.source = true
    · -- What is left out has to be fetched, so it is not there without being captured.
      simp [ha, hprovided _ ha]
    · simp [ha]
  rw [Element.without, ← hattributes, element, element, hproperties]
  rfl

namespace PageSource

theorem attributesText_without : attributesText ∅ (e.without E) = attributesText E e := by
  have hall : (e.without E).attributes.filter
      (fun (a, _) => !(∅ : AttributeSet).has a.source) = (e.without E).attributes :=
    List.filter_eq_self.mpr fun _ _ => rfl
  rw [attributesText, hall]
  rfl

/-- Leaving attributes out of a document is leaving them out when it is written. -/
theorem elementText_without (hd : d'.elements = d.elements.map (Element.without E)) :
    elementText d' ∅ levels depth i = elementText d E levels depth i := by
  induction levels generalizing depth i with
  | zero => rfl
  | succ levels ih =>
      have helement : d'.element? i = (d.element? i).map (Element.without E) := by
        rw [Document.element?, Document.element?, hd, Array.getElem?_map]
      have hname (e : Element) : (e.without E).name = e.name := rfl
      have hbelow (e : Element) : (e.without E).children = e.children := rfl
      have hchildren (e : Element) : e.children.flatMap (elementText d' ∅ levels (depth + 1)) =
          e.children.flatMap (elementText d E levels (depth + 1)) :=
        congrArg (e.children.flatMap ·) (funext fun i => ih)
      rw [elementText, elementText, helement]
      cases d.element? i with
      | none => rfl
      | some e =>
          simp only [Option.map_some, attributesText_without, hname, hbelow, hchildren]

end PageSource

theorem Document.pageSource_without (hd : d'.elements = d.elements.map (Element.without E))
    (scope : Option String) : d'.pageSource ⟨scope, ∅⟩ = d.pageSource ⟨scope, E⟩ := by
  have htree (depth : Nat) : PageSource.treeText d' ∅ depth = PageSource.treeText d E depth := by
    have hsize : d'.size = d.size := by rw [size, size, hd, Array.size_map]
    rw [PageSource.treeText, PageSource.treeText, hsize, PageSource.elementText_without hd]
  simp only [pageSource, htree]

/-- The elements of a capture without some attributes are those of the whole one without them. -/
theorem CaptureRequest.elements_without (hprovided : ∀ a, a ∈ E → a.isProvided = true)
    (htype : .type ∉ E) (q : CaptureRequest) (raw : RawNode) (time time' serial serial' : Nat) :
    (({ q with attributes := q.attributes.filter (!E.has ·) }.snapshot time' raw).document
        serial').1.elements =
      ((q.snapshot time raw).document serial).1.elements.map (Element.without E) := by
  let full : CaptureRequest := { q with attributes := .all }
  have hrestrict (q' : CaptureRequest) (hdepth : q'.maxDepth = full.maxDepth) (time : Nat) :
      (q'.snapshot time raw).nodes =
        (full.snapshot 0 raw).nodes.map (SnapshotNode.restrict q'.attributes) :=
    snapshot_nodes_restrict hdepth (fun _ _ => rfl) time 0 raw
  simp only [Snapshot.document]
  rw [hrestrict { q with attributes := q.attributes.filter (!E.has ·) } rfl, hrestrict q rfl,
    Array.map_map, Array.map_map, Array.map_map]
  refine congrArg (Array.map · _) (funext fun n => ?_)
  exact SnapshotNode.element_restrict_filter hprovided htype q.attributes n

/-- A tree that is captured without some attributes is written like the tree that is captured with
them and written without them. -/
theorem CaptureRequest.pageSource_exclude (q : CaptureRequest) (raw : RawNode)
    (hprovided : ∀ a, a ∈ E → a.isProvided = true) (htype : .type ∉ E) (scope : Option String)
    (time time' serial serial' : Nat) :
    ((q.snapshot time raw).document serial).1.pageSource ⟨scope, E⟩ =
      (({ q with attributes := q.attributes.filter (!E.has ·) }.snapshot time' raw).document
        serial').1.pageSource ⟨scope, ∅⟩ :=
  (Document.pageSource_without
    (elements_without hprovided htype q raw time time' serial serial') scope).symm

/-- A list with a cell in it. -/
def CaptureRequest.listing : RawNode :=
  .mk ⟨some 7, 1⟩ { type := some .table, label := some "list", enabled := some true } (some [
    .mk ⟨some 7, 2⟩ { type := some .cell, label := some "first", value := some "on" } none])

theorem CaptureRequest.pageSource_exclude_label :
    let unlabelled : AttributeSet := .ofList [.label, .frame]
    ((({} : CaptureRequest).snapshot 0 listing).document 0).1.pageSource ⟨some "List", unlabelled⟩ =
      ((CaptureRequest.snapshot
        { attributes := AttributeSet.all.filter (!unlabelled.has ·) } 5 listing).document
          1).1.pageSource ⟨some "List", ∅⟩ := by
  intro unlabelled
  have hprovided : ∀ a, a ∈ unlabelled → a.isProvided = true := by
    intro a
    cases a <;> decide
  exact pageSource_exclude {} listing hprovided (by decide) (some "List") 0 5 0 1

end UiTree
