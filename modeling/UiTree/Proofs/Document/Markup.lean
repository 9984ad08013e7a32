import Mathlib.Data.List.Basic
import UiTree.Document.PageSource
import UiTree.Snapshot.Capture

/-!
# The markup that page source writes

Page source goes from an element to its children by position, with no more levels than the document
has elements. For the document of a capture this comes to writing a tree: the reported nodes within
the depth, each with the attributes that are shown. Listed in document order with the positions of
parents and children, the elements of this tree are those of the document.
-/

namespace UiTree

/-- An element of markup: its name, its attributes, and the elements in it. -/
inductive Markup where
  | element (name : String) (attributes : List (String × String)) (children : List Markup)
deriving Inhabited

namespace Markup

/-- One attribute with the space before it. -/
def attributeText (name value : String) : List Char :=
  ' ' :: name.toList ++ '=' :: '"' :: PageSource.escape value ++ ['"']

mutual

/-- The lines of an element, `depth` levels in. -/
def lines (depth : Nat) : Markup → List Char
  | element name attributes children =>
    let start := PageSource.indent depth ++ '<' :: name.toList ++
      attributes.flatMap fun (name, value) => attributeText name value
    if children.isEmpty then start ++ ['/', '>', '\n']
    else
      start ++ '>' :: '\n' :: linesOfAll (depth + 1) children ++
        PageSource.indent depth ++ '<' :: '/' :: name.toList ++ ['>', '\n']

/-- The lines of some elements one after the other. -/
def linesOfAll (depth : Nat) : List Markup → List Char
  | [] => []
  | m :: ms => lines depth m ++ linesOfAll depth ms

end

/-- An element as it is listed: parent and children are given by position. -/
structure Entry where
  name : String
  attributes : List (String × String)
  parent : Option Nat
  children : List Nat
deriving DecidableEq, Repr

mutual

/-- The elements of a tree in document order, the first of them at position `start`. -/
def entries (start : Nat) (parent : Option Nat) : Markup → List Entry
  | element name attributes children =>
    let (roots, below) := entriesOfAll (start + 1) start children
    ⟨name, attributes, parent, roots⟩ :: below

/-- The positions of some siblings, and the elements of their trees one after the other. -/
def entriesOfAll (start parent : Nat) : List Markup → List Nat × List Entry
  | [] => ([], [])
  | m :: ms =>
    let first := entries start (some parent) m
    let (roots, more) := entriesOfAll (start + first.length) parent ms
    (start :: roots, first ++ more)

end

mutual

/-- Every element of a tree has a property of names and attributes. -/
def All (P : String → List (String × String) → Prop) : Markup → Prop
  | element name attributes children => P name attributes ∧ AllOf P children

/-- Every element of some trees has a property of names and attributes. -/
def AllOf (P : String → List (String × String) → Prop) : List Markup → Prop
  | [] => True
  | m :: ms => All P m ∧ AllOf P ms

end

mutual

/-- Change the values of the attributes. -/
def mapValues (f : String → String) : Markup → Markup
  | element name attributes children =>
    .element name (attributes.map fun (name, value) => (name, f value)) (mapValuesOfAll f children)

/-- Change the values of the attributes in some trees. -/
def mapValuesOfAll (f : String → String) : List Markup → List Markup
  | [] => []
  | m :: ms => mapValues f m :: mapValuesOfAll f ms

end

/-- Change the values of the attributes of a listed element. -/
def Entry.mapValues (f : String → String) (e : Entry) : Entry :=
  { e with attributes := e.attributes.map fun (name, value) => (name, f value) }

variable {P : String → List (String × String) → Prop} {f : String → String}

mutual

theorem all_iff_entries (start : Nat) (parent : Option Nat) (m : Markup) :
    m.All P ↔ ∀ e ∈ m.entries start parent, P e.name e.attributes := by
  match m with
  | .element name attributes children =>
      rw [All, allOf_iff_entries (start + 1) start children, entries, List.forall_mem_cons]

theorem allOf_iff_entries (start parent : Nat) (ms : List Markup) :
    AllOf P ms ↔ ∀ e ∈ (entriesOfAll start parent ms).2, P e.name e.attributes := by
  match ms with
  | [] => simp [AllOf, entriesOfAll]
  | m :: ms =>
      rw [AllOf, all_iff_entries start (some parent) m, allOf_iff_entries _ parent ms, entriesOfAll,
        List.forall_mem_append]

end

mutual

theorem entries_mapValues (start : Nat) (parent : Option Nat) (m : Markup) :
    (m.mapValues f).entries start parent = (m.entries start parent).map (Entry.mapValues f) := by
  match m with
  | .element name attributes children =>
      rw [mapValues, entries, entries, entriesOfAll_mapValues]
      rfl

theorem entriesOfAll_mapValues (start parent : Nat) (ms : List Markup) :
    entriesOfAll start parent (mapValuesOfAll f ms) =
      ((entriesOfAll start parent ms).1,
        (entriesOfAll start parent ms).2.map (Entry.mapValues f)) := by
  match ms with
  | [] => rfl
  | m :: ms =>
      rw [mapValuesOfAll, entriesOfAll, entries_mapValues, List.length_map, entriesOfAll_mapValues,
        entriesOfAll, List.map_append]

end

end Markup

/-- The attributes of an element that are not left out, by name. -/
def Element.shown (e : Element) (excluded : AttributeSet) : List (String × String) :=
  (e.attributes.filter fun (a, _) => !excluded.has a.source).map fun (a, value) =>
    (a.documentName, value)

/-- An element as it is listed. -/
def Element.entry (e : Element) (excluded : AttributeSet) : Markup.Entry :=
  ⟨e.name, e.shown excluded, e.parent, e.children⟩

/-- The elements of a document as they are listed. -/
def Document.entries (d : Document) (excluded : AttributeSet) : List Markup.Entry :=
  d.elements.toList.map (·.entry excluded)

namespace PageSource

/-- The characters with which the name of an element may start. -/
def isNameStart (c : Char) : Bool :=
  Text.isAlphabetic c || c == '_'

/-- The characters that the name of an element may have. -/
def isNameChar (c : Char) : Bool :=
  Text.isAlphanumeric c || c == '-' || c == '.' || c == '_'

theorem isNameChar_of_isNameStart {c : Char} (h : isNameStart c = true) : isNameChar c = true := by
  simp only [isNameStart, isNameChar, Bool.or_eq_true] at h ⊢
  exact h.elim (fun h => .inl (.inl (.inl (Text.isAlphanumeric_of_isAlphabetic h)))) .inr

theorem isName_iff {s : String} :
    isName s = true ↔ ∃ first rest, s.toList = first :: rest ∧ isNameStart first = true ∧
      ∀ c ∈ rest, isNameChar c = true := by
  rw [isName]
  cases hs : s.toList with
  | nil => simp
  | cons first rest => simp [isNameStart, isNameChar]

theorem isName_documentName (t : ElementType) : isName t.documentName = true := by
  have hstart {c : Char} (h : c ∈ t.documentName.toList) : isNameStart c = true := by
    rw [isNameStart, Text.isAlphabetic_of_isAlpha (ElementType.isAlpha_of_mem_documentName h),
      Bool.true_or]
  obtain ⟨first, rest, hname⟩ := List.exists_cons_of_ne_nil t.documentName_ne_nil
  rw [hname] at hstart
  exact isName_iff.mpr ⟨first, rest, hname, hstart List.mem_cons_self,
    fun c hc => isNameChar_of_isNameStart (hstart (List.mem_cons_of_mem first hc))⟩

theorem isName_attribute (a : DocumentAttribute) : isName a.documentName = true := by
  cases a <;> decide

end PageSource

/-- The attributes of an element that are shown have the names of attributes. -/
theorem Element.exists_of_mem_shown {e : Element} {excluded : AttributeSet} {key value : String}
    (h : (key, value) ∈ e.shown excluded) :
    ∃ a : DocumentAttribute, a.documentName = key ∧ (a, value) ∈ e.attributes := by
  simp only [shown, List.mem_map, List.mem_filter, Prod.mk.injEq] at h
  obtain ⟨⟨a, v⟩, ⟨hmem, -⟩, rfl, rfl⟩ := h
  exact ⟨a, rfl, hmem⟩

theorem PageSource.attributesText_eq (excluded : AttributeSet) (e : Element) :
    attributesText excluded e =
      (e.shown excluded).flatMap fun (name, value) => Markup.attributeText name value := by
  rw [attributesText, Element.shown, List.flatMap_map]
  rfl

namespace CaptureRequest

variable {q : CaptureRequest} {d : Document} {excluded : AttributeSet}

/-- The element of a captured node, without its links. -/
def elementOf (q : CaptureRequest) (index : Nat) (properties : Properties) : Element :=
  SnapshotNode.element ⟨default, properties.restrict q.attributes, none, none, 0, index⟩

mutual

/-- The markup of a reported node. -/
def markup (q : CaptureRequest) (excluded : AttributeSet) (depth index : Nat) : RawNode → Markup
  | .mk _ properties none =>
    .element (q.elementOf index properties).name ((q.elementOf index properties).shown excluded) []
  | .mk _ properties (some children) =>
    .element (q.elementOf index properties).name ((q.elementOf index properties).shown excluded)
      (if depth < q.maxDepth then q.markupOfSiblings excluded (depth + 1) 0 children else [])

/-- The markup of some siblings. -/
def markupOfSiblings (q : CaptureRequest) (excluded : AttributeSet) (depth index : Nat) :
    List RawNode → List Markup
  | [] => []
  | sibling :: siblings =>
    q.markup excluded depth index sibling ::
      q.markupOfSiblings excluded depth (index + 1) siblings

end

mutual

/-- The markup of a capture has the elements of its document. -/
theorem entries_markup (start : Nat) (parent : Option Nat) (depth index : Nat) (raw : RawNode) :
    (q.markup excluded depth index raw).entries start parent =
      (q.nodesOf start parent depth index raw).map (·.element.entry excluded) := by
  match raw with
  | .mk ref properties none => rfl
  | .mk ref properties (some children) =>
      rw [markup, nodesOf]
      by_cases hlt : depth < q.maxDepth
      · rw [if_pos hlt, if_pos hlt, Markup.entries, entriesOfAll_markup]
        rfl
      · rw [if_neg hlt, if_neg hlt]
        rfl

theorem entriesOfAll_markup (start parent depth index : Nat) (siblings : List RawNode) :
    Markup.entriesOfAll start parent (q.markupOfSiblings excluded depth index siblings) =
      ((q.nodesOfSiblings start parent depth index siblings).1,
        (q.nodesOfSiblings start parent depth index siblings).2.map
          (·.element.entry excluded)) := by
  match siblings with
  | [] => rfl
  | sibling :: siblings =>
      rw [markupOfSiblings, Markup.entriesOfAll, entries_markup, List.length_map,
        entriesOfAll_markup, nodesOfSiblings, List.map_append]

end

theorem isEmpty_nodesOfSiblings (start parent depth index : Nat) (siblings : List RawNode) :
    (q.nodesOfSiblings start parent depth index siblings).1.isEmpty =
      (q.markupOfSiblings excluded depth index siblings).isEmpty := by
  cases siblings <;> rfl

theorem element?_of_elements {before nodes : List SnapshotNode} {n : SnapshotNode} {start : Nat}
    (hd : d.elements.toList = (before ++ n :: nodes).map SnapshotNode.element)
    (hstart : before.length = start) : d.element? start = some n.element := by
  rw [Document.element?, ← Array.getElem?_toList, hd, List.getElem?_map, ← hstart]
  simp

/-- What page source writes for an element follows the lines of markup. -/
theorem elementText_eq_lines {e : Element} {name : String} {attributes : List (String × String)}
    {children : List Markup} {start inset levels : Nat} (he : d.element? start = some e)
    (hname : e.name = name) (hshown : e.shown excluded = attributes)
    (hempty : e.children.isEmpty = children.isEmpty)
    (hchildren : e.children.flatMap (PageSource.elementText d excluded levels (inset + 1)) =
      Markup.linesOfAll (inset + 1) children) :
    PageSource.elementText d excluded (levels + 1) inset start =
      (Markup.element name attributes children).lines inset := by
  subst hname hshown
  simp only [PageSource.elementText, he, Markup.lines, hempty, hchildren,
    PageSource.attributesText_eq]

mutual

/-- Where a document has the elements of a subtree, page source has the lines of its markup. There
are levels enough because no subtree has more levels than nodes. -/
theorem elementText_nodesOf {start depth index inset levels : Nat} (parent : Option Nat)
    (before after : List SnapshotNode) (raw : RawNode)
    (hd : d.elements.toList = (before ++ (q.nodesOf start parent depth index raw ++ after)).map
      SnapshotNode.element)
    (hstart : before.length = start)
    (hlevels : (q.nodesOf start parent depth index raw).length ≤ levels) :
    PageSource.elementText d excluded levels inset start =
      (q.markup excluded depth index raw).lines inset := by
  obtain ⟨levels, rfl⟩ : ∃ more, levels = more + 1 :=
    Nat.exists_eq_add_one.mpr (Nat.lt_of_lt_of_le
      (List.length_pos_iff.mpr (q.nodesOf_ne_nil start parent depth index raw)) hlevels)
  match raw with
  | .mk ref properties none =>
      exact elementText_eq_lines (element?_of_elements hd hstart) rfl rfl rfl rfl
  | .mk ref properties (some children) =>
      rw [markup]
      rw [nodesOf] at hd hlevels
      by_cases hlt : depth < q.maxDepth
      · rw [if_pos hlt] at hd hlevels ⊢
        refine elementText_eq_lines (element?_of_elements hd hstart) rfl rfl
          (isEmpty_nodesOfSiblings _ _ _ _ _) ?_
        let roots := (q.nodesOfSiblings (start + 1) start (depth + 1) 0 children).1
        refine elementText_nodesOfSiblings (before ++ [⟨ref, properties.restrict q.attributes,
          some roots, parent, depth, index⟩]) after children ?_ ?_ ?_
        · rw [hd, List.append_assoc]
          rfl
        · simp [hstart]
        · exact Nat.le_of_succ_le_succ hlevels
      · rw [if_neg hlt] at hd hlevels ⊢
        exact elementText_eq_lines (element?_of_elements hd hstart) rfl rfl rfl rfl

theorem elementText_nodesOfSiblings {start parent depth index inset levels : Nat}
    (before after : List SnapshotNode) (siblings : List RawNode)
    (hd : d.elements.toList = (before ++
      ((q.nodesOfSiblings start parent depth index siblings).2 ++ after)).map SnapshotNode.element)
    (hstart : before.length = start)
    (hlevels : (q.nodesOfSiblings start parent depth index siblings).2.length ≤ levels) :
    (q.nodesOfSiblings start parent depth index siblings).1.flatMap
        (PageSource.elementText d excluded levels inset) =
      Markup.linesOfAll inset (q.markupOfSiblings excluded depth index siblings) := by
  match siblings with
  | [] => rfl
  | sibling :: siblings =>
      rw [nodesOfSiblings] at hd hlevels ⊢
      rw [List.length_append] at hlevels
      rw [List.flatMap_cons, markupOfSiblings, Markup.linesOfAll]
      rw [List.append_assoc] at hd
      congr 1
      · exact elementText_nodesOf (some parent) before _ sibling hd hstart (by omega)
      · refine elementText_nodesOfSiblings
          (before ++ q.nodesOf start (some parent) depth index sibling) after siblings ?_ ?_
          (by omega)
        · rw [hd, List.append_assoc]
        · rw [List.length_append, hstart]

end

/-- Page source of a captured tree is its markup, line by line. -/
theorem treeText_document (q : CaptureRequest) (time serial : Nat) (raw : RawNode)
    (excluded : AttributeSet) (inset : Nat) :
    PageSource.treeText ((q.snapshot time raw).document serial).1 excluded inset =
      (q.markup excluded 0 0 raw).lines inset := by
  refine elementText_nodesOf none [] [] raw ?_ rfl ?_
  · simp [Snapshot.document, snapshot]
  · simp [Snapshot.document, snapshot, Document.size]

/-- The elements of a captured tree are those of its markup. -/
theorem entries_document (q : CaptureRequest) (time serial : Nat) (raw : RawNode)
    (excluded : AttributeSet) :
    ((q.snapshot time raw).document serial).1.entries excluded =
      (q.markup excluded 0 0 raw).entries 0 none := by
  rw [entries_markup]
  simp [Snapshot.document, snapshot, Document.entries]

theorem all_markup_iff (q : CaptureRequest) (time serial : Nat) (raw : RawNode)
    (excluded : AttributeSet) (P : String → List (String × String) → Prop) :
    (q.markup excluded 0 0 raw).All P ↔
      ∀ e ∈ ((q.snapshot time raw).document serial).1.elements, P e.name (e.shown excluded) := by
  rw [Markup.all_iff_entries 0 none, ← entries_document q time serial]
  simp [Document.entries, Element.entry]

end CaptureRequest

namespace PageSourceOptions

/-- The markup of the tree, wrapped as the options say. -/
def wrap (options : PageSourceOptions) (m : Markup) : Markup :=
  match options.scope with
  | none => m
  | some scope => .element scope [] [m]

/-- Whether page source can be written with these options: what it is wrapped in has a name. -/
def areAccepted (options : PageSourceOptions) : Bool :=
  options.scope.all PageSource.isName

end PageSourceOptions

/-- Page source of a captured tree is the first line and then the wrapped markup. -/
theorem CaptureRequest.pageSource_document_eq_ok_iff (q : CaptureRequest) (time serial : Nat)
    (raw : RawNode) (options : PageSourceOptions) (text : String) :
    ((q.snapshot time raw).document serial).1.pageSource options = .ok text ↔
      options.areAccepted = true ∧ text = PageSource.prolog ++
        String.ofList ((options.wrap (q.markup options.excluded 0 0 raw)).lines 0) := by
  obtain ⟨scope, excluded⟩ := options
  cases scope with
  | none =>
      simp [Document.pageSource, PageSourceOptions.areAccepted, PageSourceOptions.wrap,
        treeText_document, eq_comm]
  | some scope =>
      have hlines : (Markup.element scope [] [q.markup excluded 0 0 raw]).lines 0 =
          PageSource.wrapped scope
            (PageSource.treeText ((q.snapshot time raw).document serial).1 excluded 1) := by
        simp [Markup.lines, Markup.linesOfAll, PageSource.wrapped, PageSource.indent,
          treeText_document]
      cases hscope : PageSource.isName scope <;>
        simp [Document.pageSource, PageSourceOptions.areAccepted, PageSourceOptions.wrap, hscope,
          hlines, eq_comm]

end UiTree
