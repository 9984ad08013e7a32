import UiTree.Proofs.Document.AttributeValues
import UiTree.Proofs.Document.Markup

/-!
# Reading page source back

A reader for the part of XML that page source uses: the first line, nested elements, attributes in
double quotes, references. White space between tags is ignored and white space in values is left
alone. The reader first takes the text apart into tags, character by character, and then puts the
tags together to a tree.

From page source it gets the markup that was written, with the legible parts of the values. No value
can be taken for markup, because it has no quote and no start of markup of its own.
-/

namespace UiTree

namespace Xml

/-- A tag: it starts an element, is a whole element without others in it, or ends an element. -/
inductive Tag where
  | start (name : String) (attributes : List (String × String))
  | empty (name : String) (attributes : List (String × String))
  | stop (name : String)
deriving DecidableEq, Repr

/-- White space and marks at which a name ends. -/
def delimiters : List Char :=
  [' ', '\t', '\n', '\r', '<', '>', '/', '=', '"', '\'', '&']

/-- Whether a name ends at the character. -/
def isDelimiter (c : Char) : Bool :=
  delimiters.contains c

/-- Where a reader is, with what it has read of a tag. -/
inductive Place where
  | outside
  | opened
  | startName (name : List Char)
  | inside (name : String) (attributes : List (String × String))
  | attributeName (name : String) (attributes : List (String × String)) (key : List Char)
  | equals (name : String) (attributes : List (String × String)) (key : String)
  | value (name : String) (attributes : List (String × String)) (key : String)
    (raw : List Char)
  | slash (name : String) (attributes : List (String × String))
  | stopName (name : List Char)

namespace Place

/-- Read a character that ends a name or an attribute of a tag. -/
def afterName (name : String) (attributes : List (String × String)) (c : Char) :
    Option (Place × Option Tag) :=
  if isSpace c then some (inside name attributes, none)
  else if c == '>' then some (outside, some (.start name attributes))
  else if c == '/' then some (slash name attributes, none)
  else none

/-- Read a character. It may complete a tag. -/
def next (c : Char) : Place → Option (Place × Option Tag)
  | outside =>
    if c == '<' then some (opened, none)
    else if isSpace c then some (outside, none)
    else none
  | opened =>
    if c == '/' then some (stopName [], none)
    else if isDelimiter c then none
    else some (startName [c], none)
  | startName name =>
    if isDelimiter c then afterName (String.ofList name) [] c
    else some (startName (name ++ [c]), none)
  | inside name attributes =>
    if isDelimiter c then afterName name attributes c
    else some (attributeName name attributes [c], none)
  | attributeName name attributes key =>
    if c == '=' then some (equals name attributes (String.ofList key), none)
    else if isDelimiter c then none
    else some (attributeName name attributes (key ++ [c]), none)
  | equals name attributes key =>
    if c == '"' then some (value name attributes key [], none) else none
  | value name attributes key raw =>
    if c == '"' then
      (expand? id raw).map fun v =>
        (inside name (attributes ++ [(key, String.ofList v)]), none)
    else some (value name attributes key (raw ++ [c]), none)
  | slash name attributes =>
    if c == '>' then some (outside, some (.empty name attributes)) else none
  | stopName name =>
    if c == '>' then some (outside, some (.stop (String.ofList name)))
    else if isDelimiter c then none
    else some (stopName (name ++ [c]), none)

end Place

/-- The tags in the rest of a text. -/
def tagsFrom : Place → List Char → Option (List Tag)
  | .outside, [] => some []
  | _, [] => none
  | place, c :: rest =>
    (place.next c).bind fun (place, tag?) => (tagsFrom place rest).map (tag?.toList ++ ·)

/-- An element that has been started, and what stands before it in the same element. -/
structure Started where
  name : String
  attributes : List (String × String)
  before : List Markup

/-- Put tags together to trees: `above` are the elements that have been started, innermost first,
and `done` is what the innermost has in it so far. -/
def assemble : List Started → List Markup → List Tag → Option (List Markup)
  | [], done, [] => some done
  | _ :: _, _, [] => none
  | above, done, .start name attributes :: tags =>
    assemble (⟨name, attributes, done⟩ :: above) [] tags
  | above, done, .empty name attributes :: tags =>
    assemble above (done ++ [.element name attributes []]) tags
  | [], _, .stop _ :: _ => none
  | e :: above, done, .stop name :: tags =>
    if name = e.name then assemble above (e.before ++ [.element e.name e.attributes done]) tags
    else none

/-- The element that a text consists of after the first line. -/
def read? (text : String) : Option Markup := do
  let rest ← text.toList.dropPrefix? PageSource.prolog.toList
  let tags ← tagsFrom .outside rest
  match ← assemble [] [] tags with
  | [m] => some m
  | _ => none

/-- A text that can be a name for the reader. -/
def isWord (s : String) : Bool :=
  !s.toList.isEmpty && s.toList.all (!isDelimiter ·)

variable {place place' : Place} {tag : Tag} {c : Char} {word rest : List Char}

theorem tagsFrom_silent (h : place.next c = some (place', none)) :
    tagsFrom place (c :: rest) = tagsFrom place' rest := by
  simp [tagsFrom, h]

theorem tagsFrom_tag (h : place.next c = some (place', some tag)) :
    tagsFrom place (c :: rest) = (tagsFrom place' rest).map (tag :: ·) := by
  simp [tagsFrom, h]

/-- Characters that only add to what has been read are read one after the other. -/
theorem tagsFrom_word (along : List Char → Place) (adds : Char → Prop) (read : List Char)
    (hnext : ∀ read c, adds c → (along read).next c = some (along (read ++ [c]), none))
    (hword : ∀ c ∈ word, adds c) :
    tagsFrom (along read) (word ++ rest) = tagsFrom (along (read ++ word)) rest := by
  induction word generalizing read with
  | nil => rw [List.nil_append, List.append_nil]
  | cons c word ih =>
      rw [List.forall_mem_cons] at hword
      rw [List.cons_append, tagsFrom_silent (hnext read c hword.1), ih (read ++ [c]) hword.2,
        List.append_assoc, List.singleton_append]

/-- Spaces between tags are ignored. -/
theorem tagsFrom_indent (depth : Nat) :
    tagsFrom .outside (PageSource.indent depth ++ rest) = tagsFrom .outside rest := by
  refine tagsFrom_word (fun _ => .outside) (· = ' ') [] ?_ ?_
  · rintro - c rfl
    rfl
  · exact fun c hc => List.eq_of_mem_replicate hc

theorem ne_of_isDelimiter (h : isDelimiter c = false) : c ≠ '=' ∧ c ≠ '>' ∧ c ≠ '/' := by
  simp only [isDelimiter, delimiters, List.contains_eq_mem, decide_eq_false_iff_not,
    List.mem_cons] at h
  tauto

theorem exists_cons_of_isWord {s : String} (h : isWord s = true) :
    ∃ first word, s.toList = first :: word ∧ isDelimiter first = false ∧
      ∀ c ∈ word, isDelimiter c = false := by
  simp only [isWord, Bool.and_eq_true, Bool.not_eq_true', List.all_eq_true] at h
  cases hs : s.toList with
  | nil => simp [hs] at h
  | cons first word =>
      rw [hs, List.forall_mem_cons] at h
      exact ⟨first, word, rfl, h.2⟩

/-- The name of an element ends with the first delimiter. -/
theorem tagsFrom_startName {name : String} (hname : isWord name = true)
    (hc : isDelimiter c = true) :
    tagsFrom .opened (name.toList ++ c :: rest) = tagsFrom (.inside name []) (c :: rest) := by
  obtain ⟨first, word, hfirst, hdelimiter, hword⟩ := exists_cons_of_isWord hname
  have hsame : Place.next c (.startName name.toList) = Place.next c (.inside name []) := by
    simp only [Place.next, hc, if_true, String.ofList_toList]
  have hopened : Place.next first .opened = some (.startName [first], none) := by
    simp [Place.next, hdelimiter, (ne_of_isDelimiter hdelimiter).2.2]
  have hadds (read : List Char) (c : Char) (h : isDelimiter c = false) :
      Place.next c (.startName read) = some (.startName (read ++ [c]), none) := by
    simp [Place.next, h]
  rw [hfirst, List.cons_append, tagsFrom_silent hopened,
    tagsFrom_word .startName (isDelimiter · = false) [first] hadds hword, List.singleton_append,
    ← hfirst, tagsFrom, tagsFrom, hsame]

/-- An attribute is read with the legible part of its value. -/
theorem tagsFrom_attribute {name key : String} {attributes : List (String × String)}
    (hkey : isWord key = true) (v : String) :
    tagsFrom (.inside name attributes) (Markup.attributeText key v ++ rest) =
      tagsFrom (.inside name (attributes ++ [(key, PageSource.legible v)])) rest := by
  obtain ⟨first, word, hfirst, hdelimiter, hword⟩ := exists_cons_of_isWord hkey
  have hstart : Place.next first (.inside name attributes) =
      some (.attributeName name attributes [first], none) := by
    simp [Place.next, hdelimiter]
  have hadds (read : List Char) (c : Char) (h : isDelimiter c = false) :
      Place.next c (.attributeName name attributes read) =
        some (.attributeName name attributes (read ++ [c]), none) := by
    simp [Place.next, h, (ne_of_isDelimiter h).1]
  have hequals : Place.next '=' (.attributeName name attributes key.toList) =
      some (.equals name attributes key, none) := by
    simp [Place.next]
  have hvalue (read : List Char) (c : Char) (h : c ≠ '"') :
      Place.next c (.value name attributes key read) =
        some (.value name attributes key (read ++ [c]), none) := by
    simp [Place.next, h]
  have hend : Place.next '"' (.value name attributes key (PageSource.escape v)) =
      some (.inside name (attributes ++ [(key, PageSource.legible v)]), none) := by
    simp [Place.next, PageSource.expand?_id_escape]
  calc
    tagsFrom (.inside name attributes) (Markup.attributeText key v ++ rest)
      = tagsFrom (.inside name attributes)
          (first :: (word ++ '=' :: '"' :: (PageSource.escape v ++ '"' :: rest))) := by
        rw [Markup.attributeText, hfirst]
        simp only [List.cons_append, List.append_assoc, List.nil_append]
        exact tagsFrom_silent rfl
    _ = tagsFrom (.attributeName name attributes key.toList)
          ('=' :: '"' :: (PageSource.escape v ++ '"' :: rest)) := by
        rw [tagsFrom_silent hstart, tagsFrom_word (.attributeName name attributes)
          (isDelimiter · = false) [first] hadds hword, List.singleton_append, ← hfirst]
    _ = tagsFrom (.value name attributes key []) (PageSource.escape v ++ '"' :: rest) := by
        rw [tagsFrom_silent hequals, tagsFrom_silent rfl]
    _ = tagsFrom (.inside name (attributes ++ [(key, PageSource.legible v)])) rest := by
        rw [tagsFrom_word (.value name attributes key) (· ≠ '"') [] hvalue
          fun d hd => (PageSource.ne_of_mem_escape hd).2, List.nil_append, tagsFrom_silent hend]

/-- The attributes are read one after the other. -/
theorem tagsFrom_attributes {name : String} {before attributes : List (String × String)}
    (hkeys : ∀ a ∈ attributes, isWord a.1 = true) :
    tagsFrom (.inside name before)
        ((attributes.flatMap fun (key, v) => Markup.attributeText key v) ++ rest) =
      tagsFrom (.inside name
        (before ++ attributes.map fun (key, v) => (key, PageSource.legible v))) rest := by
  induction attributes generalizing before with
  | nil => rw [List.flatMap_nil, List.nil_append, List.map_nil, List.append_nil]
  | cons a attributes ih =>
      rw [List.forall_mem_cons] at hkeys
      rw [List.flatMap_cons, List.append_assoc, tagsFrom_attribute hkeys.1, ih hkeys.2,
        List.append_assoc, List.map_cons, List.singleton_append]

/-- The start of an element's tag is read with the legible parts of the values. -/
theorem tagsFrom_head {name : String} {attributes : List (String × String)} (depth : Nat)
    (hname : isWord name = true) (hkeys : ∀ a ∈ attributes, isWord a.1 = true)
    (hc : isDelimiter c = true) :
    tagsFrom .outside (PageSource.indent depth ++ '<' :: name.toList ++
        (attributes.flatMap fun (key, v) => Markup.attributeText key v) ++ c :: rest) =
      tagsFrom (.inside name (attributes.map fun (key, v) => (key, PageSource.legible v)))
        (c :: rest) := by
  obtain ⟨next, more, hnext, hdelimiter⟩ : ∃ next more,
      (attributes.flatMap fun (key, v) => Markup.attributeText key v) ++ c :: rest =
        next :: more ∧ isDelimiter next = true := by
    cases attributes with
    | nil => exact ⟨c, rest, rfl, hc⟩
    | cons a attributes => exact ⟨' ', _, rfl, rfl⟩
  calc
    _ = tagsFrom .opened (name.toList ++ next :: more) := by
        rw [List.append_assoc, List.append_assoc, tagsFrom_indent, List.cons_append,
          tagsFrom_silent rfl, hnext]
    _ = tagsFrom (.inside name []) ((attributes.flatMap fun (key, v) =>
          Markup.attributeText key v) ++ c :: rest) := by
        rw [tagsFrom_startName hname hdelimiter, hnext]
    _ = _ := by
        rw [tagsFrom_attributes hkeys, List.nil_append]

/-- The end of an element is read as one tag. -/
theorem tagsFrom_stop {name : String} (depth : Nat) (hname : isWord name = true) :
    tagsFrom .outside (PageSource.indent depth ++ '<' :: '/' :: name.toList ++ '>' :: rest) =
      (tagsFrom .outside rest).map (.stop name :: ·) := by
  obtain ⟨first, word, hfirst, hdelimiter, hword⟩ := exists_cons_of_isWord hname
  have hadds (read : List Char) (c : Char) (h : isDelimiter c = false) :
      Place.next c (.stopName read) = some (.stopName (read ++ [c]), none) := by
    simp [Place.next, h, (ne_of_isDelimiter h).2.1]
  have hall : ∀ c ∈ name.toList, isDelimiter c = false := by
    rw [hfirst, List.forall_mem_cons]
    exact ⟨hdelimiter, hword⟩
  have hend : Place.next '>' (.stopName name.toList) = some (.outside, some (.stop name)) := by
    simp [Place.next]
  rw [List.append_assoc, tagsFrom_indent, List.cons_append, tagsFrom_silent rfl, List.cons_append,
    tagsFrom_silent rfl, tagsFrom_word .stopName (isDelimiter · = false) [] hadds hall,
    List.nil_append, tagsFrom_tag hend]

end Xml

namespace Markup

open Xml

mutual

/-- The tags of an element. -/
def tags : Markup → List Tag
  | element name attributes children =>
    if children.isEmpty then [.empty name attributes]
    else .start name attributes :: tagsOfAll children ++ [.stop name]

/-- The tags of some elements one after the other. -/
def tagsOfAll : List Markup → List Tag
  | [] => []
  | m :: ms => tags m ++ tagsOfAll ms

end

/-- Names and attributes that can be read have no delimiters in their names. -/
def Readable (name : String) (attributes : List (String × String)) : Prop :=
  isWord name = true ∧ ∀ a ∈ attributes, isWord a.1 = true

/-- What a reader gets that does not see the characters that are not written. -/
def legible (m : Markup) : Markup :=
  m.mapValues PageSource.legible

theorem isEmpty_mapValuesOfAll (f : String → String) (ms : List Markup) :
    (mapValuesOfAll f ms).isEmpty = ms.isEmpty := by
  cases ms <;> rfl

mutual

/-- The lines of markup are read as its tags. -/
theorem tagsFrom_lines (depth : Nat) (m : Markup) (h : m.All Readable) (rest : List Char) :
    tagsFrom .outside (m.lines depth ++ rest) =
      (tagsFrom .outside rest).map (m.legible.tags ++ ·) := by
  match m with
  | .element name attributes children =>
      obtain ⟨⟨hname, hkeys⟩, hchildren⟩ := h
      rw [legible, mapValues, tags, isEmpty_mapValuesOfAll, lines]
      cases hempty : children.isEmpty with
      | true =>
          simp only [if_true]
          rw [List.append_assoc, List.cons_append, tagsFrom_head depth hname hkeys rfl,
            tagsFrom_silent rfl, List.cons_append, tagsFrom_tag rfl, List.cons_append,
            tagsFrom_silent rfl]
          rfl
      | false =>
          simp only [Bool.false_eq_true, if_false]
          simp only [List.append_assoc, List.cons_append, List.nil_append]
          rw [← List.cons_append, ← List.append_assoc, ← List.append_assoc,
            tagsFrom_head depth hname hkeys rfl, tagsFrom_tag rfl, tagsFrom_silent rfl,
            tagsFrom_linesOfAll (depth + 1) children hchildren, ← List.cons_append,
            ← List.cons_append, ← List.append_assoc, tagsFrom_stop depth hname,
            tagsFrom_silent rfl, Option.map_map, Option.map_map]
          simp [Function.comp_def]

theorem tagsFrom_linesOfAll (depth : Nat) (ms : List Markup) (h : AllOf Readable ms)
    (rest : List Char) :
    tagsFrom .outside (linesOfAll depth ms ++ rest) =
      (tagsFrom .outside rest).map (tagsOfAll (mapValuesOfAll PageSource.legible ms) ++ ·) := by
  match ms with
  | [] => simp [linesOfAll, mapValuesOfAll, tagsOfAll]
  | m :: ms =>
      rw [linesOfAll, List.append_assoc, tagsFrom_lines depth m h.1,
        tagsFrom_linesOfAll depth ms h.2, mapValuesOfAll, tagsOfAll, Option.map_map]
      simp [Function.comp_def, legible]

end

mutual

/-- The tags of a tree are put together to the tree. -/
theorem assemble_tags (above : List Started) (done : List Markup) (m : Markup) (rest : List Tag) :
    assemble above done (m.tags ++ rest) = assemble above (done ++ [m]) rest := by
  match m with
  | .element name attributes children =>
      rw [tags]
      cases hempty : children.isEmpty with
      | true =>
          rw [List.isEmpty_iff] at hempty
          subst hempty
          simp [assemble]
      | false =>
          simp only [Bool.false_eq_true, if_false, List.cons_append, List.append_assoc]
          rw [assemble, assemble_tagsOfAll, List.nil_append, List.nil_append, assemble, if_pos rfl]

theorem assemble_tagsOfAll (above : List Started) (done : List Markup) (ms : List Markup)
    (rest : List Tag) :
    assemble above done (tagsOfAll ms ++ rest) = assemble above (done ++ ms) rest := by
  match ms with
  | [] => rw [tagsOfAll, List.nil_append, List.append_nil]
  | m :: ms =>
      rw [tagsOfAll, List.append_assoc, assemble_tags, assemble_tagsOfAll, List.append_assoc,
        List.singleton_append]

end

/-- Written markup is read back with the legible parts of its values. -/
theorem read?_lines {m : Markup} (h : m.All Readable) :
    read? (PageSource.prolog ++ String.ofList (m.lines 0)) = some m.legible := by
  have hdrop : (PageSource.prolog.toList ++ m.lines 0).dropPrefix? PageSource.prolog.toList =
      some (m.lines 0) :=
    List.dropPrefix?_eq_some_iff.mpr ⟨_, rfl, beq_self_eq_true _⟩
  have htags : tagsFrom .outside (m.lines 0) = some m.legible.tags := by
    simpa [tagsFrom] using tagsFrom_lines 0 m h []
  have htree : assemble [] [] m.legible.tags = some [m.legible] := by
    simpa [assemble] using assemble_tags [] [] m.legible []
  simp [read?, hdrop, htags, htree]

example : read? (PageSource.prolog ++ "<a b=\"&lt;/a>\">\n  <c/>\n</a>\n") =
    some (.element "a" [("b", "</a>")] [.element "c" [] []]) := by
  rfl

end Markup

namespace PageSource

/-- No letter, no digit and no mark that a name can have ends a name. -/
theorem isDelimiter_eq_false {c : Char} (h : isNameChar c = true) : Xml.isDelimiter c = false := by
  have hdelimiters : ∀ c ∈ Xml.delimiters, isNameChar c = false :=
    Text.forall_mem_of_all (by decide)
  rw [Xml.isDelimiter, List.contains_eq_mem, decide_eq_false_iff_not]
  intro hmem
  rw [hdelimiters c hmem] at h
  cases h

theorem isDelimiter_of_isName {s : String} (h : isName s = true) :
    ∀ c ∈ s.toList, Xml.isDelimiter c = false := by
  obtain ⟨first, rest, hs, hfirst, hrest⟩ := isName_iff.mp h
  rw [hs, List.forall_mem_cons]
  exact ⟨isDelimiter_eq_false (isNameChar_of_isNameStart hfirst),
    fun c hc => isDelimiter_eq_false (hrest c hc)⟩

theorem isWord_of_isName {s : String} (h : isName s = true) : Xml.isWord s = true := by
  obtain ⟨first, rest, hs, -⟩ := isName_iff.mp h
  rw [Xml.isWord, Bool.and_eq_true, List.all_eq_true]
  exact ⟨by rw [hs]; rfl, fun c hc => by rw [isDelimiter_of_isName h c hc, Bool.not_false]⟩

end PageSource

namespace CaptureRequest

theorem readable_markup (q : CaptureRequest) (raw : RawNode) (options : PageSourceOptions)
    (h : options.areAccepted = true) :
    (options.wrap (q.markup options.excluded 0 0 raw)).All Markup.Readable := by
  have hinside : (q.markup options.excluded 0 0 raw).All Markup.Readable := by
    rw [all_markup_iff q 0 0]
    intro e _
    refine ⟨PageSource.isWord_of_isName (PageSource.isName_documentName e.type), ?_⟩
    rintro ⟨key, value⟩ hmem
    obtain ⟨a, rfl, -⟩ := Element.exists_of_mem_shown hmem
    exact PageSource.isWord_of_isName (PageSource.isName_attribute a)
  cases hscope : options.scope with
  | none => simpa [PageSourceOptions.wrap, hscope] using hinside
  | some scope =>
      have hname : PageSource.isName scope = true := by
        simpa [PageSourceOptions.areAccepted, hscope] using h
      simpa [PageSourceOptions.wrap, hscope, Markup.All, Markup.AllOf, Markup.Readable, hinside]
        using PageSource.isWord_of_isName hname

/-- Page source can be read back: whatever has been captured and however it is wrapped, a reader
gets the elements of the document in their places, inside the element they are wrapped in, each with
the legible parts of those attributes that are not left out. -/
theorem read?_pageSource (q : CaptureRequest) (time serial : Nat) (raw : RawNode)
    (options : PageSourceOptions) (h : options.areAccepted = true) :
    ∃ text m,
      ((q.snapshot time raw).document serial).1.pageSource options = .ok text ∧
        Xml.read? text = some (options.wrap m) ∧
        m.entries 0 none = (((q.snapshot time raw).document serial).1.entries options.excluded).map
          (Markup.Entry.mapValues PageSource.legible) := by
  refine ⟨_, (q.markup options.excluded 0 0 raw).legible,
    (q.pageSource_document_eq_ok_iff time serial raw options _).mpr ⟨h, rfl⟩, ?_, ?_⟩
  · rw [Markup.read?_lines (q.readable_markup raw options h)]
    cases hscope : options.scope <;>
      simp [PageSourceOptions.wrap, hscope, Markup.legible, Markup.mapValues, Markup.mapValuesOfAll]
  · rw [Markup.legible, Markup.entries_mapValues, ← entries_document]

/-- A window with a text field that has markup in it. -/
def form : RawNode :=
  .mk ⟨some 100, 1⟩ { type := some .window, label := some "a < b & \"c\"" } (some [
    .mk ⟨some 100, 2⟩ { type := some .textField, value := some "</>\n\u0007\"/>" } none])

theorem read?_pageSource_form :
    (⟨some "AppiumAUT", .ofList [.frame]⟩ : PageSourceOptions).areAccepted = true ∧
      ∃ text m,
        ((snapshot {} 0 form).document 0).1.pageSource ⟨some "AppiumAUT", .ofList [.frame]⟩ =
            .ok text ∧
          Xml.read? text = some (.element "AppiumAUT" [] [m]) ∧
          m.entries 0 none = (((snapshot {} 0 form).document 0).1.entries (.ofList [.frame])).map
            (Markup.Entry.mapValues PageSource.legible) :=
  ⟨by decide, read?_pageSource {} 0 0 form ⟨some "AppiumAUT", .ofList [.frame]⟩ (by decide)⟩

end CaptureRequest

end UiTree
