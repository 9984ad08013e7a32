import UiTree.Proofs.Document.Grammar

/-!
# Page source as a document

Whatever was captured, page source has the form of a document: one element with its declaration
before it, tags that match, no attribute twice, and values without markup. What it can be wrong
about are single characters. A name that page source accepts may have a letter or numeral that XML
does not allow, and of what XML cannot carry two code points are not left out of the values. Page
source is well-formed exactly if neither is the case.
-/

namespace UiTree

open Text (inRanges)

namespace PageSource

variable {c : Char}

/-- A written value can stand between double quotes. -/
theorem isValue_escape (v : String) : Xml.IsValue '"' (escape v) := by
  unfold escape
  induction v.toList with
  | nil => exact .nil
  | cons c cs ih =>
      rw [List.flatMap_cons]
      obtain ⟨-, body, hwritten, -, hd⟩ | ⟨-, -, hwritten⟩ | ⟨hreferred, -, hwritten⟩ :=
        escapeChar_cases c
      · rw [hwritten, List.cons_append, List.append_assoc, List.singleton_append]
        exact .reference hd ih
      · rw [hwritten, List.nil_append]
        exact ih
      · obtain ⟨hamp, hlt, hquote⟩ := ne_of_isReferred hreferred
        rw [hwritten, List.singleton_append]
        exact .char ⟨hlt, hamp⟩ hquote ih

theorem isChar_of_isReferenceChar (h : Xml.isReferenceChar c = true) : Xml.isChar c = true := by
  simp only [Xml.isReferenceChar, Bool.or_eq_true, Text.isAlphanum_iff, beq_iff_eq,
    ← Char.toNat_inj, Char.reduceToNat] at h
  rw [isChar_iff]
  omega

/-- Of the characters that a document may not have, the last two of the first plane are written. -/
theorem isChar_escapeChar_iff :
    (∀ d ∈ escapeChar c, Xml.isChar d = true) ↔ c ≠ '\uFFFE' ∧ c ≠ '\uFFFF' := by
  simp only [ne_eq, ← Char.toNat_inj, Char.reduceToNat]
  obtain ⟨hreferred, body, hwritten, hbody, -⟩ | ⟨-, hdropped, hwritten⟩ |
    ⟨-, hdropped, hwritten⟩ := escapeChar_cases c
  · rw [isReferred_iff] at hreferred
    have hchars : ∀ d ∈ '&' :: (body ++ [';']), Xml.isChar d = true := by
      rw [List.forall_mem_cons, List.forall_mem_append, List.forall_mem_singleton]
      exact ⟨by decide, fun d hd => isChar_of_isReferenceChar (List.all_eq_true.mp hbody d hd),
        by decide⟩
    rw [hwritten]
    exact ⟨fun _ => by omega, fun _ => hchars⟩
  · rw [isDropped_iff] at hdropped
    rw [hwritten]
    exact ⟨fun _ => by omega, fun _ => List.forall_mem_nil _⟩
  · rw [← Bool.not_eq_true, isDropped_iff] at hdropped
    rw [hwritten, List.forall_mem_singleton, isChar_iff]
    omega

theorem isChar_escape_iff {v : String} :
    (∀ c ∈ escape v, Xml.isChar c = true) ↔ ∀ c ∈ v.toList, c ≠ '\uFFFE' ∧ c ≠ '\uFFFF' := by
  rw [escape, List.forall_mem_flatMap]
  exact forall₂_congr fun c _ => isChar_escapeChar_iff

end PageSource

namespace Markup

open Xml

/-- The name of an element and the different names of its attributes are names of XML. -/
structure WellNamed (name : String) (attributes : List (String × String)) : Prop where
  name : isName name.toList = true
  keys : ∀ a ∈ attributes, isName a.1.toList = true
  nodup : (attributes.map Prod.fst).Nodup

/-- Nothing is written of an element and its attributes that a document may not have. -/
structure Printable (name : String) (attributes : List (String × String)) : Prop where
  name : ∀ c ∈ name.toList, isChar c = true
  keys : ∀ a ∈ attributes, ∀ c ∈ a.1.toList, isChar c = true
  values : ∀ a ∈ attributes, ∀ c ∈ a.2.toList, c ≠ '\uFFFE' ∧ c ≠ '\uFFFF'

theorem isBlank_indent (depth : Nat) : IsBlank (PageSource.indent depth) := fun c hc => by
  rw [List.eq_of_mem_replicate hc]
  rfl

theorem isBlank_newline : IsBlank ['\n'] :=
  List.forall_mem_singleton.mpr rfl

theorem isText_of_isBlank {xs : List Char} (h : IsBlank xs) : IsText xs := by
  constructor
  · intro c hc
    constructor <;> rintro rfl <;> exact absurd (h _ hc) (by decide)
  · intro hmarked
    exact absurd (h ']' (hmarked.subset (by decide))) (by decide)

theorem isAssigned_attributeText (key value : String) :
    IsAssigned IsValue key.toList (attributeText key value) := by
  have hblank : IsBlank [] := List.forall_mem_nil _
  have h : IsAssigned IsValue key.toList ([' '] ++ key.toList ++ [] ++ '=' :: [] ++
      '"' :: PageSource.escape value ++ ['"']) :=
    .intro (by decide) (List.forall_mem_singleton.mpr rfl) hblank hblank (.inl rfl)
      (PageSource.isValue_escape value)
  simpa [attributeText] using h

theorem areAttributes_flatMap {attributes : List (String × String)}
    (hkeys : ∀ a ∈ attributes, isName a.1.toList = true)
    (hnodup : (attributes.map Prod.fst).Nodup) :
    AreAttributes (attributes.map (·.1.toList))
      (attributes.flatMap fun (key, value) => attributeText key value) := by
  induction attributes with
  | nil => exact .nil
  | cons a attributes ih =>
      rw [List.map_cons, List.nodup_cons] at hnodup
      rw [List.forall_mem_cons] at hkeys
      rw [List.map_cons, List.flatMap_cons]
      refine .cons hkeys.1 ?_ (isAssigned_attributeText a.1 a.2) (ih hkeys.2 hnodup.2)
      intro hmem
      obtain ⟨b, hb, heq⟩ := List.mem_map.mp hmem
      exact hnodup.1 (List.mem_map.mpr ⟨b, hb, String.toList_inj.mp heq⟩)

/-- The first line of page source is a declaration. -/
theorem isDeclaration_prolog :
    IsDeclaration "<?xml version=\"1.0\" encoding=\"UTF-8\"?>".toList := by
  have hblank : IsBlank [] := List.forall_mem_nil _
  have hspace : IsBlank [' '] := List.forall_mem_singleton.mpr rfl
  have hversion : IsAssigned (fun _ => IsVersion) "version".toList ([' '] ++ "version".toList ++
      [] ++ '=' :: [] ++ '"' :: "1.0".toList ++ ['"']) :=
    .intro (by decide) hspace hblank hblank (.inl rfl) ⟨['0'], by decide, by decide,
      Text.forall_mem_of_all (by decide)⟩
  have hencoding : IsAssigned (fun _ => IsEncoding) "encoding".toList ([' '] ++
      "encoding".toList ++ [] ++ '=' :: [] ++ '"' :: "UTF-8".toList ++ ['"']) :=
    .intro (by decide) hspace hblank hblank (.inl rfl)
      ⟨'U', "TF-8".toList, by decide, by decide, Text.forall_mem_of_all (by decide)⟩
  exact IsDeclaration.intro hversion (.inr hencoding) hblank

mutual

/-- The lines of well-named markup are an element on lines of its own. -/
theorem exists_isElement (depth : Nat) (m : Markup) (h : m.All WellNamed) :
    ∃ element, IsElement element ∧
      m.lines depth = PageSource.indent depth ++ element ++ ['\n'] := by
  match m with
  | .element name attributes children =>
      obtain ⟨hnamed, hchildren⟩ := h
      have hattributes := areAttributes_flatMap hnamed.keys hnamed.nodup
      rw [lines]
      cases children.isEmpty with
      | true =>
          refine ⟨_, .empty hnamed.name hattributes (List.forall_mem_nil _), ?_⟩
          simp
      | false =>
          have hinside := isContent_linesOfAll (depth + 1) children hchildren isBlank_newline
            (isBlank_indent depth)
          refine ⟨_, .nested hnamed.name hattributes (List.forall_mem_nil _) hinside
            (List.forall_mem_nil _), ?_⟩
          simp

/-- The lines of well-named markup with white space around them can stand in an element. -/
theorem isContent_linesOfAll (depth : Nat) (ms : List Markup) (h : AllOf WellNamed ms)
    {before after : List Char} (hbefore : IsBlank before) (hafter : IsBlank after) :
    IsContent (before ++ linesOfAll depth ms ++ after) := by
  match ms with
  | [] =>
      rw [linesOfAll, List.append_nil]
      exact .text (isText_of_isBlank (List.forall_mem_append.mpr ⟨hbefore, hafter⟩))
  | m :: ms =>
      obtain ⟨element, helement, hlines⟩ := exists_isElement depth m h.1
      have hrest := isContent_linesOfAll depth ms h.2 isBlank_newline hafter
      have hblank : IsBlank (before ++ PageSource.indent depth) :=
        List.forall_mem_append.mpr ⟨hbefore, isBlank_indent depth⟩
      have hall := IsContent.element (isText_of_isBlank hblank) helement hrest
      simpa [linesOfAll, hlines] using hall

end

theorem isChar_mark {c : Char} (h : c ∈ [' ', '\n', '<', '>', '/', '=', '"']) :
    isChar c = true := by
  have hmarks : ∀ c ∈ [' ', '\n', '<', '>', '/', '=', '"'], isChar c = true :=
    Text.forall_mem_of_all (by decide)
  exact hmarks c h

theorem isChar_indent (depth : Nat) : ∀ c ∈ PageSource.indent depth, isChar c = true :=
  fun _ hc => isChar_mark (List.eq_of_mem_replicate hc ▸ List.mem_cons_self)

theorem isChar_attributeText_iff {key value : String} :
    (∀ c ∈ attributeText key value, isChar c = true) ↔
      (∀ c ∈ key.toList, isChar c = true) ∧ ∀ c ∈ value.toList, c ≠ '\uFFFE' ∧ c ≠ '\uFFFF' := by
  rw [attributeText, List.forall_mem_append, List.forall_mem_append, List.forall_mem_cons,
    List.forall_mem_cons, List.forall_mem_cons, PageSource.isChar_escape_iff]
  simp [isChar_mark]

theorem printable_iff {name : String} {attributes : List (String × String)} :
    Printable name attributes ↔ (∀ c ∈ name.toList, isChar c = true) ∧
      ∀ c ∈ attributes.flatMap fun (key, value) => attributeText key value, isChar c = true := by
  rw [List.forall_mem_flatMap, forall₂_congr fun a _ => isChar_attributeText_iff]
  constructor
  · rintro ⟨hname, hkeys, hvalues⟩
    exact ⟨hname, fun a ha => ⟨hkeys a ha, hvalues a ha⟩⟩
  · rintro ⟨hname, hattributes⟩
    exact ⟨hname, fun a ha => (hattributes a ha).1, fun a ha => (hattributes a ha).2⟩

mutual

/-- The lines of markup have only characters of a document if everything in it is printable. -/
theorem isChar_lines_iff (depth : Nat) (m : Markup) :
    (∀ c ∈ m.lines depth, isChar c = true) ↔ m.All Printable := by
  match m with
  | .element name attributes children =>
      have hchildren := isChar_linesOfAll_iff (depth + 1) children
      have hindent := iff_true_intro (isChar_indent depth)
      rw [lines, All, printable_iff, ← hchildren]
      generalize (attributes.flatMap fun (key, value) => attributeText key value) = text
      cases hempty : children.isEmpty with
      | true =>
          rw [List.isEmpty_iff] at hempty
          simp only [hempty, linesOfAll, if_true, List.forall_mem_append, List.forall_mem_cons,
            hindent]
          simp [isChar_mark]
      | false =>
          simp only [Bool.false_eq_true, if_false, List.forall_mem_append, List.forall_mem_cons,
            hindent]
          simpa [isChar_mark] using fun hname _ _ => hname

theorem isChar_linesOfAll_iff (depth : Nat) (ms : List Markup) :
    (∀ c ∈ linesOfAll depth ms, isChar c = true) ↔ AllOf Printable ms := by
  match ms with
  | [] => simp [linesOfAll, AllOf]
  | m :: ms =>
      rw [linesOfAll, AllOf, List.forall_mem_append, isChar_lines_iff depth m,
        isChar_linesOfAll_iff depth ms]

end

/-- The text of well-named markup with only characters that XML allows is well-formed. -/
theorem wellFormed_lines {m : Markup} (hnamed : m.All WellNamed) (hprintable : m.All Printable) :
    WellFormed (PageSource.prolog ++ String.ofList (m.lines 0)) := by
  obtain ⟨element, helement, hlines⟩ := exists_isElement 0 m hnamed
  have hprolog : PageSource.prolog.toList =
      "<?xml version=\"1.0\" encoding=\"UTF-8\"?>".toList ++ ['\n'] := rfl
  rw [← isChar_lines_iff 0] at hprintable
  constructor
  · rw [String.toList_append, String.toList_ofList, List.forall_mem_append]
    exact ⟨Text.forall_mem_of_all (by decide), hprintable⟩
  · have hdocument := IsDocument.intro (.inr isDeclaration_prolog) isBlank_newline helement
      isBlank_newline
    rw [String.toList_append, String.toList_ofList, hlines, hprolog]
    simpa [PageSource.indent] using hdocument

theorem isChar_of_isName {name : List Char} (h : isName name = true) :
    ∀ c ∈ name, isChar c = true := by
  intro c hc
  have hname := inRanges_of_isName h c hc
  rw [Text.inRanges_iff] at hname
  simp only [nameRanges, nameStartRanges, List.cons_append, List.nil_append, List.mem_cons,
    List.not_mem_nil, or_false, exists_eq_or_imp, exists_eq_left] at hname
  rw [PageSource.isChar_iff]
  omega

theorem printable_of_wellFormed {m : Markup}
    (h : WellFormed (PageSource.prolog ++ String.ofList (m.lines 0))) : m.All Printable := by
  have hchars := h.chars
  rw [String.toList_append, String.toList_ofList, List.forall_mem_append] at hchars
  exact (isChar_lines_iff 0 m).mp hchars.2

/-- Wrapped markup makes a well-formed text exactly if the name it is wrapped in is a name of XML
and everything in it is printable. -/
theorem wellFormed_wrap_iff {m : Markup} {options : PageSourceOptions}
    (haccepted : options.areAccepted = true) (hnamed : m.All WellNamed) :
    WellFormed (PageSource.prolog ++ String.ofList ((options.wrap m).lines 0)) ↔
      (∀ scope ∈ options.scope, isName scope.toList = true) ∧ m.All Printable := by
  obtain ⟨scope, excluded⟩ := options
  cases scope with
  | none =>
      simp only [PageSourceOptions.wrap, Option.not_mem_none, false_imp_iff, implies_true,
        true_and]
      exact ⟨printable_of_wellFormed, wellFormed_lines hnamed⟩
  | some scope =>
      simp only [PageSourceOptions.wrap, Option.mem_some_iff, forall_eq']
      constructor
      · intro h
        obtain ⟨-, hprintable, -⟩ := printable_of_wellFormed h
        refine ⟨?_, hprintable⟩
        have hlines : (element scope [] [m]).lines 0 = '<' :: (scope.toList ++
            '>' :: '\n' :: (linesOfAll 1 [m] ++ '<' :: '/' :: (scope.toList ++ ['>', '\n']))) := by
          simp [lines, PageSource.indent]
        have hdocument := h.document
        rw [String.toList_append, String.toList_ofList, hlines] at hdocument
        exact isName_of_isDocument (PageSource.isDelimiter_of_isName haccepted) rfl hdocument
      · rintro ⟨hname, hprintable⟩
        have hscope : WellNamed scope [] := ⟨hname, List.forall_mem_nil _, List.nodup_nil⟩
        have hchars : Printable scope [] :=
          ⟨isChar_of_isName hname, List.forall_mem_nil _, List.forall_mem_nil _⟩
        exact wellFormed_lines ⟨hscope, hnamed, trivial⟩ ⟨hchars, hprintable, trivial⟩

end Markup

namespace PageSource

/-- A name of an element that is ASCII is a name of XML. -/
theorem isName_toList_of_ascii {s : String} (h : isName s = true)
    (hascii : ∀ c ∈ s.toList, c.toNat < 128) : Xml.isName s.toList = true := by
  refine (isName_toList_iff h).mpr ⟨?_, ?_⟩
  · intro c hc
    have hlt := hascii c hc
    exact Bool.eq_false_iff.mpr fun hn => by
      have := (notName_of_unnamed hn).1
      omega
  · intro c hc
    have hlt := hascii c (List.mem_of_head? hc)
    exact Bool.eq_false_iff.mpr fun hn => by
      have := (notStart_of_combining (c := c) (by rw [Text.inRanges_append, hn, Bool.or_true])).1
      omega

end PageSource

namespace CaptureRequest

theorem wellNamed_element (n : SnapshotNode) (excluded : AttributeSet) :
    Markup.WellNamed n.element.name (n.element.shown excluded) where
  name := PageSource.isName_toList_of_ascii (PageSource.isName_documentName _) fun c hc => by
    have := Text.isAlpha_iff.mp (ElementType.isAlpha_of_mem_documentName hc)
    omega
  keys := by
    have hname (a : DocumentAttribute) : Xml.isName a.documentName.toList = true := by
      cases a <;> decide
    rintro ⟨key, value⟩ hmem
    obtain ⟨a, rfl, -⟩ := Element.exists_of_mem_shown hmem
    exact hname a
  nodup := by
    have hnodup : (DocumentAttribute.all.map DocumentAttribute.documentName).Nodup := by decide
    have hkeys : (n.element.shown excluded).map Prod.fst =
        ((n.element.attributes.filter fun a => !excluded.has a.1.source).map Prod.fst).map
          DocumentAttribute.documentName := by
      rw [Element.shown, List.map_map, List.map_map]
      rfl
    rw [hkeys]
    exact (((List.filter_sublist.map Prod.fst).trans n.element_attributes_sublist).map
      DocumentAttribute.documentName).nodup hnodup

/-- Whatever was captured, names are names of XML and no attribute is there twice. -/
theorem wellNamed_markup (q : CaptureRequest) (excluded : AttributeSet) (raw : RawNode) :
    (q.markup excluded 0 0 raw).All Markup.WellNamed := by
  rw [all_markup_iff q 0 0]
  intro e he
  obtain ⟨n, -, rfl⟩ := Array.mem_map.mp he
  exact wellNamed_element n excluded

theorem printable_markup_iff (q : CaptureRequest) (time serial : Nat) (excluded : AttributeSet)
    (raw : RawNode) :
    (q.markup excluded 0 0 raw).All Markup.Printable ↔
      ∀ e ∈ ((q.snapshot time raw).document serial).1.elements, ∀ a ∈ e.shown excluded,
        ∀ c ∈ a.2.toList, c ≠ '\uFFFE' ∧ c ≠ '\uFFFF' := by
  rw [all_markup_iff q time serial]
  refine forall₂_congr fun e he => ?_
  obtain ⟨n, -, rfl⟩ := Array.mem_map.mp he
  obtain ⟨hname, hkeys, -⟩ := wellNamed_element n excluded
  exact ⟨fun h => h.values, fun h => ⟨Markup.isChar_of_isName hname,
    fun a ha => Markup.isChar_of_isName (hkeys a ha), h⟩⟩

/-- Whenever page source is written, it is a well-formed document exactly if two things hold: the
name it is wrapped in has no letter or numeral that XML does not allow in a name, nor one at its
start that may not start it, and no value that is shown has one of the last two code points of the
first plane. -/
theorem wellFormed_pageSource_iff {q : CaptureRequest} {time serial : Nat} {raw : RawNode}
    {options : PageSourceOptions} {text : String}
    (h : ((q.snapshot time raw).document serial).1.pageSource options = .ok text) :
    Xml.WellFormed text ↔
      (∀ scope ∈ options.scope,
        (∀ c ∈ scope.toList, inRanges PageSource.unnamedRanges c.toNat = false) ∧
          ∀ c ∈ scope.toList.head?, inRanges PageSource.combiningRanges c.toNat = false) ∧
        ∀ e ∈ ((q.snapshot time raw).document serial).1.elements,
          ∀ a ∈ e.shown options.excluded, ∀ c ∈ a.2.toList, c ≠ '\uFFFE' ∧ c ≠ '\uFFFF' := by
  obtain ⟨haccepted, rfl⟩ := (q.pageSource_document_eq_ok_iff time serial raw options text).mp h
  rw [Markup.wellFormed_wrap_iff haccepted (q.wellNamed_markup options.excluded raw),
    q.printable_markup_iff time serial]
  refine and_congr_left fun _ => forall₂_congr fun scope hscope => ?_
  have hname : PageSource.isName scope = true := by
    rw [PageSourceOptions.areAccepted, Option.mem_def.mp hscope] at haccepted
    exact haccepted
  exact PageSource.isName_toList_iff hname

theorem wellFormed_pageSource_form : ∃ text,
    ((snapshot {} 0 form).document 0).1.pageSource ⟨some "AppiumAUT", ∅⟩ = .ok text ∧
      Xml.WellFormed text := by
  obtain ⟨text, htext⟩ : ∃ text,
      ((snapshot {} 0 form).document 0).1.pageSource ⟨some "AppiumAUT", ∅⟩ = .ok text :=
    ⟨_, (pageSource_document_eq_ok_iff {} 0 0 form _ _).mpr ⟨by decide, rfl⟩⟩
  have hscope : ∀ scope ∈ some "AppiumAUT",
      (∀ c ∈ scope.toList, inRanges PageSource.unnamedRanges c.toNat = false) ∧
        ∀ c ∈ scope.toList.head?, inRanges PageSource.combiningRanges c.toNat = false := by
    rintro scope ⟨⟩
    exact ⟨Text.forall_mem_of_all (by decide), by rintro c ⟨⟩; rfl⟩
  have hvalues : ((snapshot {} 0 form).document 0).1.elements.toList.all (fun e =>
      (e.shown ∅).all fun a => a.2.toList.all fun c => c ≠ '\uFFFE' ∧ c ≠ '\uFFFF') = true := by
    decide +kernel
  refine ⟨text, htext, (wellFormed_pageSource_iff htext).mpr ⟨hscope, ?_⟩⟩
  simpa only [List.all_eq_true, decide_eq_true_eq, Array.mem_toList_iff] using hvalues

/-- A button whose label has a code point that is no character. -/
def mislabelled : RawNode :=
  .mk ⟨some 100, 1⟩ { type := some .button, label := some "a\uFFFFb" } none

/-- The last code point of the first plane is written, and the feminine ordinal indicator is taken
for a name. -/
theorem not_wellFormed_pageSource :
    (∃ text, ((snapshot {} 0 mislabelled).document 0).1.pageSource {} = .ok text ∧
        ¬ Xml.WellFormed text) ∧
      ∃ text, ((snapshot {} 0 form).document 0).1.pageSource ⟨some "ª", ∅⟩ = .ok text ∧
        ¬ Xml.WellFormed text := by
  constructor
  · refine ⟨_, (pageSource_document_eq_ok_iff {} 0 0 mislabelled {} _).mpr ⟨by decide, rfl⟩, ?_⟩
    intro h
    exact absurd (h.chars '\uFFFF' (by decide +kernel)) (by decide)
  · have haccepted : (⟨some "ª", ∅⟩ : PageSourceOptions).areAccepted = true := by decide
    refine ⟨_, (pageSource_document_eq_ok_iff {} 0 0 form _ _).mpr ⟨haccepted, rfl⟩, ?_⟩
    intro h
    have hname := (Markup.wellFormed_wrap_iff haccepted (wellNamed_markup {} ∅ form)).mp h
    exact absurd (hname.1 "ª" rfl) (by decide)

end CaptureRequest

end UiTree
