import UiTree.Document.Basic
import UiTree.Error
import UiTree.Text.CharClass

/-!
# Page source

A document written as XML text: one line for each tag, two spaces of indentation for each level,
attributes in double quotes. The whole tree may be wrapped in one more element, and attributes may
be left out.

## Implementation notes

Markup characters and line feeds are written as references. Control characters other than tab,
line feed and carriage return cannot stand in a document and are dropped.
-/

namespace UiTree

/-- What page source is to look like. -/
structure PageSourceOptions where
  /-- The name of the element to wrap the tree in. -/
  scope : Option String := none
  /-- The attributes to leave out. Leaving out the frame leaves out its four components. -/
  excluded : AttributeSet := ∅

namespace PageSource

/-- A letter or an underscore, then letters, digits, hyphens, points and underscores. -/
def isName (s : String) : Bool :=
  match s.toList with
  | [] => false
  | c :: rest =>
    (Text.isAlphabetic c || c == '_') &&
      rest.all fun c => Text.isAlphanumeric c || c == '-' || c == '.' || c == '_'

/-- A character as it stands in the value of an attribute. -/
def escapeChar (c : Char) : List Char :=
  match c with
  | '&' => "&amp;".toList
  | '<' => "&lt;".toList
  | '>' => "&gt;".toList
  | '"' => "&quot;".toList
  | '\'' => "&apos;".toList
  | '\n' => "&#10;".toList
  | '\t' => ['\t']
  | '\r' => ['\r']
  | c => if Text.isControl c then [] else [c]

/-- The value of an attribute as it stands between its quotes. -/
def escape (s : String) : List Char :=
  s.toList.flatMap escapeChar

/-- One attribute with the space before it. -/
def attributeText (a : DocumentAttribute) (value : String) : List Char :=
  ' ' :: a.documentName.toList ++ '=' :: '"' :: escape value ++ ['"']

/-- The attributes of an element that are not left out. -/
def attributesText (excluded : AttributeSet) (e : Element) : List Char :=
  (e.attributes.filter fun (a, _) => !excluded.has a.source).flatMap fun (a, value) =>
    attributeText a value

/-- Two spaces for each level. -/
def indent (depth : Nat) : List Char :=
  List.replicate (2 * depth) ' '

/-- The lines of an element and of its descendants at most `levels` below it. -/
def elementText (d : Document) (excluded : AttributeSet) : Nat → Nat → Nat → List Char
  | 0, _, _ => []
  | levels + 1, depth, i =>
    match d.element? i with
    | none => []
    | some e =>
      let start := indent depth ++ '<' :: e.name.toList ++ attributesText excluded e
      if e.children.isEmpty then start ++ ['/', '>', '\n']
      else
        start ++ '>' :: '\n' ::
          e.children.flatMap (elementText d excluded levels (depth + 1)) ++
          indent depth ++ '<' :: '/' :: e.name.toList ++ ['>', '\n']

/-- The first line of page source. -/
def prolog : String := "<?xml version=\"1.0\" encoding=\"UTF-8\"?>\n"

/-- The lines of the whole tree, at a depth. -/
def treeText (d : Document) (excluded : AttributeSet) (depth : Nat) : List Char :=
  elementText d excluded d.size depth 0

/-- The lines of a tree wrapped in an element. -/
def wrapped (scope : String) (inside : List Char) : List Char :=
  '<' :: scope.toList ++ '>' :: '\n' :: inside ++ '<' :: '/' :: scope.toList ++ ['>', '\n']

end PageSource

/-- The page source of a document. The name of the wrapping element is checked first. -/
def Document.pageSource (d : Document) (options : PageSourceOptions) : Outcome String :=
  match options.scope with
  | none => .ok (PageSource.prolog ++ String.ofList (PageSource.treeText d options.excluded 0))
  | some scope =>
    if PageSource.isName scope then
      .ok (PageSource.prolog ++
        String.ofList (PageSource.wrapped scope (PageSource.treeText d options.excluded 1)))
    else .error (.invalidArgument (.notAnXmlName scope))

end UiTree
