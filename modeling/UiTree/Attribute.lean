/-!
# Attributes of elements

The closed set of attributes that a snapshot can hold or a locator can test. Every attribute has a
long name, which clients use, and a short name. Documents show a frame as four attributes and
never show the identity, so the attributes of a document are a set of their own.

## Implementation notes

A set of attributes is its membership test. Two sets with the same members are equal, and union
and filtering need no representation.
-/

namespace UiTree

/-- An attribute of an element. -/
inductive Attribute where
  | type | value | name | label | enabled | visible | selected | accessible | container | focused
  | frame | index | traits | uid
deriving DecidableEq, Repr

namespace Attribute

/-- Every attribute, in the order in which attributes are listed. -/
def all : List Attribute :=
  [.type, .value, .name, .label, .enabled, .visible, .selected, .accessible, .container, .focused,
    .frame, .index, .traits, .uid]

theorem mem_all (a : Attribute) : a ∈ all := by
  cases a <;> decide

/-- The name clients use. -/
def longName : Attribute → String
  | type => "wdType"
  | value => "wdValue"
  | name => "wdName"
  | label => "wdLabel"
  | enabled => "wdEnabled"
  | visible => "wdVisible"
  | selected => "wdSelected"
  | accessible => "wdAccessible"
  | container => "wdAccessibilityContainer"
  | focused => "wdFocused"
  | frame => "wdRect"
  | index => "wdIndex"
  | traits => "wdTraits"
  | uid => "wdUID"

/-- The name that may stand in place of the long one. -/
def shortName : Attribute → String
  | type => "type"
  | value => "value"
  | name => "name"
  | label => "label"
  | enabled => "enabled"
  | visible => "visible"
  | selected => "selected"
  | accessible => "accessible"
  | container => "accessibilityContainer"
  | focused => "focused"
  | frame => "rect"
  | index => "index"
  | traits => "traits"
  | uid => "UID"

/-- Further names of an attribute. -/
def otherNames : Attribute → List String
  | frame => ["wdFrame", "frame"]
  | uid => ["uid"]
  | _ => []

/-- The names by which an attribute is found. -/
def names (a : Attribute) : List String :=
  a.longName :: a.shortName :: a.otherNames

/-- The attribute that has a name. No name belongs to two attributes. -/
def ofName? (s : String) : Option Attribute :=
  all.find? (·.names.contains s)

/-- The index comes from the shape of the tree and the identity from the reference; every other
attribute has to be fetched from the provider. -/
def isProvided : Attribute → Bool
  | index | uid => false
  | _ => true

end Attribute

/-- A set of attributes. -/
structure AttributeSet where
  has : Attribute → Bool

namespace AttributeSet

instance : Membership Attribute AttributeSet where
  mem s a := s.has a = true

instance (a : Attribute) (s : AttributeSet) : Decidable (a ∈ s) :=
  inferInstanceAs (Decidable (s.has a = true))

@[ext] theorem ext {s t : AttributeSet} (h : ∀ a, a ∈ s ↔ a ∈ t) : s = t := by
  obtain ⟨f⟩ := s
  obtain ⟨g⟩ := t
  congr
  funext a
  exact Bool.eq_iff_iff.mpr (h a)

instance : BEq AttributeSet where
  beq s t := Attribute.all.all fun a => s.has a == t.has a

theorem beq_iff_eq {s t : AttributeSet} : (s == t) = true ↔ s = t := by
  constructor
  · intro h
    ext a
    have := List.all_eq_true.mp h a a.mem_all
    exact Bool.eq_iff_iff.mp (eq_of_beq this)
  · rintro rfl
    exact List.all_eq_true.mpr fun a _ => beq_self_eq_true _

/-- The set without members. -/
def empty : AttributeSet := ⟨fun _ => false⟩

/-- The set of all attributes. -/
def all : AttributeSet := ⟨fun _ => true⟩

instance : Inhabited AttributeSet := ⟨empty⟩
instance : EmptyCollection AttributeSet := ⟨empty⟩

/-- The members of either set. -/
def union (s t : AttributeSet) : AttributeSet := ⟨fun a => s.has a || t.has a⟩

instance : Union AttributeSet := ⟨union⟩

/-- The members for which a test holds. -/
def filter (p : Attribute → Bool) (s : AttributeSet) : AttributeSet := ⟨fun a => s.has a && p a⟩

/-- The set of the attributes in a list. -/
def ofList (as : List Attribute) : AttributeSet := ⟨fun a => as.contains a⟩

/-- The members in the order in which attributes are listed. -/
def toList (s : AttributeSet) : List Attribute := Attribute.all.filter s.has

/-- Whether the set has no member. -/
def isEmpty (s : AttributeSet) : Bool := s.toList.isEmpty

@[simp] theorem not_mem_empty (a : Attribute) : a ∉ (∅ : AttributeSet) := Bool.false_ne_true

@[simp] theorem mem_all (a : Attribute) : a ∈ all := rfl

@[simp] theorem mem_union {a : Attribute} {s t : AttributeSet} : a ∈ s ∪ t ↔ a ∈ s ∨ a ∈ t :=
  Bool.or_eq_true_iff

@[simp] theorem mem_filter {a : Attribute} {p : Attribute → Bool} {s : AttributeSet} :
    a ∈ s.filter p ↔ a ∈ s ∧ p a = true :=
  Bool.and_eq_true_iff

@[simp] theorem mem_ofList {a : Attribute} {as : List Attribute} : a ∈ ofList as ↔ a ∈ as :=
  List.contains_iff_mem

@[simp] theorem mem_toList {a : Attribute} {s : AttributeSet} : a ∈ s.toList ↔ a ∈ s := by
  simp only [toList, List.mem_filter, a.mem_all, true_and]
  rfl

/-- What is compared while waiting for an element to settle. -/
def stability : AttributeSet := ofList [.frame, .enabled, .visible]

/-- What is compared when an element without identity is looked for again. -/
def relocation : AttributeSet := ofList [.frame, .label, .name, .value]

/-- The members that have to be fetched from a provider. -/
def provided (s : AttributeSet) : AttributeSet := s.filter Attribute.isProvided

end AttributeSet

/-- An attribute of an element in a document. -/
inductive DocumentAttribute where
  | type | value | name | label | enabled | visible | selected | accessible | container | focused
  | x | y | width | height | index | traits
deriving DecidableEq, Repr

namespace DocumentAttribute

/-- Every attribute of a document, in the order in which elements list them. -/
def all : List DocumentAttribute :=
  [.type, .value, .name, .label, .enabled, .visible, .selected, .accessible, .container, .focused,
    .x, .y, .width, .height, .index, .traits]

theorem mem_all (a : DocumentAttribute) : a ∈ all := by
  cases a <;> decide

theorem nodup_all : all.Nodup := by
  decide

/-- The attribute of the snapshot that an attribute of the document shows. -/
def source : DocumentAttribute → Attribute
  | type => .type
  | value => .value
  | name => .name
  | label => .label
  | enabled => .enabled
  | visible => .visible
  | selected => .selected
  | accessible => .accessible
  | container => .container
  | focused => .focused
  | x | y | width | height => .frame
  | index => .index
  | traits => .traits

/-- The name in the document: the short name of the source, or the component of the frame. -/
def documentName : DocumentAttribute → String
  | x => "x"
  | y => "y"
  | width => "width"
  | height => "height"
  | a => a.source.shortName

/-- The attribute with a name in the document. -/
def ofName? (s : String) : Option DocumentAttribute :=
  all.find? (·.documentName == s)

end DocumentAttribute

end UiTree
