import UiTree.Ascending
import UiTree.Number.Hex

/-!
# References and identities of nodes

A provider hands out references. A reference whose owning process is known and whose element is
not the null element determines the identity of a node; labels, frames and values never do. An
identity is written as five groups of hexadecimal digits: the upper half of the element, two
quarters of the lower half, a group of zeros and the process.

## Implementation notes

A group of digits may be led by a plus sign when it is read. The writer never puts one.
-/

namespace UiTree

/-- A provider's reference to an element. The process is unknown until the provider has resolved
the reference. -/
structure NodeRef where
  process : Option UInt32
  element : UInt64
deriving DecidableEq, Repr, Inhabited

/-- The identity of a node. -/
structure Identity where
  process : UInt32
  element : UInt64
deriving DecidableEq, Hashable, Repr, Inhabited

/-- Why a reference determines no identity. -/
inductive Unidentified where
  | noProcess (element : UInt64)
  | nullElement (process : UInt32)
deriving DecidableEq, Repr

/-- A missing process is reported before a null element. -/
def NodeRef.identity (r : NodeRef) : Except Unidentified Identity :=
  match r.process with
  | none => .error (.noProcess r.element)
  | some process =>
    if r.element = 0 then .error (.nullElement process) else .ok ⟨process, r.element⟩

/-- The identity that a reference determines, if it determines one. -/
def NodeRef.identity? (r : NodeRef) : Option Identity :=
  r.identity.toOption

namespace Identity

/-- The reference an identity was derived from. -/
def ref (i : Identity) : NodeRef :=
  ⟨some i.process, i.element⟩

theorem identity?_eq_some_iff {r : NodeRef} {i : Identity} :
    r.identity? = some i ↔ r = i.ref ∧ i.element ≠ 0 := by
  obtain ⟨process, element⟩ := r
  obtain ⟨p, e⟩ := i
  cases process with
  | none => simp [NodeRef.identity?, NodeRef.identity, ref, Except.toOption]
  | some q =>
      by_cases h : element = 0
      · simp [NodeRef.identity?, NodeRef.identity, ref, Except.toOption, h]
        rintro - rfl
        simp
      · simp [NodeRef.identity?, NodeRef.identity, ref, Except.toOption, h]
        rintro - rfl
        exact h

/-- Identities are ordered by process, then by element. -/
def before (a b : Identity) : Bool :=
  a.process < b.process || (a.process == b.process && a.element < b.element)

/-- Some identities in order, each once. -/
def inOrder (is : List Identity) : List Identity :=
  Ascending.ofList before is

/-- The groups of an identity's text. -/
def groups (i : Identity) : List (List Char) :=
  let element := i.element.toNat
  [Number.hexText 8 (element >>> 32), Number.hexText 4 (element >>> 16),
    Number.hexText 4 element, Number.hexText 4 0, Number.hexText 12 i.process.toNat]

/-- The text of an identity. -/
def text (i : Identity) : String :=
  String.ofList (List.intercalate ['-'] i.groups)

/-- The parts of a text between hyphens. -/
def splitGroups : List Char → List (List Char)
  | [] => [[]]
  | c :: rest =>
    if c == '-' then [] :: splitGroups rest
    else match splitGroups rest with
      | [] => [[c]]
      | group :: groups => (c :: group) :: groups

/-- The number that a group of digits stands for. -/
def groupValue? (group : List Char) : Option Nat :=
  let digits := match group with
    | '+' :: rest => rest
    | _ => group
  if digits.isEmpty then none else Number.hexValue? 0 digits

/-- The identity that a text spells. -/
def parse? (s : String) : Option Identity :=
  match splitGroups s.toList with
  | [high, middle, low, zero, process] =>
    if high.length = 8 ∧ middle.length = 4 ∧ low.length = 4 ∧ zero = ['0', '0', '0', '0'] ∧
        process.length = 12 then do
      let high ← groupValue? high
      let middle ← groupValue? middle
      let low ← groupValue? low
      let process ← groupValue? process
      if process < UInt32.size then
        some ⟨UInt32.ofNat process, UInt64.ofNat (high <<< 32 ||| middle <<< 16 ||| low)⟩
      else none
    else none
  | _ => none

end Identity

end UiTree
