import UiTree.Json.Reader
import UiTree.Json.Writer
import UiTree.Identity
import UiTree.Frame
import UiTree.ElementType
import UiTree.Cache.Feed

/-!
# JSON forms of domain values

Identities are written as their text, types by their short name, frames as an object of four
numbers, and events as an object with the kind of event and its data. A frame is also read from a
list of its four components, and a type from an object with its name as the only member.
-/

namespace UiTree

open Json (Value)

/-- The JSON form of an identity. -/
def Identity.toValue (i : Identity) : Value := .string i.text

/-- The identity of a JSON form. -/
def Identity.ofValue? : Value → Option Identity
  | .string s => parse? s
  | _ => none

/-- The JSON form of a type. -/
def ElementType.toValue (t : ElementType) : Value := .string t.name

/-- The type of a JSON form. -/
def ElementType.ofValue? : Value → Option ElementType
  | .string s => ofShortName? s
  | .object [(s, .null)] => ofShortName? s
  | _ => none

namespace Frame

/-- The JSON form of a frame. -/
def toValue (f : Frame) : Value :=
  .object [("x", .number (.float f.x)), ("y", .number (.float f.y)),
    ("width", .number (.float f.width)), ("height", .number (.float f.height))]

/-- The measure of the only member with a name. -/
def member? (members : List (String × Value)) (name : String) : Option Float :=
  match members.filter (·.1 == name) with
  | [(_, v)] => v.toMeasure?
  | _ => none

/-- The frame of a JSON form. Members with other names are ignored. -/
def ofValue? : Value → Option Frame
  | .object members => do
    some ⟨← member? members "x", ← member? members "y", ← member? members "width",
      ← member? members "height"⟩
  | .array [x, y, width, height] => do
    some ⟨← x.toMeasure?, ← y.toMeasure?, ← width.toMeasure?, ← height.toMeasure?⟩
  | _ => none

end Frame

/-- The name of a reason in the data of an event. -/
def Eviction.name : Eviction → String
  | capacity => "capacity"
  | stale => "stale"

namespace CacheEvent

/-- The kind of an event. -/
def kind : CacheEvent → String
  | stored _ => "element:stored"
  | evicted _ _ => "element:evicted"
  | reset _ => "cache:reset"

/-- The data of an event. -/
def data : CacheEvent → Value
  | stored i => .object [("identity", i.toValue)]
  | evicted i reason => .object [("identity", i.toValue), ("reason", .string reason.name)]
  | reset dropped => .object [("dropped", .ofCount (UInt64.ofNat dropped))]

/-- The JSON form of an event. -/
def toValue (e : CacheEvent) : Value :=
  .object [("event", .string e.kind), ("data", e.data)]

end CacheEvent

end UiTree
