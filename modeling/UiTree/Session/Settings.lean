import UiTree.Json.Reader
import UiTree.Provider.Call

/-!
# Settings of a session

Settings have defaults, are read from JSON text, and can be changed by a JSON object that names
some of them. Whatever way they come about, they are checked before they are used.

## Implementation notes

Changing settings writes the present ones as an object, puts the given members in place of its
own, and reads the result. A tolerance that is not finite has no JSON form and is written as null,
which cannot be read, so it has to be among the members given.
-/

namespace UiTree

/-- The settings of a session. -/
structure Settings where
  /-- How many handles are cached at most. -/
  elementCacheSize : UInt64 := 1024
  /-- How many levels below its target a capture takes in. -/
  snapshotMaxDepth : UInt64 := 50
  /-- By how much a component of a frame may differ, in points. -/
  frameEpsilon : Float := 0.5
  /-- The pause between two readings while waiting for an element to settle. -/
  stabilityPollIntervalMs : UInt64 := 50
  /-- How long to wait for an element to settle. -/
  stabilityTimeoutMs : UInt64 := 10000
  /-- The budget of a call of the provider. -/
  axTimeoutMs : UInt64 := 10000
deriving Repr

instance : Inhabited Settings := ⟨{}⟩

/-- The names of the settings. -/
inductive Setting where
  | elementCacheSize | snapshotMaxDepth | frameEpsilon | stabilityPollIntervalMs
  | stabilityTimeoutMs | axTimeoutMs
deriving DecidableEq, Repr

namespace Setting

/-- Every setting, in order. -/
def all : List Setting :=
  [.elementCacheSize, .snapshotMaxDepth, .frameEpsilon, .stabilityPollIntervalMs,
    .stabilityTimeoutMs, .axTimeoutMs]

/-- The name of a setting as the member of an object. -/
def name : Setting → String
  | elementCacheSize => "elementCacheSize"
  | snapshotMaxDepth => "snapshotMaxDepth"
  | frameEpsilon => "frameEpsilon"
  | stabilityPollIntervalMs => "stabilityPollIntervalMs"
  | stabilityTimeoutMs => "stabilityTimeoutMs"
  | axTimeoutMs => "axTimeoutMs"

/-- The setting with a name. -/
def ofName? (s : String) : Option Setting :=
  all.find? (·.name == s)

/-- A measure as a value. What is not finite has no form of its own. -/
def measureValue (x : Float) : Json.Value :=
  if Number.isFinite x then .number (.float x) else .null

/-- The value of a setting. -/
def get (s : Settings) : Setting → Json.Value
  | elementCacheSize => .ofCount s.elementCacheSize
  | snapshotMaxDepth => .ofCount s.snapshotMaxDepth
  | frameEpsilon => measureValue s.frameEpsilon
  | stabilityPollIntervalMs => .ofCount s.stabilityPollIntervalMs
  | stabilityTimeoutMs => .ofCount s.stabilityTimeoutMs
  | axTimeoutMs => .ofCount s.axTimeoutMs

/-- Give a setting a value, if the value is of the right kind. -/
def set? (s : Settings) (v : Json.Value) : Setting → Option Settings
  | elementCacheSize => v.toCount?.map fun n => { s with elementCacheSize := n }
  | snapshotMaxDepth => v.toCount?.map fun n => { s with snapshotMaxDepth := n }
  | frameEpsilon => v.toMeasure?.map fun x => { s with frameEpsilon := x }
  | stabilityPollIntervalMs => v.toCount?.map fun n => { s with stabilityPollIntervalMs := n }
  | stabilityTimeoutMs => v.toCount?.map fun n => { s with stabilityTimeoutMs := n }
  | axTimeoutMs => v.toCount?.map fun n => { s with axTimeoutMs := n }

end Setting

namespace Settings

/-- Give settings the values of some members. Every member has to name a setting. -/
def withMembers? (s : Settings) : List (String × Json.Value) → Option Settings
  | [] => some s
  | (name, v) :: rest => do
    let setting ← Setting.ofName? name
    (← setting.set? s v).withMembers? rest

/-- The settings that an object gives. No member may repeat a name. -/
def ofMembers? (members : List (String × Json.Value)) : Option Settings :=
  if (members.map (·.1)).Nodup then ({} : Settings).withMembers? members else none

/-- The settings that a value gives: an object, or a list of the first settings in order. -/
def ofValue? : Json.Value → Option Settings
  | .object members => ofMembers? members
  | .array items =>
    if items.length ≤ Setting.all.length then
      ({} : Settings).withMembers? ((Setting.all.map Setting.name).zip items)
    else none
  | _ => none

/-- The members of settings as an object. -/
def members (s : Settings) : List (String × Json.Value) :=
  Setting.all.map fun setting => (setting.name, setting.get s)

/-- Put a member in place of the one with its name, or at the end. -/
def putMember (name : String) (v : Json.Value) :
    List (String × Json.Value) → List (String × Json.Value)
  | [] => [(name, v)]
  | (n, w) :: rest => if n = name then (n, v) :: rest else (n, w) :: putMember name v rest

/-- Some members overridden by others; of those with one name, the last counts. -/
def overlay (members patch : List (String × Json.Value)) : List (String × Json.Value) :=
  patch.foldl (fun found (name, v) => putMember name v found) members

/-- The settings, unless they cannot be used. -/
def checked (s : Settings) : Outcome Settings :=
  if s.elementCacheSize = 0 then .error (.invalidArgument .cacheSizeNotPositive)
  else if !Number.isFinite s.frameEpsilon || s.frameEpsilon < 0 then
    .error (.invalidArgument (.epsilonUnusable s.frameEpsilon))
  else if s.stabilityPollIntervalMs = 0 then .error (.invalidArgument .pollIntervalNotPositive)
  else .ok s

/-- Check settings that were read. -/
def checkedRead : Option Settings → Outcome Settings
  | none => .error (.invalidArgument .settingsUnreadable)
  | some s => s.checked

/-- The settings that a text gives. -/
def ofText (text : String) : Outcome Settings :=
  checkedRead ((Json.parse text).bind ofValue?)

/-- The settings changed by the members of an object. -/
def merge (s : Settings) : Json.Value → Outcome Settings
  | .object patch => checkedRead (ofMembers? (overlay s.members patch))
  | _ => .error (.invalidArgument .settingsNotAnObject)

/-- The settings as a JSON value. -/
def toValue (s : Settings) : Json.Value := .object s.members

/-- A capture of some attributes with the depth and the budget of the settings. -/
def captureRequest (s : Settings) (attributes : AttributeSet) : CaptureRequest where
  attributes := attributes
  maxDepth := s.snapshotMaxDepth.toNat
  timeout := ofMilliseconds s.axTimeoutMs.toNat

/-- The budget of a call. -/
def axTimeout (s : Settings) : Nat := ofMilliseconds s.axTimeoutMs.toNat

/-- How long to wait for an element to settle. -/
def stabilityTimeout (s : Settings) : Nat := ofMilliseconds s.stabilityTimeoutMs.toNat

/-- The pause between two readings. -/
def pollInterval (s : Settings) : Nat := ofMilliseconds s.stabilityPollIntervalMs.toNat

end Settings

end UiTree
