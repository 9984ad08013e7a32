import UiTree.Error
import Std.Data.HashMap

/-!
# Maps that forget the least recently used entry

A map of bounded size. Reading or writing an entry makes it the most recently used one, and a new
key that finds the map full takes the place of the least recently used entry.

## Implementation notes

Entries stand in slots, which are linked into a list from the most to the least recently used one,
in both directions. An index gives the slot of each key, and a stack holds the slots that were
emptied. Looking up, linking and unlinking take a fixed number of steps.
-/

namespace UiTree

variable {K V : Type}

/-- A place for an entry, linked to its neighbours in the order of use. -/
structure Slot (K V : Type) where
  entry : Option (K × V)
  /-- The slot used next more recently. -/
  prev : Option Nat
  /-- The slot used next less recently. -/
  next : Option Nat

/-- A map of at most `capacity` entries. -/
structure Lru (K V : Type) [BEq K] [Hashable K] where
  index : Std.HashMap K Nat
  slots : Array (Slot K V)
  /-- The emptied slots; the one emptied last comes first. -/
  free : List Nat
  /-- The most recently used slot. -/
  head : Option Nat
  /-- The least recently used slot. -/
  tail : Option Nat
  capacity : Nat
  capacity_pos : 0 < capacity

namespace Lru

variable [BEq K] [Hashable K]

/-- The empty map. -/
def empty (capacity : Nat) (h : 0 < capacity) : Lru K V :=
  ⟨∅, #[], [], none, none, capacity, h⟩

/-- The empty map, unless the capacity is zero. -/
def create (capacity : Nat) : Outcome (Lru K V) :=
  if h : 0 < capacity then .ok (empty capacity h)
  else .error (.invalidArgument .capacityNotPositive)

/-- The number of entries. -/
def size (c : Lru K V) : Nat := c.index.size

/-- Whether there is no entry. -/
def isEmpty (c : Lru K V) : Bool := c.index.isEmpty

/-- Change a slot. -/
def modifySlot (c : Lru K V) (i : Nat) (f : Slot K V → Slot K V) : Lru K V :=
  { c with slots := c.slots.modify i f }

/-- Set the less recently used neighbour of a slot, or the head when there is no slot. -/
def setNext (c : Lru K V) (i : Option Nat) (next : Option Nat) : Lru K V :=
  match i with
  | none => { c with head := next }
  | some i => c.modifySlot i fun s => { s with next }

/-- Set the more recently used neighbour of a slot, or the tail when there is no slot. -/
def setPrev (c : Lru K V) (i : Option Nat) (prev : Option Nat) : Lru K V :=
  match i with
  | none => { c with tail := prev }
  | some i => c.modifySlot i fun s => { s with prev }

/-- Take a slot out of the order of use. -/
def unlink (c : Lru K V) (i : Nat) : Lru K V :=
  match c.slots[i]? with
  | none => c
  | some s =>
    ((c.setNext s.prev s.next).setPrev s.next s.prev).modifySlot i fun s =>
      { s with prev := none, next := none }

/-- Make a slot that is not linked the most recently used one. -/
def pushFront (c : Lru K V) (i : Nat) : Lru K V :=
  let linked := (c.modifySlot i fun s => { s with prev := none, next := c.head }).setPrev c.head
    (some i)
  { linked with head := some i }

/-- Make a linked slot the most recently used one. -/
def promote (c : Lru K V) (i : Nat) : Lru K V :=
  if c.head = some i then c else (c.unlink i).pushFront i

/-- Put an entry into an empty slot, or into a new one. -/
def allocate (c : Lru K V) (key : K) (value : V) : Nat × Lru K V :=
  let slot := ⟨some (key, value), none, none⟩
  match c.free with
  | i :: free => (i, { c with free, slots := c.slots.modify i fun _ => slot })
  | [] => (c.slots.size, { c with slots := c.slots.push slot })

/-- Empty a slot. The second component was its entry. -/
def release (c : Lru K V) (i : Nat) : Lru K V × Option (K × V) :=
  ({ c.modifySlot i (fun s => { s with entry := none }) with free := i :: c.free },
    (c.slots[i]?).bind (·.entry))

/-- Drop the least recently used entry. -/
def dropLast (c : Lru K V) : Lru K V × Option (K × V) :=
  match c.tail with
  | none => (c, none)
  | some i =>
    match (c.unlink i).release i with
    | (c, some entry) => ({ c with index := c.index.erase entry.1 }, some entry)
    | (c, none) => (c, none)

/-- Write an entry. The second component is the entry that was dropped to make room. -/
def put (c : Lru K V) (key : K) (value : V) : Lru K V × Option (K × V) :=
  match c.index[key]? with
  | some i =>
    ((c.modifySlot i fun s => { s with entry := some (key, value) }).promote i, none)
  | none =>
    let (c, dropped) := if c.capacity ≤ c.size then c.dropLast else (c, none)
    let (i, c) := c.allocate key value
    let c := c.pushFront i
    ({ c with index := c.index.insert key i }, dropped)

/-- The value in a slot. -/
def valueAt? (c : Lru K V) (i : Nat) : Option V :=
  ((c.slots[i]?).bind (·.entry)).map (·.2)

/-- Read a value, which makes its entry the most recently used one. -/
def get (c : Lru K V) (key : K) : Lru K V × Option V :=
  match c.index[key]? with
  | none => (c, none)
  | some i => let c := c.promote i; (c, c.valueAt? i)

/-- Change a value, which makes its entry the most recently used one. The second component is the
new value. -/
def modify (c : Lru K V) (key : K) (f : V → V) : Lru K V × Option V :=
  match c.index[key]? with
  | none => (c, none)
  | some i =>
    let c := (c.promote i).modifySlot i fun s =>
      { s with entry := s.entry.map fun (k, v) => (k, f v) }
    (c, c.valueAt? i)

/-- Read a value and leave the order of use as it is. -/
def peek? (c : Lru K V) (key : K) : Option V :=
  (c.index[key]?).bind c.valueAt?

/-- Whether there is an entry with a key. -/
def contains (c : Lru K V) (key : K) : Bool :=
  c.index.contains key

/-- Remove an entry. The second component is its value. -/
def remove (c : Lru K V) (key : K) : Lru K V × Option V :=
  match c.index[key]? with
  | none => (c, none)
  | some i =>
    let (c, entry) := ({ c with index := c.index.erase key }.unlink i).release i
    (c, entry.map (·.2))

/-- At most `limit` entries from a slot on. -/
def entriesFrom (c : Lru K V) : Nat → Option Nat → List (K × V)
  | 0, _ => []
  | _, none => []
  | limit + 1, some i =>
    match c.slots[i]? with
    | some ⟨some entry, _, next⟩ => entry :: c.entriesFrom limit next
    | _ => []

/-- The entries from the most to the least recently used one. -/
def toList (c : Lru K V) : List (K × V) :=
  c.entriesFrom c.slots.size c.head

/-- The values from the most to the least recently used one. -/
def values (c : Lru K V) : List V :=
  c.toList.map (·.2)

/-- Drop every entry. -/
def clear (c : Lru K V) : Lru K V :=
  empty c.capacity c.capacity_pos

end Lru

end UiTree
