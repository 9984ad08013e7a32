import UiTree.Provider.Call

/-!
# A provider in memory

A live tree that can be changed and captured, with failures and changes that were scheduled ahead.
Failures in the queue come first. Then the target may have a script, whose entries are used one
after the other: an entry is a failure, or a change that is made to the reported copy of the
target. The reported subtree is complete, whatever depth and attributes were asked for.
-/

namespace UiTree

namespace RawNode

mutual

/-- The first node, in document order, for which a test holds. -/
def find? (p : RawNode → Bool) (n : RawNode) : Option RawNode :=
  match n with
  | mk ref properties none => if p n then some (mk ref properties none) else none
  | mk ref properties (some children) =>
    if p n then some (mk ref properties (some children)) else findIn? p children

/-- The first node of some subtrees for which a test holds. -/
def findIn? (p : RawNode → Bool) : List RawNode → Option RawNode
  | [] => none
  | n :: rest => (find? p n).or (findIn? p rest)

end

mutual

/-- Change the first node, in document order, for which a test holds. -/
def changeFirst? (p : RawNode → Bool) (f : RawNode → RawNode) (n : RawNode) : Option RawNode :=
  match n with
  | mk _ _ none => if p n then some (f n) else none
  | mk ref properties (some children) =>
    if p n then some (f n)
    else (changeFirstIn? p f children).map fun children => mk ref properties (some children)

/-- Change the first node of some subtrees for which a test holds. -/
def changeFirstIn? (p : RawNode → Bool) (f : RawNode → RawNode) :
    List RawNode → Option (List RawNode)
  | [] => none
  | n :: rest =>
    match changeFirst? p f n with
    | some n => some (n :: rest)
    | none => (changeFirstIn? p f rest).map (n :: ·)

end

mutual

/-- Remove every descendant for which a test holds, with its subtree. -/
def prune (p : RawNode → Bool) : RawNode → RawNode
  | mk ref properties none => mk ref properties none
  | mk ref properties (some children) => mk ref properties (some (pruneIn p children))

/-- Remove those of some subtrees for which a test holds, and prune the others. -/
def pruneIn (p : RawNode → Bool) : List RawNode → List RawNode
  | [] => []
  | n :: rest => if p n then pruneIn p rest else prune p n :: pruneIn p rest

end

/-- The node without its children. -/
def alone (n : RawNode) : RawNode := mk n.ref n.properties none

end RawNode

/-- A failure that is scheduled. -/
inductive Failure where
  /-- The call runs into its budget, whatever that is. -/
  | budget
  | timeout (duration : Nat)
  | notFound
  | failed (reason : String)
deriving DecidableEq, Repr

/-- The failure of a call with a budget. -/
def Failure.error (budget : Nat) : Failure → ProviderError
  | .budget => .timeout budget
  | .timeout duration => .timeout duration
  | .notFound => .notFound
  | .failed reason => .failed reason

/-- What a script does to one capture of its target. -/
inductive ScriptEntry where
  | fail (f : Failure)
  | change (f : RawNode → RawNode)

/-- What happens to the captures of a target, one after the other. The last entry is used again
and again; in a cycle every used entry goes to the end. -/
structure Script where
  entries : List ScriptEntry
  cycle : Bool

/-- The entry to use next, and the script after it. -/
def Script.next (s : Script) : Option ScriptEntry × Script :=
  match s.entries with
  | [] => (none, s)
  | [e] => (some e, s)
  | e :: rest => (some e, { s with entries := if s.cycle then rest ++ [e] else rest })

/-- A tree that can be captured. -/
structure LiveTree where
  root : RawNode
  /-- What the next captures fail with; `none` lets one succeed. -/
  failures : List (Option Failure) := []
  /-- The scripts by element. -/
  scripts : List (UInt64 × Script) := []
  /-- What the active roots are, if not the root of the tree. -/
  roots : Option (Except Failure (List RawNode)) := none

namespace LiveTree

/-- The budget of listing the active roots. -/
def rootsBudget : Nat := ofMilliseconds 777

/-- The roots of the active applications. -/
def activeRoots (t : LiveTree) : Except ProviderError (List RawNode) :=
  match t.roots with
  | none => .ok [t.root.alone]
  | some (.ok roots) => .ok roots
  | some (.error f) => .error (f.error rootsBudget)

/-- Take the failure at the head of the queue. -/
def takeFailure (t : LiveTree) : Option Failure × LiveTree :=
  match t.failures with
  | [] => (none, t)
  | f :: rest => (f, { t with failures := rest })

/-- Take the next entry of an element's script. -/
def takeEntry (t : LiveTree) (element : UInt64) : Option ScriptEntry × LiveTree :=
  match t.scripts.lookup element with
  | none => (none, t)
  | some s =>
    let (e, s) := s.next
    (e, { t with scripts := (element, s) :: t.scripts.filter (·.1 != element) })

/-- Give an element a script. -/
def setScript (t : LiveTree) (element : UInt64) (s : Script) : LiveTree :=
  { t with scripts := (element, s) :: t.scripts.filter (·.1 != element) }

/-- The first node with a reference. -/
def report (t : LiveTree) (target : NodeRef) : Except ProviderError RawNode :=
  match t.root.find? (·.ref == target) with
  | some n => .ok n
  | none => .error .notFound

/-- Capture a target. -/
def capture (t : LiveTree) (target : NodeRef) (budget : Nat) :
    Except ProviderError RawNode × LiveTree :=
  match t.takeFailure with
  | (some f, t) => (.error (f.error budget), t)
  | (none, t) =>
    match t.takeEntry target.element with
    | (some (.fail f), t) => (.error (f.error budget), t)
    | (some (.change f), t) => ((t.report target).map f, t)
    | (none, t) => (t.report target, t)

/-- Change the first node with an element, if there is one. -/
def update? (t : LiveTree) (element : UInt64) (f : RawNode → RawNode) : Option LiveTree :=
  (t.root.changeFirst? (·.ref.element == element) f).map fun root => { t with root }

/-- Remove every node below the root with an element. -/
def remove (t : LiveTree) (element : UInt64) : LiveTree :=
  { t with root := t.root.prune (·.ref.element == element) }

end LiveTree

end UiTree
