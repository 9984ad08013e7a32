import UiTree.Query.Evaluation
import UiTree.Predicate.Reader
import UiTree.Document.PageSource
import UiTree.Cache.Elements
import UiTree.Session.Settings

/-!
# Finding elements

Elements are located by a query or by a predicate, in a fresh capture of a cached element or of
the frontmost application. What is found is cached as far as it has an identity.
-/

namespace UiTree

/-- How to find elements. -/
inductive Locator where
  | query (q : Query.Compiled)
  | predicate (p : Predicate)

namespace Locator

/-- A locator by query text. -/
def ofQuery (text : String) : Outcome Locator :=
  (Query.compile text).map .query

/-- A locator by predicate text. -/
def ofPredicate (text : String) : Outcome Locator :=
  (Predicate.parse text).map .predicate

/-- The attributes that the locator itself reads. -/
def reads : Locator → AttributeSet
  | query q => q.attributes
  | predicate p => p.attributes

/-- The attributes to capture: besides those that are read, the type, the frame and the texts, so
that a match can be found again. -/
def attributes (l : Locator) : AttributeSet :=
  l.reads ∪ .ofList [.type] ∪ .relocation

/-- The positions of the matches in a snapshot, in document order. -/
def select (l : Locator) (s : Snapshot) : Outcome (List Nat) :=
  match l with
  | query q =>
    let (document, index) := s.document 0
    match q.evaluate document index with
    | .ok positions => .ok positions
    | .error fault => .error (.evaluation fault)
  | predicate p => .ok (p.find s)

end Locator

namespace Session

/-- The reference of the frontmost application. -/
def activeRoot : CacheOperation NodeRef := do
  match ← Operation.ask .activeRoots with
  | .error e => Operation.fail (e.toError ⟨none, 0⟩)
  | .ok [] => Operation.fail (.provider .noActiveApplication)
  | .ok (root :: _) => return root.ref

/-- Capture a cached element, or the frontmost application when there is no scope. -/
def captureScope (settings : Settings) (scope : Option Identity) (attributes : AttributeSet) :
    CacheOperation Snapshot := do
  let request := settings.captureRequest attributes
  match scope with
  | none => ElementCache.capture request (← activeRoot)
  | some i =>
    if ← Operation.read (·.has i) then
      ElementCache.evictingStale i (ElementCache.capture request i.ref)
    else Operation.fail (.notCached i)

/-- The handles of the elements that a locator matches, in document order. -/
def find (settings : Settings) (l : Locator) (scope : Option Identity) :
    CacheOperation (List Handle) := do
  let s ← captureScope settings scope l.attributes
  let positions ← Operation.ofOutcome (l.select s)
  Operation.update (·.handlesFor (positions.filterMap (SnapshotRef.of? s)))

/-- The handle of the first element that a locator matches. -/
def findFirst (settings : Settings) (l : Locator) (scope : Option Identity) :
    CacheOperation (Option Handle) := do
  return (← find settings l scope).head?

/-- The page source of a cached element or of the frontmost application. -/
def pageSource (settings : Settings) (scope : Option Identity) (options : PageSourceOptions) :
    CacheOperation String := do
  let s ← captureScope settings scope .all
  Operation.ofOutcome ((s.document 0).1.pageSource options)

end Session

end UiTree
