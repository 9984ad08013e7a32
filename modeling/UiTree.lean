import UiTree.Ascending
import UiTree.Attribute
import UiTree.Cache.Feed
import UiTree.Cache.Handle
import UiTree.Cache.Lru
import UiTree.Document.PageSource
import UiTree.ElementType
import UiTree.Error
import UiTree.Frame
import UiTree.Identity
import UiTree.Json.Forms
import UiTree.Json.Reader
import UiTree.Json.Writer
import UiTree.Predicate.Reader
import UiTree.Predicate.Scan
import UiTree.Provider.LiveTree
import UiTree.Query.Axis
import UiTree.Query.Evaluation
import UiTree.Query.Expr
import UiTree.Query.Lexer
import UiTree.Query.Parser
import UiTree.Query.Scan
import UiTree.Recency
import UiTree.Session.Resolve
import UiTree.Snapshot.Capture
import UiTree.Snapshot.Relocation
import UiTree.Text.CharClass
import UiTree.Text.Cut
import UiTree.Traits
import UiTree.Proofs.Outcome
import UiTree.Proofs.Query.WellFormed
import UiTree.Proofs.Query.Soundness
import UiTree.Proofs.Query.Footprint
import UiTree.Proofs.Session.Locators
import UiTree.Proofs.Predicate.RoundTrip
import UiTree.Proofs.Cache.Links
import UiTree.Proofs.Cache.Representation
import UiTree.Proofs.Cache.Refinement
import UiTree.Proofs.Cache.Guarded
import UiTree.Proofs.Cache.Consistency
import UiTree.Proofs.Cache.Changes
import UiTree.Proofs.Session.Conduct
import UiTree.Proofs.Session.Activity
import UiTree.Proofs.Session.Events
import UiTree.Proofs.Session.Course
import UiTree.Proofs.Session.Failures
import UiTree.Proofs.Session.CachedHandles
import UiTree.Proofs.Session.Staleness
import UiTree.Proofs.Session.Recapture
import UiTree.Proofs.Snapshot.Arena
import UiTree.Proofs.Query.Spelling
import UiTree.Proofs.Query.Grammar
import UiTree.Proofs.Query.Printer
import UiTree.Proofs.Query.RoundTrip
import UiTree.Proofs.Query.Selection
import UiTree.Proofs.Query.Asking
import UiTree.Proofs.Predicate.Translation
import UiTree.Proofs.Identity.Spelling
import UiTree.Proofs.Document.AttributeValues
import UiTree.Proofs.Document.Markup
import UiTree.Proofs.Document.Reading
import UiTree.Proofs.Document.Names
import UiTree.Proofs.Document.Grammar
import UiTree.Proofs.Document.WellFormed
import UiTree.Proofs.Json.Strings
import UiTree.Proofs.Identity.RoundTrip
import UiTree.Proofs.Session.Lifecycle
import UiTree.Proofs.Session.Intact
import UiTree.Proofs.Document.Preorder
import UiTree.Proofs.Query.Axes
import UiTree.Proofs.Query.NodeSets
import UiTree.Proofs.Query.Composition
import UiTree.Proofs.Query.Concatenation
import UiTree.Proofs.Query.Rereading
import UiTree.Proofs.Query.RereadingPaths
import UiTree.Proofs.Query.RereadingExpressions
import UiTree.Proofs.Query.Continuation
import UiTree.Proofs.Query.PositionFree
import UiTree.Proofs.Query.Abbreviation
import UiTree.Proofs.Query.OrSelf
import UiTree.Proofs.Query.Unions
import UiTree.Proofs.Query.Conjunctions
import UiTree.Proofs.Snapshot.Narrowing
import UiTree.Proofs.Cache.Latest
import UiTree.Proofs.Session.Finding
import UiTree.Proofs.Frame
import UiTree.Proofs.Session.Polling
import UiTree.Proofs.Session.Settling
import UiTree.Proofs.Predicate.Spelling
import UiTree.Proofs.Session.Provenance
import UiTree.Proofs.Session.Relocation
import UiTree.Proofs.Text.Cuts
import UiTree.Proofs.Query.Scan
import UiTree.Proofs.Query.Tiling
import UiTree.Proofs.Query.Refusals
import UiTree.Proofs.Predicate.Scan
import UiTree.Proofs.Query.Offsets
import UiTree.Proofs.Document.Exclusion
import UiTree.Proofs.Session.Settings
