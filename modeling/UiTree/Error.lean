import UiTree.Identity
import UiTree.Attribute
import UiTree.Query.Fault

/-!
# Errors

Every way in which an operation can fail, by cause. The wording of an error is a function of its
cause, and only a timeout is worth another try with the same arguments.
-/

namespace UiTree

/-- Why an argument was refused. -/
inductive ArgumentFault where
  | notAnIdentity (text : String)
  | notAnXmlName (scope : String)
  | settingsNotAnObject
  | settingsUnreadable
  | cacheSizeNotPositive
  | epsilonUnusable (epsilon : Float)
  | pollIntervalNotPositive
  | capacityNotPositive
  | handleOfAnother
  | handleMatchesNothing
  | handleNeverResolved

/-- The wording of a fault. -/
def ArgumentFault.message : ArgumentFault → String
  | notAnIdentity text => "'" ++ text ++ "' is not a valid element identity"
  | notAnXmlName scope => "'" ++ scope ++ "' is not a valid XML element name"
  | settingsNotAnObject => "settings must be a JSON object"
  | settingsUnreadable => "invalid settings"
  | cacheSizeNotPositive => "element cache size must be positive"
  | epsilonUnusable epsilon =>
    "frame epsilon must be a non-negative number, got " ++
      Number.text Query.messageSpelling epsilon
  | pollIntervalNotPositive => "stability poll interval must be positive"
  | capacityNotPositive => "cache capacity must be positive"
  | handleOfAnother => "resolved handle does not belong to this identity"
  | handleMatchesNothing => "ephemeral handle no longer matches any element"
  | handleNeverResolved => "handle has never been resolved"

/-- A failure on the provider's side. -/
inductive ProviderFault where
  | noActiveApplication
  | nodeNotFound (element : UInt64)
  | reported (reason : String)
deriving DecidableEq, Repr

/-- The wording of a fault. -/
def ProviderFault.message : ProviderFault → String
  | noActiveApplication => "no active application"
  | nodeNotFound element => "node " ++ toString element.toNat ++ " not found"
  | reported reason => reason

/-- The wording of a missing identity. -/
def Unidentified.message : Unidentified → String
  | noProcess element => "element " ++ toString element.toNat ++ " has no owning process"
  | nullElement process =>
    "process " ++ toString process.toNat ++ " reported a null element reference"

/-- Why an operation failed. -/
inductive Error where
  /-- A reference determines no identity. -/
  | unidentified (why : Unidentified)
  /-- No element with the identity is cached. -/
  | notCached (identity : Identity)
  /-- The element has left the tree. -/
  | stale (identity : Identity)
  /-- A text is no query or no predicate. -/
  | invalidQuery (text : String) (offset : Nat) (fault : Query.SyntaxFault)
  | unknownAttribute (name : String)
  | evaluation (fault : Query.EvaluationFault)
  /-- The provider did not answer in time. -/
  | timeout (milliseconds : Nat)
  | provider (fault : ProviderFault)
  | invalidArgument (fault : ArgumentFault)

namespace Error

/-- The wording of an error. -/
def message : Error → String
  | unidentified why => "Element identity unavailable: " ++ why.message
  | notCached identity => "No cached element with identity " ++ identity.text
  | stale identity =>
    "Element " ++ identity.text ++ " is no longer present in the accessibility tree"
  | invalidQuery text offset fault =>
    "Invalid query '" ++ text ++ "' at offset " ++ toString offset ++ ": " ++ fault.message
  | unknownAttribute name => "Unknown attribute name '" ++ name ++ "'"
  | evaluation fault => "Query evaluation failed: " ++ fault.message
  | timeout milliseconds =>
    "Accessibility provider timed out after " ++ toString milliseconds ++ "ms"
  | provider fault => "Accessibility provider error: " ++ fault.message
  | invalidArgument fault => "Invalid argument: " ++ fault.message

/-- Whether the same operation may succeed when it is tried again. -/
def isRetryable : Error → Bool
  | timeout _ => true
  | _ => false

end Error

/-- The error of a text that was refused. -/
def Query.Refusal.toError (text : String) : Query.Refusal → Error
  | malformed offset fault => .invalidQuery text offset fault
  | unknownAttribute name => .unknownAttribute name

/-- The result of an operation that can fail. -/
abbrev Outcome (α : Type) := Except Error α

/-- The attribute that has a name. -/
def Attribute.parse (s : String) : Outcome Attribute :=
  match ofName? s with
  | some a => .ok a
  | none => .error (.unknownAttribute s)

/-- The attribute of the document that has a name. -/
def DocumentAttribute.parse (s : String) : Outcome DocumentAttribute :=
  match ofName? s with
  | some a => .ok a
  | none => .error (.unknownAttribute s)

/-- The identity that a text spells. -/
def Identity.parse (s : String) : Outcome Identity :=
  match parse? s with
  | some i => .ok i
  | none => .error (.invalidArgument (.notAnIdentity s))

end UiTree
