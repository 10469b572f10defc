import SchemaTree.Value.Basic

/-!
What can go wrong, by cause. A fault carries the data that its text and its context are made of.
-/

namespace SchemaTree

inductive ErrorClass where
  | typeError
  | copyError
  | stopIteration
  deriving DecidableEq, Repr

/-- The kinds that only the failures of this library have. -/
def failureKinds : List String := ["ValidationError", "ValidationResultError"]

/-- An error that code of the caller raises: the name of its kind, its text, the classes it is an
instance of, and its truth. One that stands for the failure of a rule also has a name and
parameters, which may be out of reach. `φ` is what can go wrong where it is asked. A result error,
of a derived class too, is a `Fault.result` and none of these. -/
structure Raised (κ φ : Type) where
  kind : String
  message : String
  classes : List ErrorClass := []
  truth : Except φ Bool := .ok true
  failure : Option (Except φ (Value κ × Value κ)) := none
  foreign : kind ∉ failureKinds := by decide

structure Validation (κ : Type) where
  name : String
  params : Value κ
  text : String

/-- A failed rule or check at one place of a value. The text is the one at the time of the
failure. -/
structure ResultError (κ : Type) where
  name : Value κ
  params : Value κ
  value : Value κ
  index : Option Int
  pathMark : Mark := .fresh
  path : List (Value κ)
  text : String

inductive Misuse where
  | unsupported
  | noSuchPart
  | wrongSize
  /-- A schema that holds itself was followed without end. -/
  | endless
  deriving DecidableEq, Repr

inductive Fault (κ : Type) where
  | parentKind (kind : String)
  | fieldName (name : Value κ)
  | duplicateField (name : String) (fields : List String)
  | alreadyDefined (fields : List String)
  | builderKind (kind : String)
  | schemaName (key registry : Value κ)
  | schemaKind (key : String) (registry : Value κ) (kind : String)
  | duplicateSchema (key : String) (registry : Value κ)
  | lookupName (key registry : Value κ)
  | unknownSchema (key : String) (registry : Value κ) (available : List String)
  | notRegistered (key registry : Value κ)
  | ruleName (given : Value κ)
  | mappedKind (kind : String)
  | optionsKind (kind : String)
  | validatorKind (kind : String)
  | flagText (setting text : String)
  | rootKind (kind : String)
  | mapperKind (kind : String)
  | documentKind (kind : String)
  | rootKey (key : Value κ)
  | fieldKey (key : Value κ)
  | fileMissing (path : String)
  | validation (v : Validation κ)
  | result (e : ResultError κ)
  | raised (r : Raised κ (Fault κ))
  | misuse (m : Misuse)
  | malformedText

inductive Family where
  | definition
  | duplicateKey
  | notFound
  | validation
  | result
  | raised (kind : String)
  | misuse (m : Misuse)
  | malformedText
  deriving DecidableEq, Repr

def Family.name : Family → String
  | .definition => "SchemaDefinitionError"
  | .duplicateKey => "DuplicateKeyError"
  | .notFound => "SchemaNotFoundError"
  | .validation => "ValidationError"
  | .result => "ValidationResultError"
  | .raised kind => kind
  | .misuse .unsupported => "TypeError"
  | .misuse .noSuchPart => "AttributeError"
  | .misuse .wrongSize => "ValueError"
  | .misuse .endless => "RecursionError"
  | .malformedText => "YAMLError"

namespace Fault

variable {κ : Type}

def family : Fault κ → Family
  | .duplicateField .. | .duplicateSchema .. => .duplicateKey
  | .unknownSchema .. | .notRegistered .. => .notFound
  | .validation _ => .validation
  | .result _ => .result
  | .raised r => .raised r.kind
  | .misuse m => .misuse m
  | .malformedText => .malformedText
  | .parentKind _ | .fieldName _ | .alreadyDefined _ | .builderKind _ | .schemaName ..
  | .schemaKind .. | .lookupName .. | .ruleName _ | .mappedKind _ | .optionsKind _
  | .validatorKind _ | .flagText .. | .rootKind _ | .mapperKind _ | .documentKind _
  | .rootKey _ | .fieldKey _ | .fileMissing _ => .definition

def isA (c : ErrorClass) : Fault κ → Bool
  | .raised r => r.classes.contains c
  | .misuse .unsupported => c == .typeError
  | _ => false

def refusesCopy (f : Fault κ) : Bool := f.isA .typeError || f.isA .copyError

/-- Whether a fault counts as true. Only an error of the caller may not, or refuse to answer. -/
def truth : Fault κ → Except (Fault κ) Bool
  | .raised r => r.truth
  | _ => .ok true

/-- The name and the parameters by which a fault says that a value is invalid, if it does. -/
def failure : Fault κ → Option (Except (Fault κ) (Value κ × Value κ))
  | .validation v => some (.ok (.str v.name, v.params))
  | .result e => some (.ok (e.name, e.params))
  | .raised r => r.failure
  | _ => none

def valueError (message : String) : Fault κ := .raised { kind := "ValueError", message }

/-- What comes of an end of iteration that is raised where the values of a coroutine or a generator
are made. -/
def stopped (maker : String) : Fault κ :=
  .raised { kind := "RuntimeError", message := maker ++ " raised StopIteration" }

def outOf (maker : String) (f : Fault κ) : Fault κ :=
  if f.isA .stopIteration then stopped maker else f

end Fault

end SchemaTree
