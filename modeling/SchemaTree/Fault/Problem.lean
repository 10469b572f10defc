import SchemaTree.Message
import SchemaTree.Value.Traverse

/-!
Errors as objects. An error keeps its text and its data as they were when it arose, and the two
kinds of failed rules keep what failed.
-/

namespace SchemaTree

inductive Detail (κ : Type) where
  | none
  | rule (v : Validation κ)
  | result (e : ResultError κ)

/-- An error as an object: the name of its kind, its text if it has one of its own, the data that
come with it if its kind has any, and its truth. -/
structure Problem (κ : Type) where
  kind : String
  message : Option (Value κ)
  context : Option (Value κ)
  detail : Detail κ := .none
  truth : Except (Fault κ) Bool := .ok true

def ResultError.mapValues {κ : Type} {m : Type → Type} [Monad m] (f : Value κ → m (Value κ))
    (e : ResultError κ) : m (ResultError κ) := do
  let name ← f e.name
  let params ← f e.params
  let value ← f e.value
  let (pathMark, path) := (← f (.list e.pathMark e.path)).listParts
  return { e with name, params, value, pathMark, path }

namespace Problem

variable {κ : Type}

def hasContext (kind : String) : Bool := kind.startsWith "Schema" || kind == "DuplicateKeyError"

/-- The error that a fault is. A fault is not raised before its text is made. -/
def ofFault [Inspect κ] (f : Fault κ) : Problem κ :=
  let detail : Detail κ := match f with
    | .validation v => .rule v
    | .result e => .result e
    | _ => .none
  let message := some (.str (f.message.toOption.getD ""))
  match f.family with
  | .misuse _ | .malformedText => { kind := f.family.name, message := none, context := none }
  | .raised kind => {
      kind, message, context := if hasContext kind then some f.context else none
      truth := f.truth }
  | family => { kind := family.name, message, context := some f.context, detail }

/-- An error of the caller in this library's own form. Details go before a context; either counts
only if it counts as true. -/
def report [Inspect κ] (message context details : Value κ) : Except (Fault κ) (Problem κ) := do
  let data ←
    if ← details.isTrue then pure details
    else if ← context.isTrue then pure context
    else pure (.mapping .fresh [])
  return { kind := "SchemaError", message := some message, context := some data }

/-- The text of an error; an error without one of its own has none. An error about a key shows the
key in its printed form. -/
def text [Inspect κ] (p : Problem κ) : Except (Fault κ) String :=
  match p.message with
  | none => return ""
  | some v => if p.kind == "KeyError" then v.render else v.text

def render [Inspect κ] (p : Problem κ) : Except (Fault κ) String :=
  match p.detail, p.message with
  | .rule v, _ => v.render
  | .result e, _ => e.render
  | .none, none => return p.kind ++ "()"
  | .none, some v => do return p.kind ++ "(" ++ (← v.render) ++ ")"

def mapValues {m : Type → Type} [Monad m] (f : Value κ → m (Value κ)) (p : Problem κ) :
    m (Problem κ) := do
  let each (v : Option (Value κ)) : m (Option (Value κ)) := match v with
    | none => pure none
    | some v => some <$> f v
  let message ← each p.message
  let context ← each p.context
  let detail ← match p.detail with
    | .none => pure .none
    | .rule v => do pure (Detail.rule { v with params := ← f v.params })
    | .result e => Detail.result <$> e.mapValues f
  return { p with message, context, detail }

end Problem

end SchemaTree
