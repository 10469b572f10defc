import SchemaTree.Value.Copy
import SchemaTree.Value.Equality
import SchemaTree.Fault.Text

/-!
The words for a failed rule. A table maps rule names to formatters and has one for all other names.
A formatter that fails is replaced by the generic one, told nothing of the parameters, so what can
go wrong is only that the name itself cannot be shown.
-/

namespace SchemaTree

variable {κ : Type}

/-- Makes a text of a rule's name, its parameters, the path of a value and the value. -/
abbrev Phrase (κ : Type) :=
  Value κ → Value κ → Value κ → Value κ → Except (Fault κ) String

inductive Formatter (κ : Type) where
  | generic
  | required
  | type
  | availableFields
  /-- What the caller registered; it need not be callable. -/
  | given (v : Value κ)

/-- The items of a sequence as texts, made by a generator. -/
def textParts [Inspect κ] (items : List (Value κ)) : Except (Fault κ) (List String) :=
  (items.mapM Value.text).mapError (Fault.outOf "generator")

def formatPath [Inspect κ] (path : Value κ) : Except (Fault κ) String := do
  if ← path.isTrue then return ".".intercalate (← textParts (← path.items))
  else return "<root>"

def genericText [Inspect κ] : Phrase κ := fun name params path _ => do
  let location ← formatPath path
  match name, params with
  | .null, _ => return "Value at '" ++ location ++ "' is invalid"
  | name, .null => return "Value at '" ++ location ++ "' failed rule '" ++ (← name.text) ++ "'"
  | name, params =>
    return "Value at '" ++ location ++ "' failed rule '" ++ (← name.text) ++ "' (" ++
      (← params.render) ++ ")"

structure MessageTable (κ : Type) where
  fallback : Formatter κ := .generic
  entries : List (Value κ × Formatter κ) := []

namespace MessageTable

def mapValues {m : Type → Type} [Monad m] (f : Value κ → m (Value κ)) (t : MessageTable κ) :
    m (MessageTable κ) := do
  let formatter : Formatter κ → m (Formatter κ)
    | .given v => .given <$> f v
    | other => pure other
  let fallback ← formatter t.fallback
  let entries ← t.entries.mapM fun e => do
    let made ← formatter e.2
    return (← f e.1, made)
  return { fallback, entries }

def builtin : MessageTable κ where
  entries := [(.str "required", .required), (.str "type", .type),
    (.str "available_fields", .availableFields)]

variable [Inspect κ]

def put (name : Value κ) (f : Formatter κ) :
    List (Value κ × Formatter κ) → List (Value κ × Formatter κ)
  | [] => [(name, f)]
  | (k, g) :: es => if name.agrees k then (k, f) :: es else (k, g) :: put name f es

def register (t : MessageTable κ) (name : Value κ) (f : Formatter κ) :
    Except (Fault κ) (MessageTable κ) :=
  if name.canBeKey then .ok { t with entries := put name f t.entries }
  else .error (.misuse .unsupported)

/-- Drops the formatter of a name, if it has one. A table without formatters does not look at the
name. -/
def unregister (t : MessageTable κ) (name : Value κ) : Except (Fault κ) (MessageTable κ) :=
  if t.entries.isEmpty || name.canBeKey then
    .ok { t with entries := t.entries.filter fun e => !name.agrees e.1 }
  else .error (.misuse .unsupported)

def has (t : MessageTable κ) (name : Value κ) : Except (Fault κ) Bool :=
  if name.canBeKey then .ok (t.entries.any fun e => name.agrees e.1)
  else .error (.misuse .unsupported)

def formatter (t : MessageTable κ) (name : Value κ) : Formatter κ :=
  match name with
  | .str _ =>
    match t.entries.find? fun e => name.agrees e.1 with
    | some e => e.2
    | none => t.fallback
  | _ => t.fallback

end MessageTable

section format

variable [Inspect κ] (phrase : κ → Option (Phrase κ))

/-- The text of a formatter, where `phrase` is the meaning of the caller's ones. An object that is
no formatter has none. -/
def Formatter.apply : Formatter κ → Phrase κ
  | .generic => genericText
  | .required => fun _ _ path _ => do
    return "Field '" ++ (← formatPath path) ++ "' is required"
  | .type => fun _ params path value => do
    let location ← formatPath path
    return "Field '" ++ location ++ "' expects " ++ (← params.text) ++ ", got " ++ value.kind
  | .availableFields => fun _ params path _ => do
    let allowed := ", ".intercalate (← textParts (← params.elements))
    return "Field '" ++ (← formatPath path) ++ "' has unknown fields, allowed fields: " ++ allowed
  | .given (.object o) =>
    match phrase o with
    | some phrase => phrase
    | none => fun _ _ _ _ => .error (.misuse .unsupported)
  | .given _ => fun _ _ _ _ => .error (.misuse .unsupported)

/-- The text of the formatter for a name. If that one fails, the generic one takes its place, told
nothing of the parameters. -/
def MessageTable.format (t : MessageTable κ) : Phrase κ := fun name params path value =>
  match (t.formatter name).apply phrase name params path value with
  | .ok text => .ok text
  | .error _ => genericText name .null path value

end format

/-- The table that everyone shares, in which the generic formatter stands for all other names, and
the meaning of the caller's formatters. -/
structure Wording (κ : Type) where
  table : MessageTable κ
  phrase : κ → Option (Phrase κ)
  generic : table.fallback = .generic := by rfl

namespace Wording

variable [Inspect κ]

def format (w : Wording κ) : Phrase κ := w.table.format w.phrase

def validation (w : Wording κ) (name params : Value κ) : Except (Fault κ) (Validation κ) := do
  let given ← name.isTrue
  match given, name with
  | true, .str n =>
    let text ← w.format name params (.list .fresh []) .null
    return { name := n, params, text }
  | _, _ => throw (.ruleName name)

/-- A failure at one place of a value. Parameters and value are copied, so that what happens to
them later does not change the error; only a number is kept as the index. -/
def resultError (w : Wording κ) (name params value index path : Value κ) :
    Except (Fault κ) (ResultError κ) := do
  let params ← params.snapshot
  let value ← value.snapshot
  let path ← path.elements
  let text ← w.format name params (.list .fresh path) value
  return {
    name, params, value, path, text
    index := match index with
      | .int i => some i
      | _ => none }

end Wording

namespace ResultError

variable [Inspect κ]

/-- The text of an error in the words of a table that may have changed since. -/
def message (w : Wording κ) (e : ResultError κ) : Except (Fault κ) String :=
  w.format e.name e.params (.list e.pathMark e.path) e.value

def toValue (w : Wording κ) (e : ResultError κ) : Except (Fault κ) (Value κ) := do
  let params ← e.params.snapshot
  let value ← e.value.snapshot
  let message ← e.message w
  return .mapping .fresh [(.str "rule_name", e.name), (.str "rule_params", params),
    (.str "value", value), (.str "array_item_index", indexValue e.index),
    (.str "path", .list .fresh e.path), (.str "message", .str message)]

def render (e : ResultError κ) : Except (Fault κ) String := do
  return "ValidationResultError(" ++ (← e.name.render) ++ ", " ++ (← e.params.render) ++
    ", value=" ++ (← e.value.render) ++ ", array_item_index=" ++
    (← (indexValue e.index : Value κ).render) ++ ", path=" ++
    (← (Value.list .fresh e.path).render) ++ ")"

end ResultError

def Validation.render [Inspect κ] (v : Validation κ) : Except (Fault κ) String := do
  return "ValidationError(" ++ Text.quoted v.name ++ ", " ++ (← v.params.render) ++ ")"

end SchemaTree
