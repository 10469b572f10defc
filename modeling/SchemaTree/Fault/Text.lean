import SchemaTree.Value.Text

/-!
The text of a fault, and the data that come with it.
-/

namespace SchemaTree

variable {κ : Type}

namespace Fault

def rootKeyForm : String := "^(schema)((?:\\[\\])?)(\\??)(!?)$"

def fieldKeyForm : String := "^([^\\[?!]*)((?:\\[\\])?)(\\??)(!?)$"

/-- The text of a fault. It may show a name of the caller, and fails where that cannot be shown. -/
def message [Inspect κ] : Fault κ → Except (Fault κ) String
  | .parentKind _ => return "schema node must be instance of SchemaNode"
  | .fieldName name => do
    return "invalid schema field name, must be non-empty string, " ++ (← name.render) ++ " given"
  | .duplicateField name _ => return "duplicate key \"" ++ name ++ "\""
  | .alreadyDefined _ => return "object already defined"
  | .builderKind _ => return "nested builder must be callable"
  | .schemaName .. => return "invalid name type, must be non-empty string"
  | .schemaKind .. => return "invalid schema type, must be instance of SchemaNode"
  | .duplicateSchema key registry => do
    return "Schema '" ++ key ++ "' already registered in " ++ (← registry.text)
  | .lookupName .. => return "invalid name type, must be string"
  | .unknownSchema key .. => return "Schema '" ++ key ++ "' was not registered"
  | .notRegistered key _ => do return "Schema '" ++ (← key.text) ++ "' was not registered"
  | .ruleName _ => return "invalid rule_name, must be non-empty string"
  | .mappedKind _ => return "invalid validation rule type after user-validator mapping"
  | .optionsKind _ => return "options must be a dict or VerifyOptions"
  | .validatorKind _ => return "options.validator must be callable"
  | .flagText name text => return "Invalid boolean value for " ++ name ++ ": " ++ Text.quoted text
  | .rootKind _ => return "schema must be instance of SchemaNode"
  | .mapperKind _ => return "validator mapper must be callable"
  | .documentKind _ => return "schema document must be a mapping with a single root key"
  | .rootKey _ => return "invalid schema key format, must match " ++ rootKeyForm
  | .fieldKey _ => return "invalid field key format, must match " ++ fieldKeyForm
  | .fileMissing path => return "Schema file not found: " ++ path
  | .validation v => return v.text
  | .result e => return e.text
  | .raised r => return r.message
  | .misuse _ | .malformedText => return ""

/-- The fault as it is raised. Its text is made first, and what goes wrong there is raised
instead. -/
def told [Inspect κ] (f : Fault κ) : Fault κ :=
  match f.message with
  | .ok _ => f
  | .error g => g

end Fault

private def record (entries : List (String × Value κ)) : Value κ :=
  .mapping .fresh (entries.map fun e => (.str e.1, e.2))

private def names (xs : List String) : Value κ := .list .fresh (xs.map .str)

def indexValue : Option Int → Value κ
  | some i => .int i
  | none => .null

def Validation.context (v : Validation κ) : Value κ :=
  record [("rule_name", .str v.name), ("rule_params", v.params)]

def ResultError.context (e : ResultError κ) : Value κ :=
  record [("rule_name", e.name), ("rule_params", e.params),
    ("array_item_index", indexValue e.index), ("path", .list e.pathMark e.path)]

def Fault.context [Inspect κ] : Fault κ → Value κ
  | .parentKind kind | .builderKind kind | .optionsKind kind | .validatorKind kind
  | .rootKind kind | .mapperKind kind | .documentKind kind => record [("type", .str kind)]
  | .fieldName name => record [("name", name), ("type", .str name.kind)]
  | .duplicateField name fields => record [("name", .str name), ("fields", names fields)]
  | .alreadyDefined fields => record [("fields", names fields)]
  | .schemaName key registry | .lookupName key registry | .notRegistered key registry =>
    record [("key", key), ("registry", registry)]
  | .schemaKind key registry kind =>
    record [("key", .str key), ("registry", registry), ("type", .str kind)]
  | .duplicateSchema key registry => record [("key", .str key), ("registry", registry)]
  | .unknownSchema key registry available =>
    record [("key", .str key), ("registry", registry), ("available_keys", names available)]
  | .ruleName given => record [("rule_name", given)]
  | .mappedKind kind => record [("mapped_type", .str kind)]
  | .flagText name text => record [("variable", .str name), ("value", .str text)]
  | .rootKey key | .fieldKey key => record [("key", key)]
  | .fileMissing path => record [("path", .str path)]
  | .validation v => v.context
  | .result e => e.context
  | .raised _ | .misuse _ | .malformedText => record []

end SchemaTree
