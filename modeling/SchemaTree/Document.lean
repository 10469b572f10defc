import SchemaTree.Builder
import SchemaTree.Document.Key

/-!
Schema documents: plain mappings that describe a schema. A document has one key, for the root; a
mapping below it describes fields, and any other value is a rule or an array of rules.
-/

namespace SchemaTree.Document

variable {κ : Type} [Inspect κ]

def flagged (r : RegistryId) (key : Key) : Build κ NodeId := do
  let n ← Build.create r
  Build.modifyNode n fun p => { p with
    required := !key.optional
    array := if key.array then some true else none
    strict := key.strict }
  return n

def addField (r : RegistryId) (parent : NodeId) (key : Value κ) : Build κ NodeId := do
  let some k := (match key with
    | .str text => Key.field? text
    | _ => none) | throw (.fieldKey key)
  let template ← flagged r k
  let child ← Build.field parent (.str k.name)
  Build.like child (.node template)

mutual

def fillField (r : RegistryId) (child : NodeId) : Value κ → Build κ Unit
  | .mapping _ entries => fill r child entries
  | .null => return ()
  | rules => do
    let _ ← Build.validate child rules

def fill (r : RegistryId) (n : NodeId) : Entries κ → Build κ Unit
  | [] => return ()
  | (key, value) :: entries => do
    let own : Bool := match key with
      | .str text => isOwnRules text
      | _ => false
    if own then
      let _ ← Build.validate n value
    else
      let child ← addField r n key
      fillField r child value
    fill r n entries

end

def toSchema (r : RegistryId) (data : Value κ) : Build κ NodeId := do
  match data with
  | .mapping _ [(key, body)] =>
    let some k := (match key with
      | .str text => Key.root? text
      | _ => none) | throw (.rootKey key)
    let n ← flagged r k
    fillField r n body
    return n
  | _ => throw (.documentKind data.kind)

/-- The path of a document without detours: a step up takes back the step before it. -/
def directPath (path : String) : String :=
  let step (done : List String) (part : String) : List String :=
    if part = "" || part = "." then done
    else if part = ".." then done.dropLast
    else done ++ [part]
  "/".intercalate ((path.splitOn "/").foldl step [])

def toNamedSchema (r : RegistryId) (data name : Value κ) : Build κ NodeId := do
  let n ← toSchema r data
  if ← Build.of name.isTrue then Build.register r name (.node n) else return n

end SchemaTree.Document
