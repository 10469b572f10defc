import SchemaTree.Fault.Text
import SchemaTree.Heap

/-!
Registries. A name is registered once and keeps its node until it is unregistered; a refused
registration changes nothing.
-/

namespace SchemaTree

namespace Registry

variable {κ : Type}

def find? (r : Registry κ) (name : String) : Option NodeId :=
  (r.entries.find? fun e => e.1 == name).map (·.2)

def keys (r : Registry κ) : List String := r.entries.map (·.1)

def insert (r : Registry κ) (name : String) (n : NodeId) : Registry κ :=
  { r with entries := r.entries ++ [(name, n)] }

def erase (r : Registry κ) (name : String) : Registry κ :=
  { r with entries := r.entries.filter fun e => e.1 != name }

def render [Inspect κ] (r : Registry κ) : Except (Fault κ) String := do
  return "SchemaRegistry(name=" ++ (← r.name.render) ++ ", count=" ++
    toString r.entries.length ++ ")"

end Registry

namespace Build

variable {κ : Type} [Inspect κ]

def registry (r : RegistryId) : Build κ (Registry κ) := do return (← get).registry r

def register (r : RegistryId) (key : Value κ) (schema : SchemaArg) : Build κ NodeId := do
  let reg ← registry r
  let given ← of key.isTrue
  match given, key with
  | true, .str name =>
    match schema with
    | .node n =>
      match reg.find? name with
      | some _ => throw (.duplicateSchema name reg.name)
      | none =>
        modify fun h => h.setRegistry r (reg.insert name n)
        return n
    | .named _ => throw (.schemaKind name reg.name "str")
    | .other kind => throw (.schemaKind name reg.name kind)
  | _, _ => throw (.schemaName key reg.name)

def lookup (r : RegistryId) (key strict : Value κ) : Build κ (Option NodeId) := do
  let reg ← registry r
  match key with
  | .str name =>
    match reg.find? name with
    | some n => return some n
    | none =>
      if ← of strict.isTrue then throw (.unknownSchema name reg.name reg.keys) else return none
  | _ => throw (.lookupName key reg.name)

def resolve (r : RegistryId) (name : String) : Build κ NodeId := do
  let reg ← registry r
  match reg.find? name with
  | some n => return n
  | none => throw (.unknownSchema name reg.name reg.keys)

/-- Whether a name is taken. Only what can be a key of a mapping can be asked for. -/
def has (r : RegistryId) (key : Value κ) : Build κ Bool := do
  if !key.canBeKey then throw (.misuse .unsupported)
  match key with
  | .str name => return ((← registry r).find? name).isSome
  | _ => return false

def contains (r : RegistryId) (key : Value κ) : Build κ Bool :=
  match key with
  | .str _ => has r key
  | _ => return false

def unregister (r : RegistryId) (key : Value κ) : Build κ NodeId := do
  if !key.canBeKey then throw (.misuse .unsupported)
  let reg ← registry r
  match key with
  | .str name =>
    match reg.find? name with
    | some n =>
      modify fun h => h.setRegistry r (reg.erase name)
      return n
    | none => throw (.notRegistered key reg.name)
  | _ => throw (Fault.notRegistered key reg.name).told

def clear (r : RegistryId) : Build κ Unit :=
  modify fun h => h.setRegistry r { h.registry r with entries := [] }

def createNamed (name : Value κ) (r : RegistryId) : Build κ NodeId := do
  let n ← create r
  match name with
  | .null => return n
  | _ => register r name (.node n)

end Build

end SchemaTree
