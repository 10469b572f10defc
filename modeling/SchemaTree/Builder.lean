import SchemaTree.Tree

/-!
The operations that build a schema. Every operation is aimed at one node, returns a node, and may
fail; a builder of the caller is a plan of such operations that goes by the nodes returned.
-/

namespace SchemaTree

structure Flags (κ : Type) where
  required : Except (Fault κ) Bool
  array : Except (Fault κ) (Option Bool)
  strict : Except (Fault κ) Bool

inductive Likeness (κ : Type) where
  | node (n : NodeId)
  | object (flags : Flags κ)

mutual

inductive Source (κ : Type) where
  | node (n : NodeId)
  | named (name : String)
  | plan (body : NodeId → Plan κ)
  /-- A callable that is no builder. -/
  | mismatched
  | unfit (kind : String)

inductive Operation (κ : Type) where
  | attachTo (parent : SchemaArg) (name : Value κ)
  /-- Adds one rule, or each of an array of them. -/
  | validate (rules : Value κ)
  | object (source : Source κ)
  | array
  | arrayFlag (flag : Bool)
  | arrayOf (source : Source κ)
  | field (name : Value κ)
  /-- Without name and rules: makes the node itself required. -/
  | required (name rules : Value κ)
  | optional (name rules : Value κ)
  | strict (flag : Value κ)
  | like (other : Likeness κ)
  | clone

inductive Plan (κ : Type) where
  | done
  | raise (f : Fault κ)
  /-- An operation, and what to do next. A builder may go on after one that failed. -/
  | act (target : NodeId) (op : Operation κ) (next : Except (Fault κ) NodeId → Plan κ)

end

def Node.flags {κ : Type} (p : Node κ) : Flags κ where
  required := .ok p.required
  array := .ok p.array
  strict := .ok p.strict

namespace Build

variable {κ : Type} [Inspect κ]

def fieldNames (n : NodeId) : Build κ (List String) := do
  return sortedNames (((← node n).fields.getD []).map (·.1))

def attach (parent child : NodeId) (name : String) : Build κ NodeId := do
  let fields := ((← node parent).fields.getD [])
  if fields.any (·.1 == name) then throw (.duplicateField name (← fieldNames parent))
  modify fun h => h.addField parent name child
  return child

def attachTo (child : NodeId) (parent : SchemaArg) (name : Value κ) : Build κ NodeId := do
  let parent ← match parent with
    | .node p => pure p
    | .named s => resolve (← node child).registry s
    | .other kind => throw (.parentKind kind)
  let given ← of name.isTrue
  match given, name with
  | true, .str s => attach parent child s
  | _, _ => throw (Fault.fieldName name).told

/-- Adds rules after the ones that are there. A value that counts as false adds none. -/
def validate (n : NodeId) (rules : Value κ) : Build κ NodeId := do
  if ← of rules.isTrue then
    let added := match rules with
      | .list _ xs | .tuple _ xs => xs
      | v => [v]
    modify fun h => h.addRules n added
  return n

def field (n : NodeId) (name : Value κ) : Build κ NodeId := do
  let child ← create (← node n).registry
  attachTo child (.node n) name

def required (n : NodeId) (name rules : Value κ) : Build κ NodeId := do
  match name, rules with
  | .null, .null =>
    modifyNode n fun p => { p with required := true }
    return n
  | _, _ => validate (← field n name) rules

def optional (n : NodeId) (name rules : Value κ) : Build κ NodeId := do
  let child ← match name, rules with
    | .null, .null => pure n
    | _, _ => validate (← field n name) rules
  modifyNode child fun p => { p with required := false }
  return child

def strict (n : NodeId) (flag : Value κ) : Build κ NodeId := do
  let flag ← of flag.isTrue
  modifyNode n fun p => { p with strict := flag }
  return n

/-- Takes flags over, each as soon as it is known. -/
def takeFlags (n : NodeId) (flags : Flags κ) : Build κ NodeId := do
  let required ← of flags.required
  modifyNode n fun p => { p with required }
  let array ← of flags.array
  modifyNode n fun p => { p with array := if array.isSome then array else p.array }
  let strict ← of flags.strict
  modifyNode n fun p => { p with strict }
  return n

def like (n : NodeId) : Likeness κ → Build κ NodeId
  | .node m => do takeFlags n (← node m).flags
  | .object flags => takeFlags n flags

def attachCopies (n : NodeId) : List (String × NodeId) → Build κ Unit
  | [] => return ()
  | (name, f) :: fields => do
    let _ ← attach n (← clone f) name
    attachCopies n fields

/-- Copies the fields, the rules and the presence of another node onto `n`. -/
def similar (n source : NodeId) : Build κ NodeId := do
  attachCopies n ((← node source).fields.getD [])
  let s ← node source
  let rules ← of (Heap.copyRules s.rules)
  modifyNode n fun p =>
    match rules with
    | some xs => { p with rules := some xs, rulesMark := .fresh, required := s.required }
    | none => { p with required := s.required }
  return n

def undefinedOnly (n : NodeId) : Build κ Unit := do
  if (← node n).fields.isSome then throw (.alreadyDefined (← fieldNames n))

def setArray (n : NodeId) (flag : Bool) : Build κ NodeId := do
  modifyNode n fun p => { p with array := some flag }
  return n

end Build

variable {κ : Type} [Inspect κ]

mutual

def Source.define (n : NodeId) : Source κ → Build κ NodeId
  | .node m => do
    Build.undefinedOnly n
    Build.similar n m
  | .named name => do
    Build.undefinedOnly n
    let m ← Build.resolve (← Build.node n).registry name
    Build.similar n m
  | .plan body => do
    Build.undefinedOnly n
    (body n).execute
    return n
  | .mismatched => do
    Build.undefinedOnly n
    throw (.misuse .unsupported)
  | .unfit kind => do
    Build.undefinedOnly n
    throw (.builderKind kind)

/-- Performs an operation on a node, on the given values as they are by then. -/
def Operation.run (n : NodeId) : Operation κ → Build κ NodeId
  | .attachTo parent name => do Build.attachTo n parent (← Build.current name)
  | .validate rules => do Build.validate n (← Build.current rules)
  | .object source => source.define n
  | .array => Build.setArray n true
  | .arrayFlag flag => Build.setArray n flag
  | .arrayOf source => do
    let _ ← source.define n
    Build.setArray n true
  | .field name => do Build.field n (← Build.current name)
  | .required name rules => do
    Build.required n (← Build.current name) (← Build.current rules)
  | .optional name rules => do
    Build.optional n (← Build.current name) (← Build.current rules)
  | .strict flag => do Build.strict n (← Build.current flag)
  | .like other => Build.like n other
  | .clone => Build.clone n

def Plan.execute : Plan κ → Build κ Unit
  | .done => return ()
  | .raise f => throw f
  | .act target op next => do
    let n ← (op.run target).observed
    (next n).execute

end

end SchemaTree
