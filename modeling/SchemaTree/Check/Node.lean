import SchemaTree.Check.Pipeline
import SchemaTree.Text.Names
import SchemaTree.Value.Entries

/-!
The checks of a node, in order: a value is there, it has the shape of the node, the node's rules
accept it, and its fields conform. The first failure is the result.
-/

namespace SchemaTree.Setting

variable {κ : Type} [Inspect κ] (s : Setting κ)

def checkRequired : Local κ := fun n value p =>
  match value with
  | .missing =>
    if (s.heap.node n).required then s.wording.failure (.str "required") (.bool true) value p
    else return .stop
  | _ => return .pass

def checkShape : Local κ := fun n value p =>
  if s.isArray n == value.isArray then return .pass
  else s.wording.failure (.str "type") (.str (if s.isArray n then "array" else "object")) value p

/-- What a fault of a rule says: a rule's own failure is one of the value, any other a fault. A name
or parameters that cannot be read are a fault of their own. -/
def refuse (f : Fault κ) (value : Value κ) (p : Position) : Run (Event κ) κ (Signal κ) :=
  match f.failure with
  | some failure => do
    let (name, params) ← Run.of failure
    s.wording.failure name params value p
  | none => return .fail f

/-- What a rule's outcome says: nothing, a failure with or without a name, or a fault. A truth test
that fails counts as the rule's own fault. -/
def judge (outcome : Except (Fault κ) (Value κ)) (value : Value κ) (p : Position) :
    Run (Event κ) κ (Signal κ) :=
  match outcome with
  | .ok .null => return .pass
  | .ok (.invalid _ name params) => s.wording.failure name params value p
  | .ok v =>
    match v.isTrue with
    | .ok true => return .pass
    | .ok false => s.wording.failure .null .null value p
    | .error f => s.refuse f value p
  | .error f => s.refuse f value p

def runRule (rule value : Value κ) (p : Position) : Run (Event κ) κ (Signal κ) :=
  let r := callRule s.host rule value
  ⟨r.events, .ok ()⟩ >>= fun _ => s.judge r.outcome value p

def runRules (rules : List (Value κ)) (value : Value κ) (p : Position) :
    Run (Event κ) κ (Signal κ) := do
  return Signal.ofReport (← iterateList (fun _ rule => s.runRule rule value p) rules)

def mappedRules (rules : List (Value κ)) : Run (Event κ) κ (Option (List (Value κ))) := do
  let copies ← Run.of ((Value.deepCopyAll rules))
  applyMapper s.host s.options.validator (.list .fresh copies) (.options s.options)

/-- The rules of the node, made by the mapper if there is one. A mapper that fails, or makes no
rules, is a fault and not a failure of the value. -/
def checkRules : Local κ := fun n value p =>
  match (s.heap.node n).rules with
  | none | some [] => return .pass
  | some rules =>
    match s.options.validator with
    | .null => s.runRules rules value p
    | _ =>
      let mapped := s.mappedRules rules
      ⟨mapped.events, .ok ()⟩ >>= fun _ =>
        match mapped.outcome with
        | .ok (some rules) => s.runRules rules value p
        | .ok none => return .fail (.mappedKind "NoneType")
        | .error f => return .fail f

def checkMapping : Local κ := fun _ value p =>
  if value.isMapping then return .pass
  else s.wording.failure (.str "type") (.str "object") value p

/-- Whether all keys are names of fields. The first one that is not decides. -/
def allDeclared (names : List String) : List (Value κ) → Except (Fault κ) Bool
  | [] => return true
  | key :: keys => do
    if !key.canBeKey then throw (.misuse .unsupported)
    match key.asText with
    | some name => if names.contains name then allDeclared names keys else return false
    | none => return false

def checkExcess : Local κ := fun n value p => do
  let node := s.heap.node n
  if (← Run.of s.options.ignoreExcess.isTrue) && !node.strict then return .pass
  let names := (node.fields.getD []).map (·.1)
  if ← Run.of (allDeclared names (← Run.of value.items)) then return .pass
  else
    let allowed := .list .fresh ((sortedNames names).map .str)
    s.wording.failure (.str "available_fields") allowed value p

def fieldValue (value : Value κ) (name : String) : Except (Fault κ) (Value κ) :=
  match value with
  | .mapping _ entries => .ok ((Entries.get? (.str name) entries).getD .missing)
  | _ => .error (.misuse .noSuchPart)

def checkNested (visit : Local κ) : Local κ := fun n value p => do
  let fields := (s.heap.node n).fields.getD []
  return Signal.ofReport (← iterate (fun name child => do
    visit child (← Run.of (fieldValue value name)) (p.child name)) fields)

def inTurn (checks : List (Local κ)) : Local κ := fun n value p => do
  return Signal.ofReport (← iterateList (fun _ check => check n value p) checks)

def checkFields (visit : Local κ) : Local κ := inTurn [
  s.stage .mapping s.checkMapping,
  s.stage .excess s.checkExcess,
  s.stage .nested (s.checkNested visit)]

def checkContents (visit : Local κ) : Local κ := fun n value p =>
  if (s.heap.node n).fields.isNone then return .pass
  else
    let fields := s.stage .fields (s.checkFields visit)
    if s.isArray n then do
      let items ← Run.of value.elements
      return Signal.ofReport
        (← iterateList (fun i item => fields n item (p.item i)) items)
    else fields n value p

/-- All checks of a node, in order, with `visit` for the nodes of its fields. -/
def checkNode (visit : Local κ) : Local κ := inTurn [
  s.stage .required s.checkRequired,
  s.stage .shape s.checkShape,
  s.stage .rules s.checkRules,
  s.stage .contents (s.checkContents visit)]

def verifyTo : (depth : Nat) → Local κ
  | 0 => fun _ _ _ => throw (.misuse .endless)
  | depth + 1 => s.checkNode (verifyTo depth)

/-- Checks a value at a position. The fields of a node are checked on the values of a mapping, so
the mappings inside each other bound the depth, even where the schema has no bottom. -/
def verifyAt : Local κ := fun n value p => s.verifyTo (value.depth + 1) n value p

end SchemaTree.Setting
