import SchemaTree.Tree
import SchemaTree.Verify

/-!
Compiled schemas. A mapper is applied once to every node of a copy of a schema, to the fields of a
node before the node; what comes of it checks values without a mapper. The schema itself is left
as it is.
-/

namespace SchemaTree

variable {κ : Type}

structure Walk where
  nodes : List NodeId
  ends : Bool

def Walk.append (v w : Walk) : Walk := if v.ends then ⟨v.nodes ++ w.nodes, w.ends⟩ else v

/-- The nodes of a schema, the fields of a node before the node; a node held twice comes twice. The
walk breaks off where it goes deeper than `depth`. -/
def Heap.postOrderTo (h : Heap κ) : (depth : Nat) → NodeId → Walk
  | 0, _ => ⟨[], false⟩
  | depth + 1, n =>
    let below := ((h.node n).fields.getD []).foldl
      (fun (done : Walk) f => if done.ends then done.append (h.postOrderTo depth f.2) else done)
      ⟨[], true⟩
    below.append ⟨[n], true⟩

/-- The nodes of a schema. A path without repetition is no longer than the heap, so the walk breaks
off only at a node inside itself. -/
def Heap.postOrder (h : Heap κ) (n : NodeId) : Walk := h.postOrderTo h.nodes.length n

def Heap.setRules (h : Heap κ) (n : NodeId) (rules : List (Value κ)) : Heap κ :=
  h.setNode n { h.node n with rules := some rules, rulesMark := .fresh }

variable [Inspect κ]

def mapNode (host : Host κ) (mapper : Value κ) (options : OptionsArg κ) (h : Heap κ)
    (n : NodeId) : Run (Event κ) κ (Option (List (Value κ))) := do
  let copies ← Run.of ((Value.deepCopyAll ((h.node n).rules.getD [])))
  applyMapper host mapper (.list .fresh copies) options

/-- Maps the rules of nodes, one after the other. What objects answer may depend on the calls `made`
before. The nodes before a fault keep their new rules. -/
def mapNodes (hosts : List (Event κ) → Host κ) (mapper : Value κ) (options : OptionsArg κ) :
    (made : List (Event κ)) → List NodeId → Heap κ → Run (Event κ) κ Unit × Heap κ
  | _, [], h => (pure (), h)
  | made, n :: ns, h =>
    let mapped := mapNode (hosts made) mapper options h n
    match mapped.outcome with
    | .error f => (⟨mapped.events, .error f⟩, h)
    | .ok rules =>
      let h := match rules with
        | some rules => h.setRules n rules
        | none => h
      let (rest, h) := mapNodes hosts mapper options (made ++ mapped.events) ns h
      (⟨mapped.events ++ rest.events, rest.outcome⟩, h)

def compileNodeWith (hosts : List (Event κ) → Host κ) (mapper : Value κ) (options : OptionsArg κ)
    (n : NodeId) (h : Heap κ) : Run (Event κ) κ Unit × Heap κ :=
  let walk := h.postOrder n
  let (r, h) := mapNodes hosts mapper options [] walk.nodes h
  (do
    r
    if !walk.ends then throw (.misuse .endless), h)

def compileNode (host : Host κ) (mapper : Value κ) (options : OptionsArg κ) (n : NodeId)
    (h : Heap κ) : Run (Event κ) κ Unit × Heap κ :=
  compileNodeWith (fun _ => host) mapper options n h

structure Compiled (κ : Type) where
  root : NodeId
  options : Options κ
  pipeline : Pipeline κ

def compileWith (hosts : List (Event κ) → Host κ) (schema : SchemaArg) (mapper : Value κ)
    (options : OptionsArg κ) (pipeline : Pipeline κ) (h : Heap κ) :
    Run (Event κ) κ (Compiled κ) × Heap κ :=
  match schema with
  | .named _ => (throw (.rootKind "str"), h)
  | .other kind => (throw (.rootKind kind), h)
  | .node n =>
    if !mapper.isCallable then (throw (.mapperKind mapper.kind), h)
    else match options.resolve with
      | .error f => (throw f, h)
      | .ok resolved =>
        match (Build.clone n).run h with
        | (.error f, h) => (throw f, h)
        | (.ok root, h) =>
          let (r, h) := compileNodeWith hosts mapper (.options resolved) root h
          (do
            r
            let options ← Run.of resolved.withoutValidator
            return { root, options, pipeline }, h)

def compile (host : Host κ) (schema : SchemaArg) (mapper : Value κ) (options : OptionsArg κ)
    (pipeline : Pipeline κ) (h : Heap κ) : Run (Event κ) κ (Compiled κ) × Heap κ :=
  compileWith (fun _ => host) schema mapper options pipeline h

def Compiled.verify (c : Compiled κ) (host : Host κ) (wording : Wording κ) (heap : Heap κ)
    (value : Value κ) : Run (Event κ) κ (Verdict κ) :=
  SchemaTree.verify host wording heap (.node c.root) value (.options c.options) c.pipeline

def Heap.renderCompiled (h : Heap κ) (root : NodeId) : Except (Fault κ) String := do
  return "CompiledSchema(" ++ (← h.render root) ++ ")"

end SchemaTree
