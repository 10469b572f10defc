import SchemaTree.Heap
import SchemaTree.Value.Inspect
import SchemaTree.Value.Traverse

/-!
Rules and fields that are added to a node. Several nodes may hold one list of rules or one record of
fields, and a list of rules may stand in other values too: what is added is seen by all of them.
-/

namespace SchemaTree

variable {κ : Type} [Inspect κ]

def Value.updated (lists : List (Nat × List (Value κ))) (v : Value κ) : Value κ :=
  let content : Mark → Option (Value κ)
    | .known k => (lists.lookup k).map (.list (.known k))
    | _ => none
  v.replace content (Inspect.replace content)

namespace Heap

variable (h : Heap κ)

/-- A value as it is by now: lists in it may have grown since it was given. -/
def current (v : Value κ) : Value κ := if h.grown.isEmpty then v else v.updated h.grown

def setList (k : Nat) (items : List (Value κ)) : Heap κ :=
  let update (v : Value κ) : Value κ := v.updated [(k, items)]
  let node (p : Node κ) : Node κ :=
    if p.rules.isSome && p.rulesMark == .known k then { p with rules := some items }
    else { p with rules := p.rules.map (·.map update) }
  { nodes := h.nodes.map node
    registries := h.registries.map fun r => { r with name := update r.name }
    grown := (k, items) ::
      (h.grown.filter fun e => e.1 != k).map fun e => (e.1, e.2.map update) }

def addRules (n : NodeId) (added : List (Value κ)) : Heap κ :=
  let p := h.node n
  let rules := p.rules.getD [] ++ added
  match p.rules, p.rulesMark with
  | some _, .known k => h.setList k rules
  | _, _ => h.setNode n { p with rules := some rules }

omit [Inspect κ] in
def addField (n : NodeId) (name : String) (child : NodeId) : Heap κ :=
  let p := h.node n
  let fields := some (p.fields.getD [] ++ [(name, child)])
  match p.fields, p.fieldsMark with
  | some _, .known k =>
    let node (q : Node κ) : Node κ :=
      if q.fields.isSome && q.fieldsMark == .known k then { q with fields } else q
    { h with nodes := h.nodes.map node }
  | _, _ => h.setNode n { p with fields }

end Heap

def Build.current (v : Value κ) : Build κ (Value κ) := do return (← get).current v

end SchemaTree
