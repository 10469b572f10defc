import SchemaTree.Session.Object

/-!
Containers and objects that are held in several places. `settle` gives a number to each one that has
none, so that it can be told from the others; `rewrite` shows a change of a container wherever it is
held; `commit` does both for all that an operation has left behind.
-/

namespace SchemaTree

abbrev Memory (σ : Type) := StateM (Session σ)

namespace Memory

variable {σ : Type}

def newNumber : Memory σ Nat := do
  let s ← get
  set { s with next := s.next + 1 }
  return s.next

/-- The number of a mark. A label is given one number. -/
def number : Mark → Memory σ Mark
  | .known n => return .known n
  | .fresh => .known <$> newNumber
  | .shared label => do
    match (← get).labels.lookup label with
    | some n => return .known n
    | none =>
      let n ← newNumber
      modify fun s => { s with labels := (label, n) :: s.labels }
      return .known n

def alone {α : Type} (x : Memory σ α) : Memory σ α := do
  let { labels, copies, .. } ← get
  modify fun s => { s with labels := [], copies := [] }
  let a ← x
  modify fun s => { s with labels, copies }
  return a

def copyNode (n : NodeId) : Memory σ NodeId := do
  let s ← get
  set { s with heap := s.heap.addNode (s.heap.node n) }
  return s.heap.nodes.length

def newTable (mark : Mark) (table : MessageTable (Object σ)) : Memory σ (Object σ) := do
  let s ← get
  set { s with tables := s.tables ++ [table] }
  return .table (← number mark) s.tables.length

/-- Numbers what an error holds. Parameters and value of a result error are copies made one after
the other, so each has labels of its own; the data of an error that has just arisen are made of
them. -/
def settleProblem (f : Value (Object σ) → Memory σ (Value (Object σ))) (p : Problem (Object σ)) :
    Memory σ (Problem (Object σ)) := do
  match p.context, p.detail with
  | some (.mapping .fresh _), .rule v =>
    let v := { v with params := ← alone (f v.params) }
    return { p with context := ← some <$> f v.context, detail := .rule v }
  | some (.mapping .fresh _), .result e =>
    let e ← e.mapValues fun v => alone (f v)
    return { p with context := ← some <$> f e.context, detail := .result e }
  | _, _ => p.mapValues f

def settleObject (f : Value (Object σ) → Memory σ (Value (Object σ))) :
    Object σ → Memory σ (Object σ)
  | .own m c => do return .own (← number m) c
  | .node n => return .node n
  | .nodeCopy n => do return .node (← copyNode n)
  | .registry m r => do return .registry (← number m) r
  | .table m t => do return .table (← number m) t
  | .tableCopy (.shared label) table => do
    match (← get).copies.lookup label with
    | some o => return o
    | none =>
      let o ← newTable (.shared label) (← table.mapValues f)
      modify fun s => { s with copies := (label, o) :: s.copies }
      return o
  | .tableCopy m table => do newTable m (← table.mapValues f)
  | .loader m r => do return .loader (← number m) r
  | .options m o => do
    let validator ← f o.validator
    let ignoreExcess ← f o.ignoreExcess
    return .options (← number m) { validator, ignoreExcess, extra := ← f o.extra }
  | .verdict m error valid failure => do
    let error ← f error
    return .verdict (← number m) error valid (← f failure)
  | .compiled m root o pipeline => do
    let m ← number m
    return .compiled m root (← f o) (← f pipeline)
  | .problem (.known n) p => return .problem (.known n) p
  | .problem m p => do
    let m ← number m
    return .problem m (← settleProblem f p)

/-- Numbers the containers and objects of a value that have no number, with objects nested up to
`depth` inside objects. -/
def settleTo : (depth : Nat) → Value (Object σ) → Memory σ (Value (Object σ))
  | 0, v => return v
  | depth + 1, v => v.traverse number (settleObject (settleTo depth))

def settle (v : Value (Object σ)) : Memory σ (Value (Object σ)) := do
  alone (settleTo ((← get).next + 4) v)

def settleNode (p : Node (Object σ)) : Memory σ (Node (Object σ)) := do
  let p ← match p.rules with
    | none => pure p
    | some xs => do
      let (rulesMark, rules) := (← settle (.list p.rulesMark xs)).listParts
      pure { p with rulesMark, rules := some rules }
  if p.fields.isSome then return { p with fieldsMark := ← alone (number p.fieldsMark) }
  else return p

/-- The value with the contents of lists and mappings by their numbers put in their places. No
content is put into itself. -/
def replaced [Caller σ] : (depth : Nat) → (contents : List (Nat × Value (Object σ))) →
    Value (Object σ) → Value (Object σ)
  | 0, _, v => v
  | depth + 1, contents, v =>
    let content : Mark → Option (Value (Object σ))
      | .known n =>
        let others := contents.filter fun e => e.1 != n
        (contents.lookup n).map (·.mapParts (replaced depth others))
      | _ => none
    v.replace content (Object.map (replaced depth contents))

def rewrite [Caller σ] (contents : List (Nat × Value (Object σ))) : Memory σ Unit :=
  if contents.isEmpty then return ()
  else modify fun s =>
    let f := replaced (s.next + 2) contents
    let node (p : Node (Object σ)) : Node (Object σ) :=
      match p.rules with
      | none => p
      | some xs => { p with rules := some (f (.list p.rulesMark xs)).listParts.2 }
    let registry (r : Registry (Object σ)) : Registry (Object σ) := { r with name := f r.name }
    { s with
      heap := { s.heap with
        nodes := s.heap.nodes.map node, registries := s.heap.registries.map registry }
      tables := s.tables.map fun t => Id.run (t.mapValues f)
      bindings := s.bindings.map fun b => (b.1, f b.2) }

/-- The contents of the containers of a value after `change` was applied to each, in order; one
that is held twice is changed twice. -/
def changed (change : Value (Object σ) → Value (Object σ)) (containers : List (Value (Object σ))) :
    List (Nat × Value (Object σ)) :=
  containers.foldl (fun done c =>
    match c.containerMark with
    | .known n => (n, change ((done.lookup n).getD c)) :: done.filter fun e => e.1 != n
    | _ => done) []

def update [Caller σ] (contents : List (Nat × Value (Object σ))) (v : Value (Object σ)) :
    Memory σ (Value (Object σ)) := do
  rewrite contents
  return replaced ((← get).next + 2) contents v

/-- Changes every list and mapping that a value holds, inner ones first, wherever the session holds
it, and gives the value as it is then. -/
def amend [Caller σ] (change : Value (Object σ) → Value (Object σ)) (v : Value (Object σ)) :
    Memory σ (Value (Object σ)) :=
  update (changed change v.containers) v

/-- Numbers a result and all that an operation has left in the heap, and shows in all places the
lists of rules that have grown. -/
def commit [Caller σ] (result : Value (Object σ)) : Memory σ (Value (Object σ)) := do
  let result ← settle result
  let contents ← (← get).heap.grown.mapM fun e => do
    return (e.1, ← settle (.list (.known e.1) e.2))
  modify fun s => { s with heap := { s.heap with grown := [] } }
  let result ← update contents result
  let nodes ← (← get).heap.nodes.mapM settleNode
  modify fun s => { s with heap := { s.heap with nodes } }
  return result

end Memory

end SchemaTree
