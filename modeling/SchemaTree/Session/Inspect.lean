import SchemaTree.Session.Object

/-!
What the objects of a session answer about themselves. Nodes, registries and tables answer by the
state they share, so the answers are those of one session at one time. Objects hold values that
hold objects; a bound on that nesting comes from the numbers given so far.
-/

namespace SchemaTree.Session

variable {σ : Type} [Caller σ] (s : Session σ)

def phrase [Inspect (Object σ)] : Object σ → Option (Phrase (Object σ))
  | .own _ c => Caller.phrase c
  | _ => none

/-- The words of the first table. Its own formatter cannot be replaced. -/
def wording [Inspect (Object σ)] : Wording (Object σ) where
  table := { s.tables.getD 0 {} with fallback := .generic }
  phrase

structure Seen where
  nodes : List NodeId := []
  registries : List RegistryId := []
  objects : List Mark := []

section answers

variable [Inspect (Object σ)]

def render : Object σ → Except (Fault (Object σ)) String
  | .own _ c => return Caller.text c
  | .node n | .nodeCopy n => s.heap.render n
  | .registry _ r => (s.heap.registry r).render
  | .options _ o => o.render
  | .verdict _ error valid failure => do
    let valid : Value (Object σ) := .bool valid
    return "VerifyResult(error=" ++ (← error.render) ++ ", valid=" ++ (← valid.render) ++
      ", result_error=" ++ (← failure.render) ++ ")"
  | .compiled _ root .. => s.heap.renderCompiled root
  | .problem _ p => p.render
  | o => return "<" ++ o.kind ++ ">"

def text : Object σ → Except (Fault (Object σ)) String
  | .problem _ p => p.text
  | o => s.render o

def truth : Object σ → Except (Fault (Object σ)) Bool
  | .own _ c => Caller.truth c
  | .registry _ r => return !(s.heap.registry r).entries.isEmpty
  | .verdict _ _ valid _ => return valid
  | .problem _ p => p.truth
  | _ => return true

/-- Options and verdicts are equal if their parts are, all else only to itself. -/
def same : Object σ → Object σ → Bool
  | .options _ o, .options _ p => o.same p
  | .verdict _ e v f, .verdict _ e' v' f' => e.agrees e' && v == v' && f.agrees f'
  | o, p => o.identical p

def canBeKey : Object σ → Bool
  | .options .. => false
  | .verdict _ error _ failure => error.canBeKey && failure.canBeKey
  | _ => true

def items : Object σ → Except (Fault (Object σ)) (List (Value (Object σ)))
  | .verdict _ error valid failure => return [error, .bool valid, failure]
  | _ => throw (.misuse .unsupported)

/-- An error that is copied is made anew from its text, and then takes over its data. The text of a
rule's failure counts as the name of a rule there; a result error cannot be made of a text alone. -/
def recopied (p : Problem (Object σ)) : Except (Fault (Object σ)) (Problem (Object σ)) :=
  match p.detail with
  | .none => .ok p
  | .rule v => do
    let anew ← s.wording.validation (p.message.getD .null) .null
    return { p with message := some (.str anew.text), detail := .rule { v with text := anew.text } }
  | .result _ => .error (.misuse .unsupported)

section copies

variable (inner : Seen → Inspect (Object σ))

mutual

/-- What the deep copy of a node comes to. A node holds its registry, which cannot be copied; the
refusal is the first one that is met, in the registry or in the node. -/
def refuseNode : (depth : Nat) → Seen → NodeId → Except (Fault (Object σ)) Unit
  | 0, _, _ => return ()
  | depth + 1, seen, n =>
    if seen.nodes.contains n then return ()
    else do
      let seen := { seen with nodes := n :: seen.nodes }
      let node := s.heap.node n
      refuseRegistry depth seen node.registry
      (node.fields.getD []).forM fun f => refuseNode depth seen f.2
      let _ := inner seen
      let _ ← Value.deepCopyAll (node.rules.getD [])

def refuseRegistry : (depth : Nat) → Seen → RegistryId → Except (Fault (Object σ)) Unit
  | 0, _, _ => return ()
  | depth + 1, seen, r =>
    if seen.registries.contains r then return ()
    else do
      let seen := { seen with registries := r :: seen.registries }
      let registry := s.heap.registry r
      let _ := inner seen
      let _ ← registry.name.deepCopy
      registry.entries.forM fun e => refuseNode depth seen e.2
      throw (.misuse .unsupported)

end

/-- More than the nodes and registries that can lead to each other. -/
def reach : Nat := 2 * (s.heap.nodes.length + s.heap.registries.length) + 2

/-- The deep copy of an object that is not being copied already. A node or a registry that is being
copied is not refused again, as the copy is refused where it began. -/
def copyAnew (seen : Seen) (o : Object σ) : Except (Fault (Object σ)) (Object σ) :=
  let _ := inner seen
  match o with
  | .own m c =>
    match Caller.copying c with
    | .itself => .ok (.own m c)
    | .anew deep _ => deep.map fun _ => .own m.copied c
  | .node n | .nodeCopy n => do
    s.refuseNode inner s.reach seen n
    return .node n
  | .registry m r => do
    s.refuseRegistry inner s.reach seen r
    return .registry m r
  | .loader m r => do
    s.refuseRegistry inner s.reach seen r
    return .loader m.copied r
  | .compiled m n o pipeline => do
    s.refuseNode inner s.reach seen n
    return .compiled m.copied n (← o.deepCopy) (← pipeline.deepCopy)
  | .table m t => do
    return .tableCopy m.copied (← (s.tables.getD t {}).mapValues Value.deepCopy)
  | .tableCopy m table => do return .tableCopy m.copied (← table.mapValues Value.deepCopy)
  | .options m o => do
    return .options m.copied {
      validator := ← o.validator.deepCopy, ignoreExcess := ← o.ignoreExcess.deepCopy
      extra := ← o.extra.deepCopy }
  | .verdict m error valid failure => do
    return .verdict m.copied (← error.deepCopy) valid (← failure.deepCopy)
  | .problem m p => do return .problem m.copied (← (← s.recopied p).mapValues Value.deepCopy)

def deepCopy (seen : Seen) (o : Object σ) : Except (Fault (Object σ)) (Object σ) :=
  if seen.objects.contains o.mark then .ok o
  else
    let objects := if o.mark == .fresh then seen.objects else o.mark :: seen.objects
    s.copyAnew inner { seen with objects } o

end copies

def shallowCopy : Object σ → Except (Fault (Object σ)) (Object σ)
  | .own m c =>
    match Caller.copying c with
    | .itself => .ok (.own m c)
    | .anew _ shallow => shallow.map fun _ => .own .fresh c
  | .node n | .nodeCopy n => .ok (.nodeCopy n)
  | .registry _ r => .ok (.registry .fresh r)
  | .table _ t => .ok (.table .fresh t)
  | .tableCopy _ table => .ok (.tableCopy .fresh table)
  | .loader _ r => .ok (.loader .fresh r)
  | .options _ o => .ok (.options .fresh o)
  | .verdict _ error valid failure => .ok (.verdict .fresh error valid failure)
  | .compiled _ root o pipeline => .ok (.compiled .fresh root o pipeline)
  | .problem _ p => do return .problem .fresh (← s.recopied p)

end answers

def fixed : Object σ → Bool
  | .own _ c =>
    match Caller.copying c with
    | .itself => true
    | .anew .. => false
  | _ => false

/-- The answers of objects while the objects `seen` are being copied, with objects nested up to
`depth` inside them. -/
@[reducible] def inspectTo : (depth : Nat) → Seen → Inspect (Object σ)
  | 0, _ => {
      kind := Object.kind
      render := fun _ => .error (.misuse .endless), text := fun _ => .error (.misuse .endless)
      truth := fun _ => .error (.misuse .endless)
      callable := Object.callable, identical := Object.identical, same := Object.identical
      canBeKey := fun _ => true, items := fun _ => .error (.misuse .endless)
      deepCopy := fun _ => .error (.misuse .endless)
      shallowCopy := fun _ => .error (.misuse .endless), fixed, replace := fun _ o => o }
  | depth + 1, seen => {
      kind := Object.kind
      render := fun o => let _ := inspectTo depth {}; s.render o
      text := fun o => let _ := inspectTo depth {}; s.text o
      truth := fun o => let _ := inspectTo depth {}; s.truth o
      callable := Object.callable, identical := Object.identical
      same := fun o p => let _ := inspectTo depth {}; same o p
      canBeKey := fun o => let _ := inspectTo depth {}; canBeKey o
      items := fun o => let _ := inspectTo depth {}; items o
      deepCopy := fun o => let _ := inspectTo depth {}; s.deepCopy (inspectTo depth) seen o
      shallowCopy := fun o => let _ := inspectTo depth {}; s.shallowCopy o
      fixed
      replace := fun content =>
        let _ := inspectTo depth {}
        Object.map fun v => v.replace content (Inspect.replace content) }

/-- The answers of the objects of a session. A number is given for every object that holds values,
and every node and registry is copied once on the way, so nesting ends below the bound. -/
@[reducible] def inspect : Inspect (Object σ) :=
  s.inspectTo ((s.next + 2) * (s.heap.nodes.length + s.heap.registries.length + 2)) {}

end SchemaTree.Session
