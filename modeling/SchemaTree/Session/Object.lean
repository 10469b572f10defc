import SchemaTree.Builder
import SchemaTree.Compile
import SchemaTree.Fault.Problem

/-!
The objects of a session: what a caller can hold besides plain data. Schema nodes, registries and
message tables are shared and referred to by number; options, verdicts and errors hold their parts.
An object of the caller's own is of type `σ`, and `Caller` says what it does.
-/

namespace SchemaTree

abbrev TableId := Nat

/-- What a copy of an object is: the object itself, or a new one, unless the copy is refused. -/
inductive Copying (κ : Type) where
  | itself
  | anew (deep shallow : Except (Fault κ) Unit)

inductive Object (σ : Type) where
  | own (mark : Mark) (s : σ)
  | node (n : NodeId)
  | nodeCopy (n : NodeId)
  | registry (mark : Mark) (r : RegistryId)
  | table (mark : Mark) (t : TableId)
  | tableCopy (mark : Mark) (table : MessageTable (Object σ))
  | loader (mark : Mark) (r : RegistryId)
  | options (mark : Mark) (o : Options (Object σ))
  | verdict (mark : Mark) (error : Value (Object σ)) (valid : Bool)
      (resultError : Value (Object σ))
  | compiled (mark : Mark) (root : NodeId) (options pipeline : Value (Object σ))
  | problem (mark : Mark) (p : Problem (Object σ))

/-- What the objects of the caller are and do. One that has no part to play in a role has no meaning
in it. -/
class Caller (σ : Type) where
  kind : σ → String
  text : σ → String
  truth : σ → Except (Fault (Object σ)) Bool
  callable : σ → Bool
  copying : σ → Copying (Object σ)
  map : (Value (Object σ) → Value (Object σ)) → σ → σ
  rule : [Inspect (Object σ)] → Wording (Object σ) → σ →
    Option (Value (Object σ) → Except (Fault (Object σ)) (Value (Object σ)))
  mapper : [Inspect (Object σ)] → σ →
    Option (Value (Object σ) → OptionsArg (Object σ) →
      Except (Fault (Object σ)) (Value (Object σ)))
  phrase : [Inspect (Object σ)] → σ → Option (Phrase (Object σ))
  pipeline : [Inspect (Object σ)] → Wording (Object σ) → σ → Option (Pipeline (Object σ))

/-- The state that objects share, and the names that values are bound to, oldest first. -/
structure Session (σ : Type) where
  heap : Heap (Object σ) := Heap.initial
  tables : List (MessageTable (Object σ)) := [MessageTable.builtin]
  bindings : List (String × Value (Object σ)) := []
  next : Nat := 1
  /-- The numbers of the containers that the value in hand holds at several places. -/
  labels : List (Nat × Nat) := []
  /-- The tables that the value in hand holds at several places, by their labels. -/
  copies : List (Nat × Object σ) := []

namespace Object

variable {σ : Type} [Caller σ]

def kind : Object σ → String
  | .own _ s => Caller.kind s
  | .node _ | .nodeCopy _ => "SchemaNode"
  | .registry .. => "SchemaRegistry"
  | .table .. | .tableCopy .. => "MessageTable"
  | .loader .. => "SchemaLoader"
  | .options .. => "VerifyOptions"
  | .verdict .. => "VerifyResult"
  | .compiled .. => "CompiledSchema"
  | .problem _ p => p.kind

def callable : Object σ → Bool
  | .own _ s => Caller.callable s
  | .compiled .. => true
  | _ => false

def identical : Object σ → Object σ → Bool
  | .node n, .node m => n == m
  | .own a _, .own b _ | .registry a _, .registry b _ | .table a _, .table b _
  | .loader a _, .loader b _ | .options a _, .options b _ | .verdict a .., .verdict b ..
  | .compiled a .., .compiled b .. | .problem a _, .problem b _ => a.isSame b
  | _, _ => false

def mark : Object σ → Mark
  | .own m _ | .registry m _ | .table m _ | .tableCopy m _ | .loader m _ | .options m _
  | .verdict m .. | .compiled m .. | .problem m _ => m
  | .node _ | .nodeCopy _ => .fresh

def map (f : Value (Object σ) → Value (Object σ)) : Object σ → Object σ
  | .own m s => .own m (Caller.map f s)
  | .options m o => .options m {
      validator := f o.validator, ignoreExcess := f o.ignoreExcess, extra := f o.extra }
  | .verdict m error valid failure => .verdict m (f error) valid (f failure)
  | .compiled m root o pipeline => .compiled m root (f o) (f pipeline)
  | .problem m p => .problem m (Id.run (p.mapValues f))
  | o => o

end Object

end SchemaTree
