import SchemaTree.Check.Position
import SchemaTree.Heap
import SchemaTree.Message
import SchemaTree.Rule
import SchemaTree.Sequence

/-!
What a run of checks goes by: the schema, the options, the caller's callables, the words for
failures, and the checks that the caller puts in place of the ones of this library.
-/

namespace SchemaTree

/-- The checks that can be replaced. -/
inductive Stage where
  /-- A value is there, or need not be. -/
  | required
  | shape
  | rules
  /-- The fields of the value, or of each item of an array. -/
  | contents
  | fields
  | mapping
  | excess
  | nested
  deriving DecidableEq, Repr

/-- A check of the caller, given the schema, the options, the node, the value and its position. -/
abbrev Check (κ : Type) :=
  Heap κ → Options κ → NodeId → Value κ → Position → Run (Event κ) κ (Signal κ)

abbrev Pipeline (κ : Type) := Stage → Option (Check κ)

def Pipeline.standard {κ : Type} : Pipeline κ := fun _ => none

structure Setting (κ : Type) where
  host : Host κ
  wording : Wording κ
  heap : Heap κ
  options : Options κ
  pipeline : Pipeline κ := Pipeline.standard

def Wording.failure {κ : Type} [Inspect κ] (w : Wording κ) (name params value : Value κ)
    (p : Position) : Run (Event κ) κ (Signal κ) := do
  let index : Value κ := match p.index with
    | some i => .int i
    | none => .null
  let e ← Run.of (w.resultError name params value index (.list .fresh (p.path.map .str)))
  return .fail (.result e)

namespace Setting

abbrev Local (κ : Type) := NodeId → Value κ → Position → Run (Event κ) κ (Signal κ)

variable {κ : Type} (s : Setting κ)

def stage (stage : Stage) (check : Local κ) : Local κ :=
  match s.pipeline stage with
  | some c => c s.heap s.options
  | none => check

def isArray (n : NodeId) : Bool := (s.heap.node n).array == some true

end Setting

end SchemaTree
