import SchemaTree.Check.Node

/-!
Checking a value against a schema, from the root. The verdict is: valid, or a fault of a rule or
mapper, or the failure of the value at one place.
-/

namespace SchemaTree

structure Verdict (κ : Type) where
  error : Option (Fault κ)
  valid : Bool
  resultError : Option (ResultError κ)

def Verdict.ofSignal {κ : Type} : Signal κ → Verdict κ
  | .pass | .stop => ⟨none, true, none⟩
  | .fail (.result e) => ⟨none, false, some e⟩
  | .fail f => ⟨some f, false, none⟩

/-- The verdict on a value. A coroutine makes it, whatever the error that comes out of it. -/
def verify {κ : Type} [Inspect κ] (host : Host κ) (wording : Wording κ) (heap : Heap κ)
    (schema : SchemaArg) (value : Value κ) (options : OptionsArg κ)
    (pipeline : Pipeline κ := Pipeline.standard) :
    Run (Event κ) κ (Verdict κ) :=
  match schema with
  | .node n => Run.awaited do
    let options ← Run.of options.resolve
    let s : Setting κ := { host, wording, heap, options, pipeline }
    return Verdict.ofSignal (← s.verifyAt n value {})
  | .named _ => throw (.rootKind "str")
  | .other kind => throw (.rootKind kind)

end SchemaTree
