import SchemaTree.Run

/-!
Steps one after the other. Each step answers with a signal that lets the sequence go on, ends it
softly, or ends it with a report; the first signal that does not go on decides.
-/

namespace SchemaTree

inductive Pace where
  | go
  | halt
  | report
  deriving DecidableEq, Repr

/-- A type of signals. Reading a signal can fail. -/
class Paced (κ : outParam Type) (σ : Type) where
  pace : σ → Except (Fault κ) Pace

inductive Signal (κ : Type) where
  | pass
  | stop
  | fail (f : Fault κ)

/-- A fault is a report if it counts as true. One that does not is passed over. -/
instance {κ : Type} : Paced κ (Signal κ) where
  pace
    | .pass => .ok .go
    | .stop => .ok .halt
    | .fail f => do return if ← f.truth then .report else .go

/-- Any value is a signal: one that counts as false goes on, the truth value ends softly, all else
is a report. -/
instance {κ : Type} [Inspect κ] : Paced κ (Value κ) where
  pace v := do
    if !(← v.isTrue) then return .go
    match v with
    | .bool _ => return .halt
    | _ => return .report

variable {ε κ ι α σ : Type} [Paced κ σ]

/-- Runs `step` on each entry, in order, until one ends the sequence. What a step does may depend on
the entries for which steps were `made` before, the latest one first. The result is the report, if
there is one. -/
def iterateWith (step : List (ι × α) → ι → α → Run ε κ σ) :
    (made : List (ι × α)) → List (ι × α) → Run ε κ (Option σ)
  | _, [] => return none
  | made, (key, item) :: rest => do
    let signal ← step made key item
    match ← Run.of (Paced.pace signal) with
    | .go => iterateWith step ((key, item) :: made) rest
    | .halt => return none
    | .report => return some signal

def iterate (step : ι → α → Run ε κ σ) : List (ι × α) → Run ε κ (Option σ) :=
  iterateWith (fun _ => step) []

def indexed (start : Nat) : List α → List (Nat × α)
  | [] => []
  | x :: xs => (start, x) :: indexed (start + 1) xs

def iterateList (step : Nat → α → Run ε κ σ) (items : List α) : Run ε κ (Option σ) :=
  iterate step (indexed 0 items)

def Signal.ofReport : Option (Signal κ) → Signal κ
  | some s => s
  | none => .pass

end SchemaTree
