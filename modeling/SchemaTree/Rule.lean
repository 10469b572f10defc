import SchemaTree.Options
import SchemaTree.Run

/-!
Rules and mappers. A node holds descriptors, which may be any data; a mapper makes rules of them,
and a rule is a callable that is given a value. What a callable does is up to the caller.
-/

namespace SchemaTree

variable {κ : Type}

/-- The meaning of the objects that can be called. One that cannot be called in a role has no
meaning in it. -/
structure Host (κ : Type) where
  rule : κ → Option (Value κ → Except (Fault κ) (Value κ))
  mapper : κ → Option (Value κ → OptionsArg κ → Except (Fault κ) (Value κ))

inductive Event (κ : Type) where
  | rule (o : κ) (value : Value κ)
  | map (o : κ) (descriptors : Value κ)

/-- Calls a rule, as a coroutine does. -/
def callRule (host : Host κ) (rule value : Value κ) : Run (Event κ) κ (Value κ) :=
  match rule with
  | .object o =>
    match host.rule o with
    | some f => do
      Run.tell (.rule o value)
      Run.of ((f value).mapError (Fault.outOf "coroutine"))
    | none => throw (.misuse .unsupported)
  | _ => throw (.misuse .unsupported)

/-- The rules that a mapper's answer stands for: none at all, one callable, or a sequence of
them. -/
def normalizeRules [Inspect κ] (mapped : Value κ) : Except (Fault κ) (Option (List (Value κ))) :=
  match mapped with
  | .null => .ok none
  | mapped =>
    if mapped.isCallable then .ok (some [mapped])
    else if mapped.isSequence then do
      let rules ← mapped.items
      if rules.all Value.isCallable then return some rules else throw (.mappedKind mapped.kind)
    else .error (.mappedKind mapped.kind)

@[simp] theorem normalizeRules_list [Inspect κ] (m : Mark) (rules : List (Value κ)) :
    normalizeRules (.list m rules) =
      if rules.all Value.isCallable then .ok (some rules) else .error (.mappedKind "list") :=
  rfl

def callMapper (host : Host κ) (mapper descriptors : Value κ) (options : OptionsArg κ) :
    Run (Event κ) κ (Value κ) :=
  match mapper with
  | .object o =>
    match host.mapper o with
    | some f => do
      Run.tell (.map o descriptors)
      Run.of (f descriptors options)
    | none => throw (.misuse .unsupported)
  | _ => throw (.misuse .unsupported)

def applyMapper [Inspect κ] (host : Host κ) (mapper descriptors : Value κ)
    (options : OptionsArg κ) : Run (Event κ) κ (Option (List (Value κ))) := do
  let mapped ← callMapper host mapper descriptors options
  Run.of (normalizeRules mapped)

end SchemaTree
