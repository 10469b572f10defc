import SchemaTree.Value.Entries
import SchemaTree.Value.Text

/-!
The options of a check: a mapper to apply to each node's rules, whether keys without a field are
ignored, and settings that only mappers read. They come from a mapping, or from a flag of the
environment with a mapping on top.
-/

namespace SchemaTree

structure Options (κ : Type) where
  validator : Value κ := .null
  ignoreExcess : Value κ := .bool false
  extra : Value κ := .mapping .fresh []

namespace Options

variable {κ : Type} [Inspect κ]

private def pair (v : Value κ) : Except (Fault κ) (Value κ × Value κ) := do
  match ← v.items with
  | [key, value] => if key.canBeKey then return (key, value) else throw (.misuse .unsupported)
  | _ => throw (.misuse .wrongSize)

/-- Reads a mapping, or a sequence of pairs in which the last one for a key counts. -/
def entriesOf : Value κ → Except (Fault κ) (Entries κ)
  | .mapping _ es => .ok es
  | v => do return Entries.insertAll (← (← v.items).mapM pair) []

def canBeMapper : Value κ → Bool
  | .null => true
  | v => v.isCallable

def isOwnName (key : Value κ) : Bool :=
  match key.asText with
  | some k => k == "validator" || k == "ignore_excess" || k == "ignoreExcess"
  | none => false

/-- Options from a mapping. `ignoreExcess` stands in for `ignore_excess` where that is absent. -/
def ofValue (data : Value κ) : Except (Fault κ) (Options κ) := do
  let given ← entriesOf data
  let validator := (Entries.get? (.str "validator") given).getD .null
  let fallback := (Entries.get? (.str "ignoreExcess") given).getD (.bool false)
  let ignore := (Entries.get? (.str "ignore_excess") given).getD fallback
  if !canBeMapper validator then throw (.validatorKind validator.kind)
  return {
    validator
    ignoreExcess := .bool (← ignore.isTrue)
    extra := .mapping .fresh (given.filter fun e => !isOwnName e.1) }

def flagName : String := "DATAKNOBS_SCHEMA_IGNORE_EXCESS"

private def lower (c : Char) : Char :=
  if 'A' ≤ c && c ≤ 'Z' then Char.ofNat (c.toNat + 32) else c

/-- Reads a switch: blanks around it and the case of its ASCII letters do not matter, and no other
letter has one of them as its lower case. -/
def flag? (text : String) : Option Bool :=
  let inner := ((text.toList.dropWhile Text.isBlank).reverse.dropWhile Text.isBlank).reverse
  let word := String.ofList (inner.map lower)
  if word = "1" ∨ word = "true" ∨ word = "yes" ∨ word = "on" then some true
  else if word = "0" ∨ word = "false" ∨ word = "no" ∨ word = "off" ∨ word = "" then some false
  else none

/-- Whether an entry beside the environment can have that name: any text but the one that stands for
the options themselves. -/
def canBeName : Value κ → Bool
  | .str name => name != "cls"
  | _ => false

def ofSetting (setting : Option String) (overrides : Entries κ) :
    Except (Fault κ) (Options κ) := do
  if !overrides.all fun e => canBeName e.1 then throw (.misuse .unsupported)
  let ignore ← match setting with
    | none => pure false
    | some text =>
      match flag? text with
      | some b => pure b
      | none => throw (.flagText flagName text)
  ofValue (.mapping .fresh (Entries.insertAll overrides [(.str "ignore_excess", .bool ignore)]))

def withoutValidator (o : Options κ) : Except (Fault κ) (Options κ) := do
  return { o with validator := .null, extra := .mapping .fresh (← entriesOf o.extra) }

/-- The option of that name, or else the extra setting, or else the default. What equals the name of
an option and is no text is not taken for one. -/
def get (o : Options κ) (key default : Value κ) : Except (Fault κ) (Value κ) :=
  match key with
  | .str "validator" => .ok o.validator
  | .str "ignore_excess" => .ok o.ignoreExcess
  | _ =>
    if key.asText = some "validator" ∨ key.asText = some "ignore_excess" then
      .error (.misuse .unsupported)
    else match o.extra with
      | .mapping _ es =>
        if key.canBeKey then .ok ((Entries.get? key es).getD default)
        else .error (.misuse .unsupported)
      | _ => .error (.misuse .noSuchPart)

def toValue (o : Options κ) : Except (Fault κ) (Value κ) :=
  match o.extra with
  | .mapping _ es =>
    .ok (.mapping .fresh (Entries.insertAll es
      [(.str "validator", o.validator), (.str "ignore_excess", o.ignoreExcess)]))
  | _ => .error (.misuse .unsupported)

def same (o p : Options κ) : Bool :=
  o.validator.agrees p.validator && o.ignoreExcess.agrees p.ignoreExcess && o.extra.agrees p.extra

def render (o : Options κ) : Except (Fault κ) String := do
  return "VerifyOptions(validator=" ++ (← o.validator.render) ++ ", ignore_excess=" ++
    (← o.ignoreExcess.render) ++ ", extra=" ++ (← o.extra.render) ++ ")"

end Options

inductive OptionsArg (κ : Type) where
  | options (o : Options κ)
  | value (v : Value κ)

def OptionsArg.resolve {κ : Type} [Inspect κ] : OptionsArg κ → Except (Fault κ) (Options κ)
  | .options o => .ok o
  | .value .null => .ok {}
  | .value v =>
    match v with
    | .mapping .. => Options.ofValue v
    | _ => .error (.optionsKind v.kind)

end SchemaTree
