import SchemaTree.Text.Quoted
import SchemaTree.Value.Inspect

/-!
The printed forms of a value: `render` shows its structure, with text quoted; `text` is the same
but gives a text as it stands, and an object in the form it has for messages.
-/

namespace SchemaTree.Value

variable {κ : Type}

def digitLimit : Nat := 4300

def decimal (n : Int) : Except (Fault κ) String :=
  if (Nat.toDigits 10 n.natAbs).length ≤ digitLimit then .ok (toString n)
  else .error (.misuse .wrongSize)

variable [Inspect κ]

mutual

def render : Value κ → Except (Fault κ) String
  | .null => return "None"
  | .bool b => return if b then "True" else "False"
  | .int n => decimal n
  | .float _ t => return t
  | .str t => return Text.quoted t
  | .bytes bs => return Text.quotedBytes bs
  | .missing => return "MISSING"
  | .list _ xs => do return "[" ++ ", ".intercalate (← renderAll xs) ++ "]"
  | .tuple _ [x] => do return "(" ++ (← x.render) ++ ",)"
  | .tuple _ xs => do return "(" ++ ", ".intercalate (← renderAll xs) ++ ")"
  | .mapping _ es => do return "\x7b" ++ ", ".intercalate (← renderEntries es) ++ "\x7d"
  | .invalid _ n p => do
    return "Invalid(rule_name=" ++ (← n.render) ++ ", rule_params=" ++ (← p.render) ++ ")"
  | .object o => Inspect.render o

def renderAll : List (Value κ) → Except (Fault κ) (List String)
  | [] => return []
  | x :: xs => do return (← x.render) :: (← renderAll xs)

def renderEntries : Entries κ → Except (Fault κ) (List String)
  | [] => return []
  | (k, v) :: es => do
    let key ← k.render
    return (key ++ ": " ++ (← v.render)) :: (← renderEntries es)

end

def text : Value κ → Except (Fault κ) String
  | .str t => return t
  | .object o => Inspect.text o
  | v => v.render

end SchemaTree.Value
