import SchemaTree.Fault.Basic

/-!
What can be asked of any value: the name of its kind, its truth, whether it can be called or be a
key, and what it yields when iterated. Objects answer for themselves, and some of them refuse; a
value that counts as false yields nothing and has no entries.
-/

namespace SchemaTree

class Inspect (κ : Type) where
  kind : κ → String
  /-- The printed form, and the form that messages take up. -/
  render : κ → Except (Fault κ) String
  text : κ → Except (Fault κ) String
  /-- The text that an object stands for as a key: it is equal to it. -/
  asText : κ → Option String := fun _ => none
  truth : κ → Except (Fault κ) Bool
  callable : κ → Bool
  /-- Whether two objects are one, and whether they are equal. -/
  identical : κ → κ → Bool
  same : κ → κ → Bool
  asText_of_identical : ∀ {a b : κ}, identical a b = true → asText a = asText b := by
    intros; rfl
  canBeKey : κ → Bool
  canBeKey_of_asText : ∀ {o : κ} {t : String}, asText o = some t → canBeKey o = true := by
    intro _ _ h; cases h
  items : κ → Except (Fault κ) (List (Value κ))
  /-- Whether an object is a sequence, and neither a text nor bytes. -/
  sequence : κ → Bool := fun _ => false
  deepCopy : κ → Except (Fault κ) κ
  shallowCopy : κ → Except (Fault κ) κ
  fixed : κ → Bool
  /-- The object with new contents for the containers that it holds, by their marks. -/
  replace : (Mark → Option (Value κ)) → κ → κ

namespace Value

variable {κ : Type} [Inspect κ]

def kind : Value κ → String
  | .null => "NoneType"
  | .bool _ => "bool"
  | .int _ => "int"
  | .float .. => "float"
  | .str _ => "str"
  | .bytes _ => "bytes"
  | .missing => "_Missing"
  | .list .. => "list"
  | .tuple .. => "tuple"
  | .mapping .. => "dict"
  | .invalid .. => "Invalid"
  | .object o => Inspect.kind o

/-- Whether a value counts as true. Only an object can refuse to answer. -/
def isTrue : Value κ → Except (Fault κ) Bool
  | .null | .missing => .ok false
  | .bool b => .ok b
  | .int n => .ok (n != 0)
  | .float _ t => .ok (t != "0.0" && t != "-0.0")
  | .str t => .ok (t != "")
  | .bytes bs => .ok !bs.isEmpty
  | .list _ xs | .tuple _ xs => .ok !xs.isEmpty
  | .mapping _ es => .ok !es.isEmpty
  | .invalid .. => .ok true
  | .object o => Inspect.truth o

def isCallable : Value κ → Bool
  | .object o => Inspect.callable o
  | _ => false

mutual

def canBeKey : Value κ → Bool
  | .list .. | .mapping .. => false
  | .tuple _ xs => allCanBeKeys xs
  | .invalid _ n p => n.canBeKey && p.canBeKey
  | .object o => Inspect.canBeKey o
  | _ => true

def allCanBeKeys : List (Value κ) → Bool
  | [] => true
  | x :: xs => x.canBeKey && allCanBeKeys xs

end

def isSequence : Value κ → Bool
  | .list .. | .tuple .. => true
  | .object o => Inspect.sequence o
  | _ => false

/-- What a value yields when it is iterated: the items of an array, the keys of a mapping, the
characters of a text, the octets of bytes, and what an object yields. Other values cannot be
iterated. -/
def items : Value κ → Except (Fault κ) (List (Value κ))
  | .list _ xs | .tuple _ xs => .ok xs
  | .mapping _ es => .ok (es.map (·.1))
  | .str t => .ok (t.toList.map fun c => .str (String.singleton c))
  | .bytes bs => .ok (bs.map fun b => .int b.toNat)
  | .object o => Inspect.items o
  | _ => .error (.misuse .unsupported)

def elements (v : Value κ) : Except (Fault κ) (List (Value κ)) := do
  if ← v.isTrue then v.items else return []

def entries (v : Value κ) : Except (Fault κ) (Entries κ) := do
  if ← v.isTrue then
    match v with
    | .mapping _ es => return es
    | _ => throw (.misuse .noSuchPart)
  else return []

end Value

end SchemaTree
