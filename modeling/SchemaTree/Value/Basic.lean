/-!
Plain data as a schema sees it: scalars, containers, and objects of other kinds.

A container carries a mark that tells it from another one with the same content. Marks matter only
where a container is shared, changed in place or compared by identity; checking a value never looks
at them.
-/

namespace SchemaTree

/-- Which container or object a value is. -/
inductive Mark where
  /-- One that nobody else holds yet. -/
  | fresh
  | known (n : Nat)
  /-- One that has no number yet and may stand at several places of one value: where the label is
  the same, so is the container. -/
  | shared (label : Nat)
  deriving DecidableEq, Repr, Inhabited

/-- The mark of a deep copy: two places that hold one container hold one copy. -/
def Mark.copied : Mark → Mark
  | .fresh => .fresh
  | .known n | .shared n => .shared n

def Mark.isSame (a b : Mark) : Bool := a != .fresh && a == b

/-- A value that is checked, a rule descriptor, a parameter: all data is one type. Objects that are
no data are of type `κ`; a float is its shortest decimal text. -/
inductive Value (κ : Type) where
  | null
  | bool (b : Bool)
  | int (n : Int)
  | float (mark : Mark) (text : String)
  | str (text : String)
  | bytes (octets : List UInt8)
  /-- No value at all, unlike `null`, which is one. -/
  | missing
  | list (mark : Mark) (items : List (Value κ))
  | tuple (mark : Mark) (items : List (Value κ))
  | mapping (mark : Mark) (entries : List (Value κ × Value κ))
  /-- The outcome "invalid" of a rule, with the rule's name and parameters. -/
  | invalid (mark : Mark) (name params : Value κ)
  | object (o : κ)

/-- The entries of a mapping, in the order in which their keys were first set. -/
abbrev Entries (κ : Type) := List (Value κ × Value κ)

namespace Value

variable {κ : Type}

instance : Inhabited (Value κ) := ⟨.null⟩

/-- Arrays are lists and tuples; text and bytes are not arrays. -/
def isArray : Value κ → Bool
  | .list .. | .tuple .. => true
  | _ => false

def isMapping : Value κ → Bool
  | .mapping .. => true
  | _ => false

mutual

def erase : Value κ → Value κ
  | .float _ t => .float .fresh t
  | .list _ xs => .list .fresh (eraseAll xs)
  | .tuple _ xs => .tuple .fresh (eraseAll xs)
  | .mapping _ es => .mapping .fresh (eraseEntries es)
  | .invalid _ n p => .invalid .fresh n.erase p.erase
  | v => v

def eraseAll : List (Value κ) → List (Value κ)
  | [] => []
  | x :: xs => x.erase :: eraseAll xs

def eraseEntries : Entries κ → Entries κ
  | [] => []
  | (k, v) :: es => (k.erase, v.erase) :: eraseEntries es

end

mutual

def depth : Value κ → Nat
  | .list _ xs | .tuple _ xs => depthAll xs
  | .mapping _ es => depthEntries es + 1
  | _ => 0

def depthAll : List (Value κ) → Nat
  | [] => 0
  | x :: xs => max x.depth (depthAll xs)

def depthEntries : Entries κ → Nat
  | [] => 0
  | (_, v) :: es => max v.depth (depthEntries es)

end

end Value

end SchemaTree
