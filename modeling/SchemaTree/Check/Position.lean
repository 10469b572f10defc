/-!
Places inside a value. A place is reached through the names of fields and the indexes of array
items.
-/

namespace SchemaTree

/-- Where in a value a check stands: the segments that lead there and the index of the innermost
array item on the way. -/
structure Position where
  path : List String := []
  index : Option Nat := none
  deriving DecidableEq, Repr

namespace Position

def child (p : Position) (name : String) : Position := { p with path := p.path ++ [name] }

def item (p : Position) (i : Nat) : Position :=
  { path := p.path ++ [toString i], index := some i }

end Position

end SchemaTree
