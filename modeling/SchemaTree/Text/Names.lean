/-!
Lists of names as messages give them: in the order of their code points.
-/

namespace SchemaTree

def sortedNames (names : List String) : List String :=
  names.mergeSort fun a b => decide (a ≤ b)

end SchemaTree
