import SchemaTree.Value.Basic

/-!
The keys of a schema document. A field's key is its name with optional suffixes, in this order:
`[]` for an array, `?` for an optional field, `!` for a strict one. The root's key has the name
`schema`, and a key made of `=` holds a node's own rules. One line feed may end a key.
-/

namespace SchemaTree.Document

structure Key where
  name : String
  array : Bool
  optional : Bool
  strict : Bool
  deriving DecidableEq, Repr

def taken (c : Char) : List Char → Bool × List Char
  | [] => (false, [])
  | d :: cs => if d = c then (true, cs) else (false, d :: cs)

def takenBrackets : List Char → Bool × List Char
  | '[' :: ']' :: cs => (true, cs)
  | cs => (false, cs)

def isEnd (rest : List Char) : Bool := rest == [] || rest == ['\n']

/-- The suffixes of a key, if they are all that is left of it. -/
def Key.ofSuffixes? (name : String) (rest : List Char) : Option Key :=
  let (array, rest) := takenBrackets rest
  let (optional, rest) := taken '?' rest
  let (strict, rest) := taken '!' rest
  if isEnd rest then some { name, array, optional, strict } else none

def startsSuffix (c : Char) : Bool := c == '[' || c == '?' || c == '!'

def Key.field? (text : String) : Option Key :=
  let cs := text.toList
  Key.ofSuffixes? (String.ofList (cs.takeWhile fun c => !startsSuffix c))
    (cs.dropWhile fun c => !startsSuffix c)

def Key.root? (text : String) : Option Key :=
  let cs := text.toList
  if cs.take 6 = "schema".toList then Key.ofSuffixes? "schema" (cs.drop 6) else none

def isOwnRules (text : String) : Bool :=
  let cs := text.toList
  cs.head? == some '=' && isEnd (cs.dropWhile (· == '='))

end SchemaTree.Document
