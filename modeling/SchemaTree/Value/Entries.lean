import SchemaTree.Value.Equality

/-!
The entries of a mapping by key, and what a value contains. A key that is set again keeps its
place.
-/

namespace SchemaTree

namespace Entries

variable {κ : Type} [Inspect κ]

def get? (key : Value κ) (es : Entries κ) : Option (Value κ) :=
  (es.find? fun e => key.agrees e.1).map (·.2)

def insert (key value : Value κ) : Entries κ → Entries κ
  | [] => [(key, value)]
  | (k, v) :: es => if key.agrees k then (k, value) :: es else (k, v) :: insert key value es

def insertAll (es : Entries κ) (into : Entries κ) : Entries κ :=
  es.foldl (fun done e => insert e.1 e.2 done) into

end Entries

namespace Value

variable {κ : Type} [Inspect κ]

private def isInfix {α : Type} [BEq α] (part : List α) : List α → Bool
  | [] => part.isEmpty
  | x :: xs => part.isPrefixOf (x :: xs) || isInfix part xs

/-- Whether `v` contains `part`: as a key of a mapping, a part of a text or of bytes, or an item of
anything else that can be iterated. -/
def contains (v part : Value κ) : Except (Fault κ) Bool :=
  match v, part with
  | .mapping _ es, key =>
    if key.canBeKey then .ok (es.any fun e => key.agrees e.1) else .error (.misuse .unsupported)
  | .str t, .str s => .ok (isInfix s.toList t.toList)
  | .bytes bs, .bytes cs => .ok (isInfix cs bs)
  | .bytes bs, .int n =>
    if 0 ≤ n && n < 256 then .ok (bs.any fun b => (b.toNat : Int) == n)
    else .error (.misuse .wrongSize)
  | .str _, _ | .bytes _, _ => .error (.misuse .unsupported)
  | v, part => do return (← v.items).any fun x => part.agrees x

end Value

end SchemaTree
