import SchemaTree.Value.Inspect

/-!
Copies of a value. A deep copy has the same content in containers of its own, and where the value
holds one container twice the copy does too; a shallow copy shares what is inside. An object may
refuse either copy, and `snapshot` then settles for less.
-/

namespace SchemaTree.Value

variable {κ : Type} [Inspect κ]

mutual

/-- A value without parts that could change: every copy of it is the value itself. -/
def isFixed : Value κ → Bool
  | .list .. | .mapping .. | .invalid .. => false
  | .tuple _ xs => allFixed xs
  | .object o => Inspect.fixed o
  | _ => true

def allFixed : List (Value κ) → Bool
  | [] => true
  | x :: xs => x.isFixed && allFixed xs

end

mutual

/-- The deep copy, or the first refusal met on the way. The value of an entry goes before its
key. -/
def deepCopy : Value κ → Except (Fault κ) (Value κ)
  | .list m xs => do return .list m.copied (← deepCopyAll xs)
  | .tuple m xs => do
    let copies ← deepCopyAll xs
    return if allFixed xs then .tuple m xs else .tuple m.copied copies
  | .mapping m es => do return .mapping m.copied (← deepCopyEntries es)
  | .invalid m n p => do return .invalid m.copied (← n.deepCopy) (← p.deepCopy)
  | .object o => do return .object (← Inspect.deepCopy o)
  | v => return v

def deepCopyAll : List (Value κ) → Except (Fault κ) (List (Value κ))
  | [] => return []
  | x :: xs => do return (← x.deepCopy) :: (← deepCopyAll xs)

def deepCopyEntries : Entries κ → Except (Fault κ) (Entries κ)
  | [] => return []
  | (k, v) :: es => do
    let value ← v.deepCopy
    return (← k.deepCopy, value) :: (← deepCopyEntries es)

end

def shallowCopy : Value κ → Except (Fault κ) (Value κ)
  | .list _ xs => return .list .fresh xs
  | .mapping _ es => return .mapping .fresh es
  | .invalid _ n p => return .invalid .fresh n p
  | .object o => do return .object (← Inspect.shallowCopy o)
  | v => return v

def firstCopy (deep shallow : Except (Fault κ) (Value κ)) (whole : Value κ) :
    Except (Fault κ) (Value κ) :=
  match deep with
  | .ok copy => .ok copy
  | .error f =>
    if !f.refusesCopy then .error f
    else match shallow with
      | .ok copy => .ok copy
      | .error g => if g.refusesCopy then .ok whole else .error g

/-- A copy of a value as deep as the value allows. A fault of another kind than a refusal is
passed on. -/
def snapshot (v : Value κ) : Except (Fault κ) (Value κ) :=
  firstCopy v.deepCopy v.shallowCopy v

end SchemaTree.Value
