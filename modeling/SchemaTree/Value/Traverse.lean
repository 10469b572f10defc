import SchemaTree.Value.Basic

/-!
Going through a value: `traverse` gives every container a new mark, `replace` puts new contents
into containers that have changed, and `containers` lists the ones that can change.
-/

namespace SchemaTree.Value

variable {κ ν : Type}

section traverse

variable {m : Type → Type} [Monad m] (mark : Mark → m Mark) (object : κ → m ν)

mutual

def traverse : Value κ → m (Value ν)
  | .null => return .null
  | .bool b => return .bool b
  | .int n => return .int n
  | .float a t => do return .float (← mark a) t
  | .str t => return .str t
  | .bytes bs => return .bytes bs
  | .missing => return .missing
  | .list a xs => do return .list (← mark a) (← traverseAll xs)
  | .tuple a xs => do return .tuple (← mark a) (← traverseAll xs)
  | .mapping a es => do return .mapping (← mark a) (← traverseEntries es)
  | .invalid a n p => do return .invalid (← mark a) (← n.traverse) (← p.traverse)
  | .object o => do return .object (← object o)

def traverseAll : List (Value κ) → m (List (Value ν))
  | [] => return []
  | x :: xs => do return (← x.traverse) :: (← traverseAll xs)

def traverseEntries : Entries κ → m (Entries ν)
  | [] => return []
  | (k, v) :: es => do return (← k.traverse, ← v.traverse) :: (← traverseEntries es)

end

end traverse

section replace

variable (content : Mark → Option (Value κ)) (object : κ → κ)

mutual

def replace : Value κ → Value κ
  | .list a xs => (content a).getD (.list a (replaceAll xs))
  | .tuple a xs => .tuple a (replaceAll xs)
  | .mapping a es => (content a).getD (.mapping a (replaceEntries es))
  | .invalid a n p => .invalid a n.replace p.replace
  | .object o => .object (object o)
  | v => v

def replaceAll : List (Value κ) → List (Value κ)
  | [] => []
  | x :: xs => x.replace :: replaceAll xs

def replaceEntries : Entries κ → Entries κ
  | [] => []
  | (k, v) :: es => (k.replace, v.replace) :: replaceEntries es

end

end replace

mutual

/-- The lists and mappings that a value holds, inner ones first, each as often as it is held. -/
def containers : Value κ → List (Value κ)
  | .list a xs => containersAll xs ++ [.list a xs]
  | .tuple _ xs => containersAll xs
  | .mapping a es => containersEntries es ++ [.mapping a es]
  | _ => []

def containersAll : List (Value κ) → List (Value κ)
  | [] => []
  | x :: xs => x.containers ++ containersAll xs

def containersEntries : Entries κ → List (Value κ)
  | [] => []
  | (_, v) :: es => v.containers ++ containersEntries es

end

def containerMark : Value κ → Mark
  | .list a _ | .mapping a _ => a
  | _ => .fresh

/-- Changes the parts of a list or a mapping, which stays the one it is. -/
def mapParts (f : Value κ → Value κ) : Value κ → Value κ
  | .list a xs => .list a (xs.map f)
  | .mapping a es => .mapping a (es.map fun e => (f e.1, f e.2))
  | v => v

def listParts : Value κ → Mark × List (Value κ)
  | .list a xs => (a, xs)
  | _ => (.fresh, [])

end SchemaTree.Value
