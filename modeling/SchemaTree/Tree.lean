import SchemaTree.Heap.Growth
import SchemaTree.Registry
import SchemaTree.Text.Names
import SchemaTree.Value.Copy

/-!
Schemas as trees: what a node and its fields look like, apart from who holds them. A tree is read
off the heap, and planted in it as nodes of its own. A node inside itself has no tree.
-/

namespace SchemaTree

inductive Tree (κ : Type) where
  | node (registry : RegistryId) (required : Bool) (array : Option Bool) (strict : Bool)
      (rules : Option (List (Value κ))) (fields : Option (List (String × Tree κ)))

namespace Heap

variable {κ : Type} [Inspect κ]

def copyRules (rules : Option (List (Value κ))) : Except (Fault κ) (Option (List (Value κ))) :=
  match rules with
  | none => .ok none
  | some xs => (Value.deepCopyAll xs).map some

/-- The tree of a node with its rules copied, fields before the node's own rules. At most `depth`
levels are followed. -/
def copyTreeTo (h : Heap κ) : (depth : Nat) → NodeId → Except (Fault κ) (Tree κ)
  | 0, _ => .error (.misuse .endless)
  | depth + 1, n => do
    let node := h.node n
    let fields ← (node.fields.getD []).mapM fun f => do
      return (f.1, ← copyTreeTo h depth f.2)
    let rules ← copyRules node.rules
    return .node node.registry node.required node.array node.strict rules
      (node.fields.map fun _ => fields)

/-- The tree of a node with its rules copied. A path without repetition is no longer than the heap,
so only a node inside itself has none. -/
def copyTree (h : Heap κ) (n : NodeId) : Except (Fault κ) (Tree κ) :=
  h.copyTreeTo h.nodes.length n

/-- The tree of a node as it is described to a reader: its own rules are copied before its fields
are looked at. -/
def describeTo (h : Heap κ) : (depth : Nat) → NodeId → Except (Fault κ) (Tree κ)
  | 0, _ => .error (.misuse .endless)
  | depth + 1, n => do
    let node := h.node n
    let rules ← copyRules node.rules
    let fields ← (node.fields.getD []).mapM fun f => do
      return (f.1, ← describeTo h depth f.2)
    return .node node.registry node.required node.array node.strict rules
      (node.fields.map fun _ => fields)

def describe (h : Heap κ) (n : NodeId) : Except (Fault κ) (Tree κ) :=
  h.describeTo h.nodes.length n

def render (h : Heap κ) (n : NodeId) : Except (Fault κ) String := do
  let node := h.node n
  let flagText (b : Bool) : String := if b then "True" else "False"
  let array : Value κ := match node.array with
    | none => .null
    | some b => .bool b
  let names : Value κ := .list .fresh ((sortedNames ((node.fields.getD []).map (·.1))).map .str)
  let rules : Value κ := match node.rules with
    | none => .null
    | some xs => .list .fresh xs
  return "SchemaNode(is_required=" ++ flagText node.required ++ ", is_array=" ++
    (← array.render) ++ ", is_strict=" ++ flagText node.strict ++ ", fields=" ++
    (← names.render) ++ ", validations=" ++ (← rules.render) ++ ")"

end Heap

namespace Tree

variable {κ : Type}

mutual

def toValue : Tree κ → Value κ
  | .node _ required array strict rules fields =>
    .mapping .fresh [
      (.str "is_required", .bool required),
      (.str "is_array", match array with
        | none => .null
        | some b => .bool b),
      (.str "is_strict", .bool strict),
      (.str "validations", match rules with
        | none => .null
        | some xs => .list .fresh xs),
      (.str "fields", match fields with
        | none => .null
        | some fs => .mapping .fresh (entries fs))]

def entries : List (String × Tree κ) → Entries κ
  | [] => []
  | (name, t) :: fs => (.str name, t.toValue) :: entries fs

end

section mapRules

variable {m : Type → Type} [Monad m] (f : List (Value κ) → m (List (Value κ)))

mutual

def mapRules : Tree κ → m (Tree κ)
  | .node registry required array strict rules fields => do
    let rules ← match rules with
      | none => pure none
      | some xs => some <$> f xs
    let fields ← match fields with
      | none => pure none
      | some fs => some <$> mapRulesAll fs
    return .node registry required array strict rules fields

def mapRulesAll : List (String × Tree κ) → m (List (String × Tree κ))
  | [] => return []
  | (name, t) :: fs => do return (name, ← t.mapRules) :: (← mapRulesAll fs)

end

end mapRules

mutual

/-- Makes new nodes of a tree, the fields of a node before the node, and returns the root. -/
def plant : Tree κ → Build κ NodeId
  | .node registry required array strict rules fields => do
    let fields ← match fields with
      | none => pure none
      | some fs => some <$> plantAll fs
    let h ← get
    set (h.addNode { registry, required, array, strict, rules, fields })
    return h.nodes.length

def plantAll : List (String × Tree κ) → Build κ (List (String × NodeId))
  | [] => return []
  | (name, t) :: fs => do
    let n ← t.plant
    return (name, n) :: (← plantAll fs)

end

end Tree

def Build.clone {κ : Type} [Inspect κ] (n : NodeId) : Build κ NodeId := do
  let t ← Build.of ((← get).copyTree n)
  t.plant

end SchemaTree
