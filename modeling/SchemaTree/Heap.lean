import SchemaTree.Fault.Basic

/-!
Schema nodes and the registries that name them. Nodes are changed in place and held by several
owners, so they live in a heap and are referred to by number. A node may end up inside itself.
-/

namespace SchemaTree

abbrev NodeId := Nat

abbrev RegistryId := Nat

/-- One position of a schema: whether a value must be there, whether it is an array, whether excess
keys are refused whatever the options say, the rules for it and its fields. -/
structure Node (κ : Type) where
  registry : RegistryId
  required : Bool := true
  array : Option Bool := none
  strict : Bool := false
  rulesMark : Mark := .fresh
  rules : Option (List (Value κ)) := none
  fieldsMark : Mark := .fresh
  fields : Option (List (String × NodeId)) := none

structure Registry (κ : Type) where
  name : Value κ
  entries : List (String × NodeId) := []

structure Heap (κ : Type) where
  nodes : List (Node κ) := []
  registries : List (Registry κ) := []
  /-- The lists of rules that have grown, by their numbers, as long as values outside of the heap
  may hold them as they were. -/
  grown : List (Nat × List (Value κ)) := []

/-- A change of the heap that can fail; what was changed before a fault stays changed. -/
abbrev Build (κ : Type) := ExceptT (Fault κ) (StateM (Heap κ))

inductive SchemaArg where
  | node (n : NodeId)
  | named (name : String)
  | other (kind : String)

namespace Heap

variable {κ : Type}

def defaultRegistry : RegistryId := 0

def initial : Heap κ := { registries := [{ name := .str "schemas" }] }

def node (h : Heap κ) (n : NodeId) : Node κ :=
  h.nodes.getD n { registry := defaultRegistry }

def registry (h : Heap κ) (r : RegistryId) : Registry κ :=
  h.registries.getD r { name := .null }

def setNode (h : Heap κ) (n : NodeId) (node : Node κ) : Heap κ :=
  { h with nodes := h.nodes.set n node }

def setRegistry (h : Heap κ) (r : RegistryId) (registry : Registry κ) : Heap κ :=
  { h with registries := h.registries.set r registry }

def addNode (h : Heap κ) (node : Node κ) : Heap κ :=
  { h with nodes := h.nodes ++ [node] }

end Heap

namespace Build

variable {κ : Type}

def of {α : Type} (x : Except (Fault κ) α) : Build κ α := ExceptT.mk (pure x)

def observed {α : Type} (x : Build κ α) : Build κ (Except (Fault κ) α) :=
  ExceptT.mk (Except.ok <$> x.run)

def node (n : NodeId) : Build κ (Node κ) := do return (← get).node n

def modifyNode (n : NodeId) (f : Node κ → Node κ) : Build κ Unit :=
  modify fun h => h.setNode n (f (h.node n))

def create (r : RegistryId) : Build κ NodeId := do
  let h ← get
  set (h.addNode { registry := r })
  return h.nodes.length

def createRegistry (name : Value κ) : Build κ RegistryId := do
  let h ← get
  set { h with registries := h.registries ++ [Registry.mk name []] }
  return h.registries.length

end Build

end SchemaTree
