import SchemaTree.Proofs.CompiledTree
import SchemaTree.Proofs.FailureReport

/-!
Programs whose objects are their own copies, as functions and classes are: whatever has to be
copied there can be. A program that takes orders is one of them. An order has items, each with a
count, and there is a rule for counts.
-/

namespace SchemaTree

class OwnCopies (κ : Type) [Inspect κ] : Prop where
  deepCopy_eq (o : κ) : Inspect.deepCopy o = .ok o

section ownCopies

variable {κ : Type} [Inspect κ] [OwnCopies κ]

theorem Value.copyable_of_ownCopies (v : Value κ) : v.Copyable :=
  v.copyable_of_objects fun o => ⟨o, OwnCopies.deepCopy_eq o⟩

theorem Tree.copiedTwice_of_ownCopies (u : Tree κ) : u.CopiedTwice := by
  have hobjects (o : κ) : ∃ copy, Inspect.deepCopy o = .ok copy := ⟨o, OwnCopies.deepCopy_eq o⟩
  obtain ⟨copies, hcopies⟩ := Value.exists_deepCopyAll hobjects (u.rules.getD [])
  obtain ⟨again, hagain⟩ := Value.exists_deepCopyAll hobjects copies
  exact ⟨copies, again, hcopies, hagain⟩

theorem Host.paramsCopyable_of_ownCopies (host : Host κ) : host.ParamsCopyable :=
  fun _ _ _ _ _ params _ => params.copyable_of_ownCopies

theorem Value.keptByCopies_of_ownCopies {ν : Type} (view : κ → ν) : KeptByCopies view := by
  intro o copy h
  rw [OwnCopies.deepCopy_eq] at h
  rw [Except.ok.inj h]

end ownCopies

/-- The functions of a program that takes orders. -/
inductive OrderFunction where
  /-- A rule for counts. -/
  | positive
  /-- A mapper that keeps the descriptors that can be called. -/
  | callables
  deriving DecidableEq

namespace OrderFunction

instance : Inspect OrderFunction where
  kind _ := "function"
  render _ := .ok "<function>"
  text _ := .ok "<function>"
  truth _ := .ok true
  callable _ := true
  identical a b := a == b
  same a b := a == b
  canBeKey _ := true
  items _ := .error (.misuse .unsupported)
  deepCopy := .ok
  shallowCopy := .ok
  fixed _ := true
  replace _ o := o

instance : OwnCopies OrderFunction := ⟨fun _ => rfl⟩

def judgeCount : Value OrderFunction → Value OrderFunction
  | .int n => if 0 < n then .null else .invalid .fresh (.str "positive") (.int n)
  | _ => .bool false

def host : Host OrderFunction where
  rule
    | positive => some fun v => .ok (judgeCount v)
    | callables => none
  mapper
    | positive => none
    | callables => some fun descriptors _ =>
      .ok (.list .fresh (descriptors.arrayItems.filter Value.isCallable))

theorem host_reportable : host.Reportable := by
  intro o rule hrule v
  cases o with
  | callables => exact nomatch hrule
  | positive =>
      obtain rfl := Option.some.inj hrule
      cases v with
      | int n =>
          simp only [judgeCount]
          split
          · trivial
          · exact ⟨⟨_, rfl⟩, _, rfl⟩
      | _ => exact ⟨⟨_, by with_unfolding_all rfl⟩, _, rfl⟩

/-- A collection of complaints that is raised while it is empty, so that it counts as false. -/
def complaint : Fault OrderFunction :=
  .raised { kind := "Complaints", message := "", truth := .ok false }

/-- The same functions, but the rule does nothing but complain. -/
def complaints : Host OrderFunction where
  rule _ := some fun _ => .error complaint
  mapper := host.mapper

def wording : Wording OrderFunction where
  table := MessageTable.builtin
  phrase _ := none

/-- The schema of an order, with these descriptors for a count. -/
def order (descriptors : List (Value OrderFunction)) : Tree OrderFunction :=
  let count := .node Heap.defaultRegistry true none false (some descriptors) none
  let items := .node Heap.defaultRegistry true (some true) false none (some [("count", count)])
  .node Heap.defaultRegistry true none true none (some [("items", items)])

def heap (descriptors : List (Value OrderFunction)) : Heap OrderFunction where
  nodes := [
    { registry := Heap.defaultRegistry, rules := some descriptors },
    { registry := Heap.defaultRegistry, array := some true, fields := some [("count", 0)] },
    { registry := Heap.defaultRegistry, strict := true, fields := some [("items", 1)] }]

theorem heap_holds (descriptors : List (Value OrderFunction)) :
    (heap descriptors).Holds 2 (order descriptors) := by
  simp [heap, order, Heap.Holds, Heap.HoldsRecord, Heap.HoldsAll, Heap.node]

/-- The check of an order with these descriptors, without options. -/
def setting (descriptors : List (Value OrderFunction)) : Setting OrderFunction where
  host := host
  wording := wording
  heap := heap descriptors
  options := {}

def ofCounts (counts : List Int) : Value OrderFunction :=
  .mapping .fresh [(.str "items", .list .fresh
    (counts.map fun n => .mapping .fresh [(.str "count", .int n)]))]

theorem keysFit_ofCounts (counts : List Int) : (ofCounts counts).KeysFit := by
  have hitems : Value.KeysFitAll (counts.map fun n =>
      (.mapping .fresh [(.str "count", .int n)] : Value OrderFunction)) := by
    induction counts with
    | nil => trivial
    | cons n counts ih => exact ⟨⟨rfl, trivial, trivial⟩, ih⟩
  exact ⟨rfl, hitems, trivial⟩

end OrderFunction

end SchemaTree
