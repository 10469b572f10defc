import Mathlib.Data.List.Forall2
import Mathlib.Data.List.Perm.Subperm
import SchemaTree.Tree

/-!
Schema trees apart from any heap: the parts of a tree, induction over its fields, and the relation
between a node of a heap and the tree that it holds.
-/

namespace SchemaTree

variable {κ : Type}

theorem exists_right_of_mem {α β : Type} {R : α → β → Prop} {xs : List α} {ys : List β}
    (hall : List.Forall₂ R xs ys) {x : α} (hx : x ∈ xs) : ∃ y ∈ ys, R x y := by
  induction hall with
  | nil => exact nomatch hx
  | @cons _ y _ ys hxy _ ih =>
      rcases List.mem_cons.mp hx with rfl | hx
      · exact ⟨y, by simp, hxy⟩
      · obtain ⟨z, hz, hxz⟩ := ih hx
        exact ⟨z, by simp [hz], hxz⟩

theorem exists_left_of_mem {α β : Type} {R : α → β → Prop} {xs : List α} {ys : List β}
    (hall : List.Forall₂ R xs ys) {y : β} (hy : y ∈ ys) : ∃ x ∈ xs, R x y :=
  exists_right_of_mem hall.flip hy

theorem isNone_eq_of_rel {α β : Type} {R : α → β → Prop} {x : Option α} {y : Option β}
    (h : Option.Rel R x y) : x.isNone = y.isNone := by
  cases h <;> rfl

theorem forall₂_getD_of_rel {α β : Type} {R : α → β → Prop} {xs : Option (List α)}
    {ys : Option (List β)} (h : Option.Rel (List.Forall₂ R) xs ys) :
    List.Forall₂ R (xs.getD []) (ys.getD []) := by
  cases h with
  | none => exact .nil
  | some hall => exact hall

namespace Tree

def registry : Tree κ → RegistryId
  | .node r .. => r

def required : Tree κ → Bool
  | .node _ r .. => r

def array : Tree κ → Option Bool
  | .node _ _ a .. => a

def strict : Tree κ → Bool
  | .node _ _ _ s .. => s

def rules : Tree κ → Option (List (Value κ))
  | .node _ _ _ _ r _ => r

def fields : Tree κ → Option (List (String × Tree κ))
  | .node _ _ _ _ _ f => f

/-- The fields of a tree, none where it has no record of fields. -/
def fieldList (t : Tree κ) : List (String × Tree κ) := t.fields.getD []

def names (t : Tree κ) : List String := t.fieldList.map (·.1)

def isArray (t : Tree κ) : Bool := t.array == some true

theorem sizeOf_field_lt {t : Tree κ} {f : String × Tree κ} (hf : f ∈ t.fieldList) :
    sizeOf f.2 < sizeOf t := by
  obtain ⟨registry, required, array, strict, rules, _ | fs⟩ := t
  · simp [fieldList, fields] at hf
  · have hmem : sizeOf f < sizeOf fs := List.sizeOf_lt_of_mem hf
    have hpair : sizeOf f.2 < sizeOf f := by
      rw [Prod.mk.sizeOf_spec f.1 f.2]
      omega
    simp only [Tree.node.sizeOf_spec, Option.some.sizeOf_spec]
    omega

/-- What holds of a tree if it holds of the trees of its fields, holds of every tree. -/
theorem induction_on_fields {motive : Tree κ → Prop}
    (step : ∀ t : Tree κ, (∀ f ∈ t.fieldList, motive f.2) → motive t) (t : Tree κ) : motive t :=
  step t fun f _ => induction_on_fields step f.2
termination_by sizeOf t
decreasing_by exact sizeOf_field_lt ‹_›

/-- A property that all nodes of a tree have. -/
inductive Each (P : Tree κ → Prop) : Tree κ → Prop
  | intro {t : Tree κ} (here : P t) (below : ∀ f ∈ t.fieldList, Each P f.2) : Each P t

theorem Each.root {P : Tree κ → Prop} {t : Tree κ} (h : t.Each P) : P t := by
  cases h
  assumption

theorem Each.field {P : Tree κ → Prop} {t : Tree κ} (h : t.Each P) {f : String × Tree κ}
    (hf : f ∈ t.fieldList) : f.2.Each P := by
  cases h with
  | intro _ below => exact below f hf

theorem Each.mono {P Q : Tree κ → Prop} (hPQ : ∀ t, P t → Q t) {t : Tree κ} (h : t.Each P) :
    t.Each Q := by
  induction h with
  | intro here _ ih => exact ⟨hPQ _ here, ih⟩

theorem each_of_forall {P : Tree κ → Prop} (hP : ∀ t, P t) (t : Tree κ) : t.Each P := by
  induction t using induction_on_fields with
  | step t ih => exact ⟨hP t, ih⟩

/-- A tree with at most that many levels. -/
inductive Within : Nat → Tree κ → Prop
  | intro {depth : Nat} {t : Tree κ} (hfields : ∀ f ∈ t.fieldList, Within depth f.2) :
    Within (depth + 1) t

end Tree

namespace Heap

mutual

/-- The node `n` of the heap and the nodes below it look like the tree. -/
def Holds (h : Heap κ) (n : NodeId) : Tree κ → Prop
  | .node registry required array strict rules fields =>
    n < h.nodes.length ∧ (h.node n).registry = registry ∧ (h.node n).required = required ∧
      (h.node n).array = array ∧ (h.node n).strict = strict ∧ (h.node n).rules = rules ∧
      HoldsRecord h (h.node n).fields fields

def HoldsRecord (h : Heap κ) :
    Option (List (String × NodeId)) → Option (List (String × Tree κ)) → Prop
  | none, none => True
  | some ns, some ts => HoldsAll h ns ts
  | _, _ => False

def HoldsAll (h : Heap κ) : List (String × NodeId) → List (String × Tree κ) → Prop
  | [], [] => True
  | (name, n) :: ns, (label, t) :: ts => name = label ∧ Holds h n t ∧ HoldsAll h ns ts
  | _, _ => False

end

def HoldsField (h : Heap κ) (f : String × NodeId) (g : String × Tree κ) : Prop :=
  f.1 = g.1 ∧ h.Holds f.2 g.2

theorem holdsAll_iff {h : Heap κ} {ns : List (String × NodeId)} {ts : List (String × Tree κ)} :
    h.HoldsAll ns ts ↔ List.Forall₂ h.HoldsField ns ts := by
  induction ns generalizing ts with
  | nil => cases ts <;> simp [HoldsAll]
  | cons n ns ih =>
      cases ts with
      | nil => simp [HoldsAll]
      | cons t ts => simp [HoldsAll, HoldsField, ih, and_assoc]

theorem holdsRecord_iff {h : Heap κ} {ns : Option (List (String × NodeId))}
    {ts : Option (List (String × Tree κ))} :
    h.HoldsRecord ns ts ↔ Option.Rel (List.Forall₂ h.HoldsField) ns ts := by
  cases ns <;> cases ts <;> simp [HoldsRecord, holdsAll_iff]

/-- What is done with each field of a node can be told from the fields of the tree. -/
theorem map_heldFields {α : Type} (onNode : String → NodeId → α) (onTree : String × Tree κ → α)
    {h : Heap κ} {ns : List (String × NodeId)} {ts : List (String × Tree κ)}
    (hall : List.Forall₂ h.HoldsField ns ts)
    (heq : ∀ f ∈ ts, ∀ n, h.Holds n f.2 → onNode f.1 n = onTree f) :
    ns.map (fun f => onNode f.1 f.2) = ts.map onTree := by
  induction hall with
  | nil => rfl
  | @cons n t ns ts hfield _ ih =>
      have ih := ih fun f hf => heq f (by simp [hf])
      have hhead := heq t (by simp) n.2 hfield.2
      rw [List.map_cons, List.map_cons, ih, hfield.1, hhead]

/-- What `Holds` says of the node itself, and of its fields. -/
structure HoldsHere (h : Heap κ) (n : NodeId) (t : Tree κ) : Prop where
  inHeap : n < h.nodes.length
  registry : (h.node n).registry = t.registry
  required : (h.node n).required = t.required
  array : (h.node n).array = t.array
  strict : (h.node n).strict = t.strict
  rules : (h.node n).rules = t.rules
  fields : Option.Rel (List.Forall₂ h.HoldsField) (h.node n).fields t.fields

theorem holds_iff {h : Heap κ} {n : NodeId} {t : Tree κ} : h.Holds n t ↔ h.HoldsHere n t := by
  obtain ⟨registry, required, array, strict, rules, fields⟩ := t
  rw [Holds, holdsRecord_iff]
  constructor
  · rintro ⟨h₀, h₁, h₂, h₃, h₄, h₅, hfields⟩
    exact ⟨h₀, h₁, h₂, h₃, h₄, h₅, hfields⟩
  · rintro ⟨h₀, h₁, h₂, h₃, h₄, h₅, hfields⟩
    exact ⟨h₀, h₁, h₂, h₃, h₄, h₅, hfields⟩

namespace HoldsHere

variable {h : Heap κ} {n : NodeId} {t : Tree κ}

theorem isNone_fields (hn : h.HoldsHere n t) : (h.node n).fields.isNone = t.fields.isNone :=
  isNone_eq_of_rel hn.fields

theorem fieldList (hn : h.HoldsHere n t) :
    List.Forall₂ h.HoldsField ((h.node n).fields.getD []) t.fieldList :=
  forall₂_getD_of_rel hn.fields

theorem names (hn : h.HoldsHere n t) : ((h.node n).fields.getD []).map (·.1) = t.names := by
  have hall := hn.fieldList
  rw [Tree.names]
  generalize (h.node n).fields.getD [] = nodes at hall ⊢
  generalize t.fieldList = trees at hall ⊢
  induction hall with
  | nil => rfl
  | cons hf _ ih => simp [hf.1, ih]

theorem exists_field (hn : h.HoldsHere n t) {f : String × Tree κ} (hf : f ∈ t.fieldList) :
    ∃ m, h.Holds m f.2 := by
  obtain ⟨m, -, hm⟩ := exists_left_of_mem hn.fieldList hf
  exact ⟨m.2, hm.2⟩

end HoldsHere

theorem fields_unique {h : Heap κ} {ns : List (String × NodeId)} {ts us : List (String × Tree κ)}
    (hts : List.Forall₂ h.HoldsField ns ts) (hus : List.Forall₂ h.HoldsField ns us)
    (hunique : ∀ f ∈ ts, ∀ n u, h.Holds n f.2 → h.Holds n u → f.2 = u) : ts = us := by
  induction hts generalizing us with
  | nil =>
      cases hus
      rfl
  | @cons n t ns ts ht _ ih =>
      cases hus with
      | @cons _ u _ us hu hus =>
          have hhead : t = u :=
            Prod.ext (ht.1.symm.trans hu.1) (hunique t (by simp) n.2 u.2 ht.2 hu.2)
          rw [hhead, ih hus fun f hf => hunique f (by simp [hf])]

theorem holds_unique {h : Heap κ} {n : NodeId} {t u : Tree κ} (ht : h.Holds n t)
    (hu : h.Holds n u) : t = u := by
  induction t using Tree.induction_on_fields generalizing n u with
  | step t ih =>
      obtain ⟨-, hregistry, hrequired, harray, hstrict, hrules, hfields⟩ := holds_iff.mp ht
      obtain ⟨-, hregistry', hrequired', harray', hstrict', hrules', hfields'⟩ := holds_iff.mp hu
      have hsame : t.fields = u.fields := by
        unfold Tree.fieldList at ih
        generalize (h.node n).fields = ns at hfields hfields'
        generalize t.fields = ts at hfields ih ⊢
        generalize u.fields = us at hfields' ⊢
        cases hfields with
        | none =>
            cases hfields'
            rfl
        | some hts =>
            cases hfields' with
            | some hus =>
                exact congrArg some (fields_unique hts hus fun f hf n u => ih f hf)
      obtain ⟨⟩ := t
      obtain ⟨⟩ := u
      simp_all [Tree.registry, Tree.required, Tree.array, Tree.strict, Tree.rules, Tree.fields]

/-- The nodes of a path are not repeated, as each holds a smaller tree than those before it. -/
theorem within_of_path {h : Heap κ} {n : NodeId} {t : Tree κ} {path : List NodeId} {depth : Nat}
    (hn : h.Holds n t) (hpath : path.Nodup)
    (habove : ∀ k ∈ path, k < h.nodes.length ∧ ∃ u, h.Holds k u ∧ sizeOf t < sizeOf u)
    (hdepth : h.nodes.length ≤ depth + path.length) : t.Within depth := by
  induction t using Tree.induction_on_fields generalizing n path depth with
  | step t ih =>
      -- Met again, the node would hold this tree and a larger one.
      have hnew : n ∉ path := by
        intro hmem
        obtain ⟨-, u, hu, hlt⟩ := habove n hmem
        rw [holds_unique hn hu] at hlt
        exact Nat.lt_irrefl _ hlt
      have hpath' : (n :: path).Nodup := List.nodup_cons.mpr ⟨hnew, hpath⟩
      have hinHeap := (holds_iff.mp hn).inHeap
      have hlength : (n :: path).length ≤ h.nodes.length := by
        have hsubset : n :: path ⊆ List.range h.nodes.length := by
          intro k hk
          rw [List.mem_range]
          rcases List.mem_cons.mp hk with rfl | hk
          · exact hinHeap
          · exact (habove k hk).1
        simpa using (List.subperm_of_subset hpath' hsubset).length_le
      obtain _ | depth := depth
      · simp only [List.length_cons] at hlength
        omega
      refine .intro fun f hf => ?_
      have hsmaller := Tree.sizeOf_field_lt hf
      obtain ⟨m, hm⟩ := (holds_iff.mp hn).exists_field hf
      refine ih f hf hm hpath' (fun k hk => ?_) (by rw [List.length_cons]; omega)
      rcases List.mem_cons.mp hk with rfl | hk
      · exact ⟨hinHeap, t, hn, hsmaller⟩
      · obtain ⟨hk, u, hu, hlt⟩ := habove k hk
        exact ⟨hk, u, hu, Nat.lt_trans hsmaller hlt⟩

/-- A heap that holds a tree has as many nodes as the tree has levels. -/
theorem Holds.within {h : Heap κ} {n : NodeId} {t : Tree κ} (hn : h.Holds n t) :
    t.Within h.nodes.length :=
  within_of_path hn List.nodup_nil (by simp) (by simp)

end Heap

end SchemaTree
