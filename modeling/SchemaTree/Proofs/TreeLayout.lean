import SchemaTree.Compile
import SchemaTree.Proofs.HeldTree

/-!
Trees planted in a heap. The new nodes stand at its end, those below a node before the node, so the
heap holds the tree and its post-order is the order in which the nodes stand.
-/

namespace SchemaTree

variable {κ : Type}

def Heap.extend (h : Heap κ) (nodes : List (Node κ)) : Heap κ :=
  { h with nodes := h.nodes ++ nodes }

@[simp] theorem Heap.nodes_extend (h : Heap κ) (nodes : List (Node κ)) :
    (h.extend nodes).nodes = h.nodes ++ nodes := rfl

theorem Heap.extend_extend (h : Heap κ) (nodes more : List (Node κ)) :
    (h.extend nodes).extend more = h.extend (nodes ++ more) := by
  simp [extend]

namespace Heap

theorem node_of_le {h : Heap κ} {n : NodeId} (hn : h.nodes.length ≤ n) :
    h.node n = { registry := defaultRegistry } := by
  simp [node, hn]

theorem node_mem {h : Heap κ} {n : NodeId} (hn : n < h.nodes.length) : h.node n ∈ h.nodes := by
  simp [node, hn]

theorem node_extend {h : Heap κ} {n : NodeId} (hn : n < h.nodes.length) (nodes : List (Node κ)) :
    (h.extend nodes).node n = h.node n := by
  simp [node, List.getElem?_append_left hn]

theorem setNode_node (h : Heap κ) (n : NodeId) : h.setNode n (h.node n) = h := by
  rcases Nat.lt_or_ge n h.nodes.length with hn | hn
  · simp [node, setNode, hn]
  · rw [setNode, List.set_eq_of_length_le hn]

end Heap

theorem Build.run_bind_ok {α β : Type} {x : Build κ α} {g : α → Build κ β} {h h' : Heap κ} {a : α}
    (hx : x.run h = (.ok a, h')) : (x >>= g).run h = (g a).run h' := by
  simp only [ExceptT.run, bind, ExceptT.bind, ExceptT.mk, ExceptT.bindCont, StateT.bind] at hx ⊢
  rw [hx]

namespace Tree

mutual

/-- How many nodes there are below the root. -/
def descendants : Tree κ → Nat
  | .node _ _ _ _ _ fields =>
    match fields with
    | none => 0
    | some fs => descendantsAll fs

def descendantsAll : List (String × Tree κ) → Nat
  | [] => 0
  | (_, t) :: fs => t.descendants + 1 + descendantsAll fs

end

/-- The fields of a node whose fields are planted from `a` on. -/
def fieldsAt : List (String × Tree κ) → Nat → List (String × NodeId)
  | [], _ => []
  | (name, t) :: fs, a => (name, a + t.descendants) :: fieldsAt fs (a + t.descendants + 1)

mutual

/-- The nodes of a tree that is planted from `a` on. -/
def layout : Tree κ → Nat → List (Node κ)
  | .node registry required array strict rules fields, a =>
    match fields with
    | none => [{ registry, required, array, strict, rules }]
    | some fs =>
      layoutAll fs a ++
        [{ registry, required, array, strict, rules, fields := some (fieldsAt fs a) }]

def layoutAll : List (String × Tree κ) → Nat → List (Node κ)
  | [], _ => []
  | (_, t) :: fs, a => t.layout a ++ layoutAll fs (a + t.descendants + 1)

end

mutual

theorem length_layout (t : Tree κ) (a : Nat) : (t.layout a).length = t.descendants + 1 := by
  obtain ⟨registry, required, array, strict, rules, _ | fs⟩ := t
  · rfl
  · simp [layout, descendants, length_layoutAll fs a]

theorem length_layoutAll (fs : List (String × Tree κ)) (a : Nat) :
    (layoutAll fs a).length = descendantsAll fs := by
  cases fs with
  | nil => rfl
  | cons f fs =>
      simp [layoutAll, descendantsAll, length_layout f.2 a,
        length_layoutAll fs (a + f.2.descendants + 1)]

end

mutual

theorem plant_eq (t : Tree κ) (h : Heap κ) :
    t.plant.run h =
      (.ok (h.nodes.length + t.descendants), h.extend (t.layout h.nodes.length)) := by
  obtain ⟨registry, required, array, strict, rules, _ | fs⟩ := t
  · rfl
  · have hfields : (some <$> plantAll fs : Build κ _).run h =
        (.ok (some (fieldsAt fs h.nodes.length)), h.extend (layoutAll fs h.nodes.length)) := by
      rw [map_eq_pure_bind, Build.run_bind_ok (plantAll_eq fs h)]
      rfl
    have hlength : (h.extend (layoutAll fs h.nodes.length)).nodes.length =
        h.nodes.length + descendantsAll fs := by
      simp [length_layoutAll]
    simp only [plant, layout, descendants]
    rw [Build.run_bind_ok hfields, ← h.extend_extend]
    exact Prod.ext (congrArg Except.ok hlength) rfl

theorem plantAll_eq (fs : List (String × Tree κ)) (h : Heap κ) :
    (plantAll fs).run h =
      (.ok (fieldsAt fs h.nodes.length), h.extend (layoutAll fs h.nodes.length)) := by
  cases fs with
  | nil =>
      simp only [plantAll, fieldsAt, layoutAll, Heap.extend, List.append_nil]
      rfl
  | cons f fs =>
      obtain ⟨name, t⟩ := f
      have hlength : (h.extend (t.layout h.nodes.length)).nodes.length =
          h.nodes.length + t.descendants + 1 := by
        simp [length_layout, Nat.add_assoc]
      simp only [plantAll, fieldsAt, layoutAll]
      rw [Build.run_bind_ok (plant_eq t h), Build.run_bind_ok (plantAll_eq fs _), hlength,
        h.extend_extend]
      rfl

end

/-- The root of a tree that is planted from `a` on. -/
def rootAt (t : Tree κ) (a : Nat) : Node κ where
  registry := t.registry
  required := t.required
  array := t.array
  strict := t.strict
  rules := t.rules
  fields := t.fields.map (fieldsAt · a)

theorem layout_eq (t : Tree κ) (a : Nat) :
    t.layout a = layoutAll t.fieldList a ++ [t.rootAt a] := by
  obtain ⟨registry, required, array, strict, rules, _ | fs⟩ := t <;> rfl

theorem descendants_eq (t : Tree κ) : t.descendants = descendantsAll t.fieldList := by
  obtain ⟨registry, required, array, strict, rules, _ | fs⟩ := t <;> rfl

theorem fields_rootAt (t : Tree κ) (a : Nat) :
    (t.rootAt a).fields.getD [] = fieldsAt t.fieldList a := by
  obtain ⟨registry, required, array, strict, rules, _ | fs⟩ := t <;> rfl

theorem mem_layoutAll {fs : List (String × Tree κ)} {a : Nat} {x : Node κ}
    (hx : x ∈ layoutAll fs a) : ∃ f ∈ fs, ∃ b, a ≤ b ∧ x ∈ f.2.layout b := by
  induction fs generalizing a with
  | nil => simp [layoutAll] at hx
  | cons f fs ih =>
      rw [layoutAll] at hx
      rcases List.mem_append.mp hx with hx | hx
      · exact ⟨f, by simp, a, Nat.le_refl a, hx⟩
      · obtain ⟨g, hg, b, hab, hx⟩ := ih hx
        exact ⟨g, by simp [hg], b, by omega, hx⟩

/-- Each node of a planted tree is the root of a tree in it. -/
theorem forall_mem_layout {P : Node κ → Prop} {t : Tree κ} {a : Nat}
    (ht : t.Each fun u => ∀ b, a ≤ b → P (u.rootAt b)) {x : Node κ} (hx : x ∈ t.layout a) :
    P x := by
  induction t using induction_on_fields generalizing a with
  | step t ih =>
      rw [layout_eq] at hx
      rcases List.mem_append.mp hx with hx | hx
      · obtain ⟨f, hf, b, hab, hx⟩ := mem_layoutAll hx
        exact ih f hf ((ht.field hf).mono fun u hu c hbc => hu c (Nat.le_trans hab hbc)) hx
      · rw [List.mem_singleton.mp hx]
        exact ht.root a (Nat.le_refl a)

theorem rules_layout {P : Option (List (Value κ)) → Prop} {t : Tree κ}
    (ht : t.Each fun u => P u.rules) {a : Nat} {x : Node κ} (hx : x ∈ t.layout a) : P x.rules :=
  forall_mem_layout (P := fun x => P x.rules) (ht.mono fun _ hu _ _ => hu) hx

theorem marks_of_layout {t : Tree κ} {a : Nat} {x : Node κ} (hx : x ∈ t.layout a) :
    x.rulesMark = .fresh ∧ x.fieldsMark = .fresh :=
  forall_mem_layout (P := fun x => x.rulesMark = .fresh ∧ x.fieldsMark = .fresh)
    (each_of_forall (fun _ _ _ => ⟨rfl, rfl⟩) t) hx

section placed

variable {h : Heap κ} {front rest : List (Node κ)}

theorem nodes_fieldList {t : Tree κ} (hnodes : h.nodes = front ++ t.layout front.length ++ rest) :
    h.nodes = front ++ layoutAll t.fieldList front.length ++ (t.rootAt front.length :: rest) := by
  rw [hnodes, layout_eq]
  simp

theorem node_of_layout {t : Tree κ} (hnodes : h.nodes = front ++ t.layout front.length ++ rest) :
    h.node (front.length + t.descendants) = t.rootAt front.length := by
  have hlength : (front ++ layoutAll t.fieldList front.length).length =
      front.length + t.descendants := by
    rw [List.length_append, length_layoutAll, descendants_eq]
  rw [← hlength]
  simp [Heap.node, nodes_fieldList hnodes]

theorem nodes_layoutAll_cons {name : String} {t : Tree κ} {fs : List (String × Tree κ)}
    (hnodes : h.nodes = front ++ layoutAll ((name, t) :: fs) front.length ++ rest) :
    (front ++ t.layout front.length).length = front.length + t.descendants + 1 ∧
      h.nodes = front ++ t.layout front.length ++
        (layoutAll fs (front.length + t.descendants + 1) ++ rest) := by
  constructor
  · simp [length_layout, Nat.add_assoc]
  · simpa [layoutAll] using hnodes

theorem holdsAll_of_layoutAll (fs : List (String × Tree κ))
    (hfs : ∀ f ∈ fs, ∀ {front rest : List (Node κ)},
      h.nodes = front ++ f.2.layout front.length ++ rest →
        h.Holds (front.length + f.2.descendants) f.2)
    (hnodes : h.nodes = front ++ layoutAll fs front.length ++ rest) :
    List.Forall₂ h.HoldsField (fieldsAt fs front.length) fs := by
  induction fs generalizing front with
  | nil => exact .nil
  | cons f fs ih =>
      obtain ⟨hlength, hnodes⟩ := nodes_layoutAll_cons hnodes
      refine .cons ⟨rfl, hfs f (by simp) hnodes⟩ ?_
      rw [← hlength] at hnodes ⊢
      exact ih (fun g hg => hfs g (by simp [hg])) (hnodes.trans (List.append_assoc ..).symm)

/-- A tree that stands in the heap is held by it. -/
theorem holds_of_layout (t : Tree κ)
    (hnodes : h.nodes = front ++ t.layout front.length ++ rest) :
    h.Holds (front.length + t.descendants) t := by
  induction t using induction_on_fields generalizing front rest with
  | step t ih =>
      have hnode := node_of_layout hnodes
      have hinHeap : front.length + t.descendants < h.nodes.length := by
        rw [hnodes, List.length_append, List.length_append, length_layout]
        omega
      have hall := holdsAll_of_layoutAll t.fieldList ih (nodes_fieldList hnodes)
      refine Heap.holds_iff.mpr ⟨hinHeap, ?_, ?_, ?_, ?_, ?_, ?_⟩
      all_goals rw [hnode]
      · rfl
      · rfl
      · rfl
      · rfl
      · rfl
      · rw [rootAt]
        cases hfields : t.fields with
        | none => exact .none
        | some fs => exact .some (by simpa [fieldList, hfields] using hall)

theorem foldl_of_layoutAll {depth : Nat} (fs : List (String × Tree κ))
    (hfs : ∀ f ∈ fs, ∀ {front rest : List (Node κ)},
      h.nodes = front ++ f.2.layout front.length ++ rest →
        h.postOrderTo depth (front.length + f.2.descendants) =
          ⟨List.range' front.length (f.2.descendants + 1), true⟩)
    (hnodes : h.nodes = front ++ layoutAll fs front.length ++ rest) (done : List NodeId) :
    (fieldsAt fs front.length).foldl
        (fun (w : Walk) f => if w.ends then w.append (h.postOrderTo depth f.2) else w)
        ⟨done, true⟩ =
      (⟨done ++ List.range' front.length (descendantsAll fs), true⟩ : Walk) := by
  induction fs generalizing front done with
  | nil => simp [fieldsAt, descendantsAll]
  | cons f fs ih =>
      obtain ⟨name, t⟩ := f
      obtain ⟨hlength, hnodes⟩ := nodes_layoutAll_cons hnodes
      rw [fieldsAt, List.foldl_cons, descendantsAll, if_pos rfl, hfs (name, t) (by simp) hnodes,
        Walk.append, if_pos rfl]
      rw [← hlength] at hnodes ⊢
      rw [ih (fun g hg => hfs g (by simp [hg])) (hnodes.trans (List.append_assoc ..).symm),
        hlength, List.append_assoc, Nat.add_assoc, List.range'_append_1]

/-- The post-order of a tree that stands in the heap is the order in which it stands. -/
theorem postOrderTo_of_layout {t : Tree κ} {depth : Nat} (hdepth : t.Within depth)
    (hnodes : h.nodes = front ++ t.layout front.length ++ rest) :
    h.postOrderTo depth (front.length + t.descendants) =
      ⟨List.range' front.length (t.descendants + 1), true⟩ := by
  induction hdepth generalizing front rest with
  | @intro depth t _ ih =>
      have hfields := foldl_of_layoutAll t.fieldList ih (nodes_fieldList hnodes) []
      rw [Heap.postOrderTo, node_of_layout hnodes, fields_rootAt, hfields, Walk.append, if_pos rfl,
        ← descendants_eq, List.nil_append, List.range'_1_concat]

end placed

/-- The post-order of a planted tree is that of the new nodes. -/
theorem postOrder_planted (t : Tree κ) (h : Heap κ) :
    (h.extend (t.layout h.nodes.length)).postOrder (h.nodes.length + t.descendants) =
      ⟨List.range' h.nodes.length (t.descendants + 1), true⟩ := by
  have hnodes : (h.extend (t.layout h.nodes.length)).nodes =
      h.nodes ++ t.layout h.nodes.length ++ [] := (List.append_nil _).symm
  exact postOrderTo_of_layout (holds_of_layout t hnodes).within hnodes

end Tree

theorem Build.run_clone_of_error [Inspect κ] {h : Heap κ} {n : NodeId} {f : Fault κ}
    (hf : h.copyTree n = .error f) : (Build.clone n).run h = (.error f, h) := by
  have hclone : (Build.clone n).run h =
      (Build.of (h.copyTree n) >>= fun t => t.plant).run h := rfl
  rw [hclone, hf]
  rfl

theorem Build.run_clone_of_ok [Inspect κ] {h : Heap κ} {n : NodeId} {t : Tree κ}
    (ht : h.copyTree n = .ok t) :
    (Build.clone n).run h =
      (.ok (h.nodes.length + t.descendants), h.extend (t.layout h.nodes.length)) := by
  have hclone : (Build.clone n).run h =
      (Build.of (h.copyTree n) >>= fun t => t.plant).run h := rfl
  rw [hclone, ht]
  exact t.plant_eq h

end SchemaTree
