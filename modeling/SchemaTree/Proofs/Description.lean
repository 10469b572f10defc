import SchemaTree.Proofs.CompiledTree
import SchemaTree.Proofs.ReachedNodes

/-!
The description of a node. It tells of the tree that the node holds and of nothing else, and says
what the tree says, since the copies of rules have the content of the rules.
-/

namespace SchemaTree

variable {κ ν : Type} [Inspect κ]

theorem copyableRules_of_copyRules {rules copies : Option (List (Value κ))}
    (h : Heap.copyRules rules = .ok copies) : CopyableRules rules := by
  cases rules with
  | none => exact ⟨[], rfl⟩
  | some rules =>
      obtain ⟨copies, hcopies, -⟩ := map_eq_ok.mp h
      exact ⟨copies, hcopies⟩

theorem Tree.mapRules_leaf (registry : RegistryId) (required : Bool) (array : Option Bool)
    (strict : Bool) (rules : Option (List (Value κ))) :
    (Tree.node registry required array strict rules none).mapRules Value.deepCopyAll = (do
      return .node registry required array strict (← Heap.copyRules rules) none) := by
  cases rules <;> rfl

theorem Tree.mapRules_node (registry : RegistryId) (required : Bool) (array : Option Bool)
    (strict : Bool) (rules : Option (List (Value κ))) (fs : List (String × Tree κ)) :
    (Tree.node registry required array strict rules (some fs)).mapRules Value.deepCopyAll = (do
      let rules ← Heap.copyRules rules
      let fields ← mapRulesAll Value.deepCopyAll fs
      return .node registry required array strict rules (some fields)) := by
  cases rules with
  | none =>
      simp only [mapRules, Heap.copyRules, pure_bind, bind_map_left]
      rfl
  | some rules =>
      simp only [mapRules, Heap.copyRules, bind_map_left]
      cases Value.deepCopyAll rules <;> rfl

namespace Heap

theorem mapM_heldFields_mapRules (onNode : NodeId → Except (Fault κ) (Tree κ)) {h : Heap κ}
    {ns : List (String × NodeId)} {ts : List (String × Tree κ)}
    (hall : List.Forall₂ h.HoldsField ns ts)
    (heq : ∀ f ∈ ts, ∀ n, h.Holds n f.2 → onNode n = f.2.mapRules Value.deepCopyAll) :
    (ns.mapM fun f => do return (f.1, ← onNode f.2)) =
      Tree.mapRulesAll Value.deepCopyAll ts := by
  induction hall with
  | nil => rfl
  | @cons n t ns ts hfield _ ih =>
      have hhead := heq t (by simp) n.2 hfield.2
      rw [List.mapM_cons, ih fun f hf => heq f (by simp [hf]), hhead, hfield.1]
      obtain ⟨name, t⟩ := t
      simp [Tree.mapRulesAll]

/-- A node is described by what it holds, whatever else is in the heap. -/
theorem describeTo_eq {h : Heap κ} {n : NodeId} {t : Tree κ} {depth : Nat}
    (hdepth : t.Within depth) (hn : h.Holds n t) :
    h.describeTo depth n = t.mapRules Value.deepCopyAll := by
  induction hdepth generalizing n with
  | @intro depth t _ ih =>
      have hheld := holds_iff.mp hn
      have hfields := mapM_heldFields_mapRules (h.describeTo depth) hheld.fieldList
        fun f hf m hm => ih f hf hm
      have hnone := hheld.isNone_fields
      simp only [describeTo]
      rw [hfields, hheld.registry, hheld.required, hheld.array, hheld.strict, hheld.rules]
      obtain ⟨registry, required, array, strict, rules, fields⟩ := t
      simp only [Tree.rules, Tree.fields, Tree.fieldList] at hnone ⊢
      generalize (h.node n).fields = nodes at hnone ⊢
      cases fields with
      | none =>
          obtain rfl : nodes = none := by simpa using hnone
          rw [Tree.mapRules_leaf]
          rfl
      | some fs =>
          obtain ⟨ns, rfl⟩ := Option.isSome_iff_exists.mp (by simpa using hnone)
          rw [Tree.mapRules_node]
          rfl

end Heap

theorem Heap.Holds.describe_eq {h : Heap κ} {n : NodeId} {t : Tree κ} (hn : h.Holds n t) :
    h.describe n = t.mapRules Value.deepCopyAll :=
  Heap.describeTo_eq hn.within hn

namespace Tree

theorem mapRulesAll_of_forall {fs : List (String × Tree κ)} {f : Tree κ → Tree κ}
    (hfs : ∀ g ∈ fs, g.2.mapRules Value.deepCopyAll = .ok (f g.2)) :
    mapRulesAll Value.deepCopyAll fs = .ok (fs.map fun g => (g.1, f g.2)) := by
  induction fs with
  | nil => rfl
  | cons g fs ih =>
      obtain ⟨name, t⟩ := g
      rw [mapRulesAll, hfs (name, t) (by simp), ih fun g hg => hfs g (by simp [hg])]
      rfl

theorem exists_of_mapRulesAll {fs copies : List (String × Tree κ)}
    (h : mapRulesAll Value.deepCopyAll fs = .ok copies) {g : String × Tree κ} (hg : g ∈ fs) :
    ∃ d, g.2.mapRules Value.deepCopyAll = .ok d := by
  induction fs generalizing copies with
  | nil => simp at hg
  | cons f fs ih =>
      obtain ⟨name, t⟩ := f
      obtain ⟨d, hd, h⟩ := bind_eq_ok.mp h
      obtain ⟨ds, hds, -⟩ := bind_eq_ok.mp h
      rcases List.mem_cons.mp hg with rfl | hg
      · exact ⟨d, hd⟩
      · exact ih hds hg

theorem mapRules_of_copyable {t : Tree κ} (ht : t.Each fun u => CopyableRules u.rules) :
    t.mapRules Value.deepCopyAll = .ok (t.withRules copiedRules) := by
  induction t using induction_on_fields with
  | step t ih =>
      obtain ⟨registry, required, array, strict, rules, _ | fs⟩ := t
      · have hrules : Heap.copyRules rules = .ok (copiedRules rules) := ht.root.copyRules_eq
        rw [mapRules_leaf, hrules]
        rfl
      · have hrules : Heap.copyRules rules = .ok (copiedRules rules) := ht.root.copyRules_eq
        have hfields : mapRulesAll Value.deepCopyAll fs =
            .ok (fs.map fun g => (g.1, g.2.withRules copiedRules)) :=
          mapRulesAll_of_forall fun g hg => ih g hg (ht.field hg)
        rw [mapRules_node, hrules, hfields, withRules_eq]
        rfl

theorem copyable_of_mapRules {t d : Tree κ} (h : t.mapRules Value.deepCopyAll = .ok d) :
    t.Each fun u => CopyableRules u.rules := by
  induction t using induction_on_fields generalizing d with
  | step t ih =>
      obtain ⟨registry, required, array, strict, rules, _ | fs⟩ := t
      · rw [mapRules_leaf] at h
        obtain ⟨copies, hcopies, -⟩ := bind_eq_ok.mp h
        exact ⟨copyableRules_of_copyRules hcopies, nofun⟩
      · rw [mapRules_node] at h
        obtain ⟨copies, hcopies, h⟩ := bind_eq_ok.mp h
        obtain ⟨ds, hds, -⟩ := bind_eq_ok.mp h
        refine ⟨copyableRules_of_copyRules hcopies, fun g hg => ?_⟩
        obtain ⟨d, hd⟩ := exists_of_mapRulesAll hds hg
        exact ih g hg hd

section content

variable (view : κ → ν)

omit [Inspect κ] in
theorem content_entries (fs : List (String × Tree κ)) :
    Id.run (Value.traverseEntries (fun _ => pure .fresh) (fun o => pure (view o)) (entries fs)) =
      fs.map fun f => (.str f.1, f.2.toValue.content view) := by
  induction fs with
  | nil => rfl
  | cons f fs ih =>
      obtain ⟨name, t⟩ := f
      rw [List.map_cons, ← ih]
      rfl

/-- What a description says of the rules of a node. -/
def rulesContent : Option (List (Value κ)) → Value ν
  | none => .null
  | some xs => (Value.list .fresh xs).content view

def fieldsContent : Option (List (String × Tree κ)) → Value ν
  | none => .null
  | some fs => .mapping .fresh (fs.map fun f => (.str f.1, f.2.toValue.content view))

omit [Inspect κ] in
theorem content_toValue (t : Tree κ) :
    t.toValue.content view = .mapping .fresh [
      (.str "is_required", .bool t.required),
      (.str "is_array", match t.array with
        | none => .null
        | some b => .bool b),
      (.str "is_strict", .bool t.strict),
      (.str "validations", rulesContent view t.rules),
      (.str "fields", fieldsContent view t.fields)] := by
  obtain ⟨registry, required, array, strict, rules, _ | fs⟩ := t
  · cases array <;> cases rules <;> rfl
  · simp only [Tree.required, Tree.array, Tree.strict, Tree.rules, Tree.fields, fieldsContent,
      ← content_entries]
    cases array <;> cases rules <;> rfl

variable {view}

theorem rulesContent_copiedRules (hview : Value.KeptByCopies view)
    {rules : Option (List (Value κ))} (h : CopyableRules rules) :
    rulesContent view (copiedRules rules) = rulesContent view rules := by
  cases rules with
  | none => rfl
  | some xs =>
      have hcopies := h.copies_eq
      have hrules := h.copyRules_eq
      cases hcopied : copiedRules (some xs) with
      | none =>
          rw [hcopied] at hrules
          obtain ⟨copies, -, h⟩ := map_eq_ok.mp hrules
          exact nomatch h
      | some copies =>
          rw [hcopied] at hcopies
          refine Value.content_deepCopy hview (.list .fresh xs) ?_
          rw [Value.deepCopy, show Value.deepCopyAll xs = .ok copies from hcopies]
          rfl

theorem content_copiedRules (hview : Value.KeptByCopies view) {t : Tree κ}
    (ht : t.Each fun u => CopyableRules u.rules) :
    (t.withRules copiedRules).toValue.content view = t.toValue.content view := by
  induction t using induction_on_fields with
  | step t ih =>
      have hrules := rulesContent_copiedRules hview ht.root
      have hfields : fieldsContent view (t.fields.map fun fs =>
          fs.map fun g => (g.1, g.2.withRules copiedRules)) = fieldsContent view t.fields := by
        cases hfs : t.fields with
        | none => rfl
        | some fs =>
            have hmem : ∀ g ∈ fs, g ∈ t.fieldList := by simp [fieldList, hfs]
            rw [Option.map_some, fieldsContent, fieldsContent, List.map_map]
            exact congrArg _ <| List.map_congr_left fun g hg =>
              Prod.ext rfl (ih g (hmem g hg) (ht.field (hmem g hg)))
      rw [withRules_eq, content_toValue, content_toValue, ← hrules, ← hfields]
      rfl

theorem content_of_mapRules (hview : Value.KeptByCopies view) {t d : Tree κ}
    (h : t.mapRules Value.deepCopyAll = .ok d) :
    d.toValue.content view = t.toValue.content view := by
  have ht := copyable_of_mapRules h
  obtain rfl : t.withRules copiedRules = d :=
    Except.ok.inj ((mapRules_of_copyable ht).symm.trans h)
  exact content_copiedRules hview ht

end content

end Tree

end SchemaTree
