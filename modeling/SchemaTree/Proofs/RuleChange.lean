import Mathlib.Data.List.Basic
import SchemaTree.Proofs.Agenda
import SchemaTree.Proofs.Copying

/-!
Trees with other rules. The checks of such a tree are those of the tree itself with other tests at
the places of the rules. The copy of a tree has copies of its rules.
-/

namespace SchemaTree

variable {κ : Type}

namespace Tree

section withRules

variable (f : Option (List (Value κ)) → Option (List (Value κ)))

mutual

def withRules : Tree κ → Tree κ
  | .node registry required array strict rules fields =>
    .node registry required array strict (f rules) (match fields with
      | none => none
      | some fs => some (withRulesAll fs))

def withRulesAll : List (String × Tree κ) → List (String × Tree κ)
  | [] => []
  | (name, t) :: fs => (name, t.withRules) :: withRulesAll fs

end

theorem withRulesAll_eq (fs : List (String × Tree κ)) :
    withRulesAll f fs = fs.map fun g => (g.1, g.2.withRules f) := by
  induction fs with
  | nil => rfl
  | cons g fs ih => rw [withRulesAll, ih, List.map_cons]

theorem withRules_eq (t : Tree κ) :
    t.withRules f = .node t.registry t.required t.array t.strict (f t.rules)
      (t.fields.map fun fs => fs.map fun g => (g.1, g.2.withRules f)) := by
  obtain ⟨registry, required, array, strict, rules, _ | fs⟩ := t
  · rfl
  · rw [withRules, withRulesAll_eq]
    rfl

theorem fieldList_withRules (t : Tree κ) :
    (t.withRules f).fieldList = t.fieldList.map fun g => (g.1, g.2.withRules f) := by
  rw [withRules_eq, fieldList, fieldList, fields]
  cases t.fields <;> rfl

theorem names_withRules (t : Tree κ) : (t.withRules f).names = t.names := by
  rw [names, fieldList_withRules, List.map_map]
  rfl

theorem parts_withRules (t : Tree κ) (v : Value κ) (p : Position) :
    (t.withRules f).parts v p = t.parts v p := by
  rw [withRules_eq]
  simp [parts, fields, isArray, array]

theorem partProbes_withRules (t : Tree κ) (x : Value κ × Position) :
    (t.withRules f).partProbes x = t.partProbes x := by
  rw [partProbes, names_withRules, withRules_eq]
  rfl

end withRules

variable {f : Option (List (Value κ)) → Option (List (Value κ))}
  {tests tests' : Option (List (Value κ)) → List (Test κ)} {keep : Test κ → Bool}

variable [Inspect κ] in
/-- Where other rules make the tests that are kept of those of the rules, the agenda of the tree
with other rules has the checks that are kept. -/
theorem agenda_withRules (hkeep : ∀ test : Test κ, test.isBuiltIn = true → keep test = true)
    (t : Tree κ) (ht : t.Each fun u => tests' (f u.rules) = (tests u.rules).filter keep)
    (v : Value κ) (p : Position) :
    (t.withRules f).agenda tests' v p = (t.agenda tests v p).filter (keep ·.test) := by
  induction t using induction_on_fields generalizing v p with
  | step t ih =>
      have hpart (x : Value κ × Position) : (t.withRules f).partProbes x ++
          (t.withRules f).fieldProbes tests' x =
          (t.partProbes x ++ t.fieldProbes tests x).filter (keep ·.test) := by
        have hfields : (t.withRules f).fieldProbes tests' x =
            (t.fieldProbes tests x).filter (keep ·.test) := by
          rw [fieldProbes, fieldProbes, fieldList_withRules, List.flatMap_map,
            List.filter_flatMap]
          exact List.flatMap_congr fun g hg => ih g hg (ht.field hg) _ _
        have hown : (t.partProbes x).filter (keep ·.test) = t.partProbes x := by
          refine List.filter_eq_self.mpr fun y hy => ?_
          rcases List.mem_pair.mp hy with rfl | rfl <;> exact hkeep _ rfl
        rw [partProbes_withRules, hfields, List.filter_append, hown]
      have hrequired : (t.withRules f).required = t.required := by rw [withRules_eq]; rfl
      have harray : (t.withRules f).isArray = t.isArray := by rw [withRules_eq]; rfl
      have hrules : tests' (t.withRules f).rules = (tests t.rules).filter keep := by
        rw [← ht.root, withRules_eq]
        rfl
      rw [agenda_eq, agenda_eq, hrequired, harray, hrules, parts_withRules,
        List.filter_cons_of_pos (by exact hkeep _ rfl)]
      congr 1
      split
      · rfl
      · rw [List.cons_append, List.cons_append, List.filter_cons_of_pos (by exact hkeep _ rfl),
          List.filter_append, List.filter_map, List.filter_flatMap]
        simp only [hpart]
        rfl

theorem withRules_withRules (f g : Option (List (Value κ)) → Option (List (Value κ)))
    (t : Tree κ) : (t.withRules f).withRules g = t.withRules (g ∘ f) := by
  induction t using induction_on_fields with
  | step t ih =>
      obtain ⟨registry, required, array, strict, rules, _ | fs⟩ := t
      · rfl
      · have hfields : (fs.map fun x => (x.1, x.2.withRules f)).map
            (fun x => (x.1, x.2.withRules g)) =
            fs.map fun x => (x.1, x.2.withRules (g ∘ f)) := by
          rw [List.map_map]
          exact List.map_congr_left fun x hx => Prod.ext rfl (ih x hx)
        rw [withRules_eq f, withRules_eq g, withRules_eq (g ∘ f)]
        simp only [fields, Option.map_some, hfields]
        rfl

theorem withRules_congr {g : Option (List (Value κ)) → Option (List (Value κ))} {t : Tree κ}
    (ht : t.Each fun u => f u.rules = g u.rules) : t.withRules f = t.withRules g := by
  induction t using induction_on_fields with
  | step t ih =>
      have hfields : (t.fields.map fun fs => fs.map fun x => (x.1, x.2.withRules f)) =
          t.fields.map fun fs => fs.map fun x => (x.1, x.2.withRules g) := by
        cases hfs : t.fields with
        | none => rfl
        | some fs =>
            have hmem : ∀ x ∈ fs, x ∈ t.fieldList := by simp [fieldList, hfs]
            exact congrArg some <| List.map_congr_left fun x hx =>
              Prod.ext rfl (ih x (hmem x hx) (ht.field (hmem x hx)))
      rw [withRules_eq, withRules_eq, ht.root, hfields]

theorem each_withRules {P : Option (List (Value κ)) → Prop} {t : Tree κ}
    (ht : t.Each fun u => P (f u.rules)) : (t.withRules f).Each fun u => P u.rules := by
  induction t using induction_on_fields with
  | step t ih =>
      refine ⟨by rw [withRules_eq]; exact ht.root, fun x hx => ?_⟩
      rw [fieldList_withRules] at hx
      obtain ⟨y, hy, rfl⟩ := List.mem_map.mp hx
      exact ih y hy (ht.field hy)

end Tree

section copies

variable [Inspect κ]

/-- The copies of a node's rules, where they can be copied. -/
def Tree.copiedRules (rules : Option (List (Value κ))) : Option (List (Value κ)) :=
  (Heap.copyRules rules).toOption.getD rules

def CopyableRules (rules : Option (List (Value κ))) : Prop :=
  ∃ copies, Value.deepCopyAll (rules.getD []) = .ok copies

theorem CopyableRules.copyRules_eq {rules : Option (List (Value κ))} (h : CopyableRules rules) :
    Heap.copyRules rules = .ok (Tree.copiedRules rules) := by
  obtain ⟨copies, hcopies⟩ := h
  cases rules with
  | none => rfl
  | some rules =>
      have hrules : Heap.copyRules (some rules) = .ok (some copies) := by
        rw [Option.getD_some] at hcopies
        rw [Heap.copyRules, hcopies]
        rfl
      rw [Tree.copiedRules, hrules]
      rfl

theorem CopyableRules.copies_eq {rules : Option (List (Value κ))} (h : CopyableRules rules) :
    Value.deepCopyAll (rules.getD []) = .ok ((Tree.copiedRules rules).getD []) := by
  have hcopied := h.copyRules_eq
  obtain ⟨copies, hcopies⟩ := h
  cases rules with
  | none => rfl
  | some rules =>
      rw [Option.getD_some] at hcopies ⊢
      rw [Heap.copyRules, hcopies] at hcopied
      rw [← Except.ok.inj hcopied, hcopies]
      rfl

omit [Inspect κ] in
theorem Heap.mapM_heldFields (onNode : NodeId → Except (Fault κ) (Tree κ))
    (onTree : Tree κ → Tree κ) {h : Heap κ} {ns : List (String × NodeId)}
    {ts : List (String × Tree κ)} (hall : List.Forall₂ h.HoldsField ns ts)
    (heq : ∀ f ∈ ts, ∀ n, h.Holds n f.2 → onNode n = .ok (onTree f.2)) :
    (ns.mapM fun f => do return (f.1, ← onNode f.2)) =
      .ok (ts.map fun f => (f.1, onTree f.2)) := by
  induction hall with
  | nil => rfl
  | @cons n t ns ts hfield _ ih =>
      have hhead := heq t (by simp) n.2 hfield.2
      rw [List.mapM_cons, ih fun f hf => heq f (by simp [hf]), hhead, hfield.1]
      rfl

theorem Heap.copyTreeTo_eq {h : Heap κ} {n : NodeId} {t : Tree κ} {depth : Nat}
    (hdepth : t.Within depth) (hn : h.Holds n t)
    (hcopies : t.Each fun u => Heap.copyRules u.rules = .ok (Tree.copiedRules u.rules)) :
    h.copyTreeTo depth n = .ok (t.withRules Tree.copiedRules) := by
  induction hdepth generalizing n with
  | @intro depth t _ ih =>
      have hheld := Heap.holds_iff.mp hn
      have hfields := Heap.mapM_heldFields (h.copyTreeTo depth) (·.withRules Tree.copiedRules)
        hheld.fieldList fun f hf m hm => ih f hf hm (hcopies.field hf)
      have hrecord : ((h.node n).fields.map fun _ =>
          t.fieldList.map fun f => (f.1, f.2.withRules Tree.copiedRules)) =
          t.fields.map fun fs => fs.map fun f => (f.1, f.2.withRules Tree.copiedRules) := by
        have hfields := hheld.isNone_fields
        rw [Tree.fieldList]
        generalize (h.node n).fields = nodes at hfields ⊢
        cases nodes <;> cases ht : t.fields <;> simp_all
      simp only [copyTreeTo]
      rw [hfields, hheld.rules, hcopies.root, Tree.withRules_eq, ← hheld.registry, ← hheld.required,
        ← hheld.array, ← hheld.strict, ← hrecord]
      rfl

end copies

end SchemaTree
