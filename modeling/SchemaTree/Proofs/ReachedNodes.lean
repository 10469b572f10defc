import SchemaTree.Proofs.TreeLayout

/-!
The nodes that a node reaches through fields. What a node holds, and how it is described, depends on
them alone; and the nodes of a planted tree reach each other only.
-/

namespace SchemaTree

variable {κ : Type}

namespace Heap

inductive Reaches (h : Heap κ) (n : NodeId) : NodeId → Prop
  | refl : Reaches h n n
  | field {m : NodeId} {f : String × NodeId} (hm : Reaches h n m)
      (hf : f ∈ (h.node m).fields.getD []) : Reaches h n f.2

namespace Reaches

variable {h h' : Heap κ} {n m : NodeId}

theorem of_field {f : String × NodeId} (hf : f ∈ (h.node n).fields.getD [])
    (hm : h.Reaches f.2 m) : h.Reaches n m := by
  induction hm with
  | refl => exact .field .refl hf
  | field _ hg ih => exact .field ih hg

theorem of_same (hsame : ∀ k, h.Reaches n k → h'.node k = h.node k) (hm : h'.Reaches n m) :
    h.Reaches n m := by
  induction hm with
  | refl => exact .refl
  | field _ hf ih =>
      rw [hsame _ ih] at hf
      exact .field ih hf

/-- From nodes with a property whose fields have it, only nodes with it are reached. -/
theorem mem_of_closed {P : NodeId → Prop} (hn : P n)
    (hclosed : ∀ k, P k → ∀ f ∈ (h.node k).fields.getD [], P f.2) (hm : h.Reaches n m) : P m := by
  induction hm with
  | refl => exact hn
  | field _ hf ih => exact hclosed _ ih _ hf

end Reaches

theorem HoldsHere.exists_tree {h : Heap κ} {n : NodeId} {t : Tree κ} (hn : h.HoldsHere n t)
    {f : String × NodeId} (hf : f ∈ (h.node n).fields.getD []) :
    ∃ u, h.Holds f.2 u := by
  obtain ⟨g, -, hg⟩ := exists_right_of_mem hn.fieldList hf
  exact ⟨g.2, hg.2⟩

theorem Holds.lt_of_reaches {h : Heap κ} {n m : NodeId} {t : Tree κ} (hn : h.Holds n t)
    (hm : h.Reaches n m) : m < h.nodes.length := by
  have hheld : ∃ u, h.Holds m u := by
    induction hm with
    | refl => exact ⟨t, hn⟩
    | field _ hf ih =>
        obtain ⟨u, hu⟩ := ih
        exact (holds_iff.mp hu).exists_tree hf
  obtain ⟨u, hu⟩ := hheld
  exact (holds_iff.mp hu).inHeap

theorem forall₂_holdsField_of_same {h h' : Heap κ} {ns : List (String × NodeId)}
    {ts : List (String × Tree κ)} (hall : List.Forall₂ h.HoldsField ns ts)
    (hsame : ∀ f ∈ ns, ∀ g ∈ ts, h.Holds f.2 g.2 → h'.Holds f.2 g.2) :
    List.Forall₂ h'.HoldsField ns ts := by
  induction hall with
  | nil => exact .nil
  | @cons f g ns ts hfield _ ih =>
      refine .cons ⟨hfield.1, hsame f (by simp) g (by simp) hfield.2⟩ (ih ?_)
      exact fun f hf g hg => hsame f (by simp [hf]) g (by simp [hg])

theorem Holds.of_same {h h' : Heap κ} {n : NodeId} {t : Tree κ} (hn : h.Holds n t)
    (hgrows : h.nodes.length ≤ h'.nodes.length)
    (hsame : ∀ m, h.Reaches n m → h'.node m = h.node m) : h'.Holds n t := by
  induction t using Tree.induction_on_fields generalizing n with
  | step t ih =>
      have hnode := hsame n .refl
      obtain ⟨hinHeap, hregistry, hrequired, harray, hstrict, hrules, hfields⟩ := holds_iff.mp hn
      refine holds_iff.mpr ⟨Nat.lt_of_lt_of_le hinHeap hgrows, ?_, ?_, ?_, ?_, ?_, ?_⟩
      all_goals rw [hnode]
      · exact hregistry
      · exact hrequired
      · exact harray
      · exact hstrict
      · exact hrules
      · cases hns : (h.node n).fields with
        | none =>
            rw [hns] at hfields
            generalize t.fields = ts at hfields ⊢
            cases hfields
            exact .none
        | some ns =>
            cases hts : t.fields with
            | none =>
                rw [hns, hts] at hfields
                exact nomatch hfields
            | some ts =>
                rw [hns, hts] at hfields
                obtain ⟨hall⟩ := hfields
                refine .some (forall₂_holdsField_of_same hall fun f hf g hg hheld => ?_)
                have hmem : g ∈ t.fieldList := by rwa [Tree.fieldList, hts]
                have hfield : f ∈ (h.node n).fields.getD [] := by rwa [hns]
                exact ih g hmem hheld fun m hm => hsame m (.of_field hfield hm)

theorem Holds.extend {h : Heap κ} {n : NodeId} {t : Tree κ} (hn : h.Holds n t)
    (nodes : List (Node κ)) : (h.extend nodes).Holds n t := by
  refine hn.of_same (by simp) fun m hm => ?_
  exact node_extend (hn.lt_of_reaches hm) nodes

theorem Holds.lt_of_reaches_extend {h : Heap κ} {n m : NodeId} {t : Tree κ} (hn : h.Holds n t)
    {nodes : List (Node κ)} (hm : (h.extend nodes).Reaches n m) : m < h.nodes.length := by
  refine hn.lt_of_reaches (hm.of_same fun k hk => ?_)
  exact node_extend (hn.lt_of_reaches hk) nodes

end Heap

namespace Tree

theorem between_of_mem_fieldsAt {fs : List (String × Tree κ)} {a : Nat} {f : String × NodeId}
    (hf : f ∈ fieldsAt fs a) : a ≤ f.2 ∧ f.2 < a + descendantsAll fs := by
  induction fs generalizing a with
  | nil => exact nomatch hf
  | cons g fs ih =>
      obtain ⟨name, t⟩ := g
      rw [descendantsAll]
      rcases List.mem_cons.mp hf with rfl | hf
      · exact ⟨Nat.le_add_right a _, Nat.add_lt_add_left (by omega) a⟩
      · obtain ⟨hle, hlt⟩ := ih hf
        exact ⟨Nat.le_trans (by omega) hle, Nat.lt_of_lt_of_eq hlt (by omega)⟩

theorem between_of_mem_layoutAll {fs : List (String × Tree κ)} {a i : Nat} {x : Node κ}
    (hfs : ∀ g ∈ fs, ∀ {a i : Nat}, (g.2.layout a)[i]? = some x →
      ∀ f ∈ x.fields.getD [], a ≤ f.2 ∧ f.2 < a + i)
    (hx : (layoutAll fs a)[i]? = some x) : ∀ f ∈ x.fields.getD [], a ≤ f.2 ∧ f.2 < a + i := by
  induction fs generalizing a i with
  | nil => exact nomatch hx
  | cons g fs ih =>
      obtain ⟨name, t⟩ := g
      rw [layoutAll, List.getElem?_append, length_layout] at hx
      intro f hf
      split at hx
      · exact hfs (name, t) (by simp) hx f hf
      · obtain ⟨hle, hlt⟩ := ih (fun g hg => hfs g (by simp [hg])) hx f hf
        exact ⟨Nat.le_trans (by omega) hle, Nat.lt_of_lt_of_eq hlt (by omega)⟩

theorem between_of_mem_layout {t : Tree κ} {a i : Nat} {x : Node κ}
    (hx : (t.layout a)[i]? = some x) : ∀ f ∈ x.fields.getD [], a ≤ f.2 ∧ f.2 < a + i := by
  induction t using induction_on_fields generalizing a i with
  | step t ih =>
      rw [layout_eq, List.getElem?_append, length_layoutAll] at hx
      split at hx
      · exact between_of_mem_layoutAll (fun g hg => ih g hg) hx
      · rename_i hi
        obtain ⟨hlast, rfl⟩ : i - descendantsAll t.fieldList = 0 ∧ t.rootAt a = x := by
          simpa [List.getElem?_singleton] using hx
        intro f hf
        rw [fields_rootAt] at hf
        obtain ⟨hle, hlt⟩ := between_of_mem_fieldsAt hf
        exact ⟨hle, Nat.lt_of_lt_of_le hlt (by omega)⟩

/-- A node of a tree planted at the end of a heap holds nodes of the tree that stand before it. -/
theorem between_of_planted {t : Tree κ} {h : Heap κ} {n : NodeId} (hn : h.nodes.length ≤ n)
    {f : String × NodeId}
    (hf : f ∈ ((h.extend (t.layout h.nodes.length)).node n).fields.getD []) :
    h.nodes.length ≤ f.2 ∧ f.2 < n := by
  have hnode : (h.extend (t.layout h.nodes.length)).node n =
      ((t.layout h.nodes.length)[n - h.nodes.length]?).getD
        { registry := Heap.defaultRegistry } := by
    rw [Heap.node, Heap.nodes_extend, List.getD_eq_getElem?_getD, List.getElem?_append_right hn]
  rw [hnode] at hf
  cases hx : (t.layout h.nodes.length)[n - h.nodes.length]? with
  | none =>
      rw [hx] at hf
      cases hf
  | some x =>
      rw [hx] at hf
      obtain ⟨hle, hlt⟩ := between_of_mem_layout hx f hf
      exact ⟨hle, Nat.lt_of_lt_of_eq hlt (by omega)⟩

/-- From a node of a planted tree only nodes of the tree are reached that do not stand behind it. -/
theorem between_of_reaches_planted {t : Tree κ} {h : Heap κ} {n m : NodeId}
    (hn : h.nodes.length ≤ n) (hm : (h.extend (t.layout h.nodes.length)).Reaches n m) :
    h.nodes.length ≤ m ∧ m ≤ n := by
  refine hm.mem_of_closed (P := fun k => h.nodes.length ≤ k ∧ k ≤ n) ⟨hn, Nat.le_refl n⟩
    fun k hk f hf => ?_
  obtain ⟨hle, hlt⟩ := between_of_planted hk.1 hf
  exact ⟨hle, Nat.le_trans (Nat.le_of_lt hlt) hk.2⟩

end Tree

end SchemaTree
