import SchemaTree.Proofs.BuilderRuns
import SchemaTree.Proofs.Description
import SchemaTree.Proofs.OwnCopies

/-!
Clones. The clone of a node looks like the node and consists of new nodes, so whatever is built on
one of the two afterwards does not show in the other.
-/

namespace SchemaTree

variable {κ : Type} [Inspect κ]

namespace Heap

theorem ChangedAt.describe_eq {ok : NodeId → Prop} {before after : Heap κ} {n : NodeId} {t : Tree κ}
    (h : ChangedAt ok before after) (hn : before.Holds n t)
    (hapart : ∀ m, before.Reaches n m → ¬ ok m) : after.describe n = before.describe n := by
  have hafter : after.Holds n t := hn.of_same h.grows fun m hm => h.same m (hapart m hm)
  rw [hafter.describe_eq, hn.describe_eq]

theorem after_describe_eq {ok : NodeId → Prop} {h : Heap κ} {n : NodeId} {t : Tree κ}
    (hunshared : h.Unshared) (hnew : ∀ m, h.nodes.length ≤ m → ok m) (hn : h.Holds n t)
    (hapart : ∀ m, h.Reaches n m → ¬ ok m) {acts : List (Act κ)} (hacts : h.ActsWithin ok acts) :
    (h.after acts).describe n = h.describe n := by
  have hstart : ChangedAt ok h h := ⟨hnew, hunshared, Nat.le_refl _, fun _ _ => rfl⟩
  exact (hstart.after acts hacts).describe_eq hn hapart

end Heap

/-- A node and a tree planted at the end of its heap have no node in common: what is done to the
nodes of one of the two and to newer ones does not show in the other. -/
theorem planted_apart {h h' : Heap κ} (hunshared : h.Unshared) {n c : NodeId} {t u : Tree κ}
    (hn : h.Holds n t) (hh' : h' = h.extend (u.layout h.nodes.length))
    (hc : c = h.nodes.length + u.descendants) {a b : NodeId}
    (hpair : a = n ∧ b = c ∨ a = c ∧ b = n) {acts : List (Act κ)}
    (hacts : h'.ActsWithin (fun m => h'.Reaches a m ∨ h'.nodes.length ≤ m) acts) :
    (h'.after acts).describe b = h'.describe b := by
  have hunshared' : h'.Unshared := by
    rw [hh']
    exact hunshared.extend fun p hp => Tree.marks_of_layout hp
  have hholds : h'.Holds c u := by
    rw [hh', hc]
    exact Tree.holds_of_layout u (List.append_nil _).symm
  have hsame : h'.Holds n t := by
    rw [hh']
    exact hn.extend _
  -- the nodes of the planted tree stand from the old length on, those of the other below it
  have hnew {m : NodeId} (hm : h'.Reaches c m) : h.nodes.length ≤ m := by
    rw [hh'] at hm
    exact (Tree.between_of_reaches_planted (by rw [hc]; exact Nat.le_add_right ..) hm).1
  have hold {m : NodeId} (hm : h'.Reaches n m) : m < h.nodes.length := by
    rw [hh'] at hm
    exact hn.lt_of_reaches_extend hm
  rcases hpair with ⟨rfl, rfl⟩ | ⟨rfl, rfl⟩
  · refine Heap.after_describe_eq hunshared' (fun m hm => .inr hm) hholds ?_ hacts
    rintro m hm (hother | hlater)
    · exact Nat.lt_irrefl _ (Nat.lt_of_lt_of_le (hold hother) (hnew hm))
    · exact Nat.lt_irrefl _ (Nat.lt_of_lt_of_le (hholds.lt_of_reaches hm) hlater)
  · refine Heap.after_describe_eq hunshared' (fun m hm => .inr hm) hsame ?_ hacts
    rintro m hm (hother | hlater)
    · exact Nat.lt_irrefl _ (Nat.lt_of_lt_of_le (hold hm) (hnew hother))
    · exact Nat.lt_irrefl _ (Nat.lt_of_lt_of_le (hsame.lt_of_reaches hm) hlater)

/-- The clone of a node whose rules can be copied is made of new nodes, with the registries and the
flags of the old ones and copies of their rules, and its description says the same. Nothing that was
there changes, and what is done to one of the two afterwards does not show in the other. -/
theorem clone_equal_and_apart {h : Heap κ} (hbuilt : h.Built) {n : NodeId} {t : Tree κ}
    (hn : h.Holds n t) (hcopies : t.Each fun u => CopyableRules u.rules) :
    ∃ c h', (Build.clone n).run h = (.ok c, h') ∧ h'.Holds c (t.withRules Tree.copiedRules) ∧
      (∃ d, h.describe n = .ok d ∧ h'.describe n = .ok d ∧ ∀ d', h'.describe c = .ok d' →
        ∀ {ν : Type} (view : κ → ν), Value.KeptByCopies view →
          d'.toValue.content view = d.toValue.content view) ∧
      (t.Each Tree.CopiedTwice → ∃ d', h'.describe c = .ok d') ∧
      (∀ m, h'.Reaches c m → h.nodes.length ≤ m) ∧
      (∀ m, m < h.nodes.length → h'.node m = h.node m) ∧ h'.registries = h.registries ∧
      ∀ a b, a = n ∧ b = c ∨ a = c ∧ b = n → ∀ acts,
        h'.ActsWithin (fun m => h'.Reaches a m ∨ h'.nodes.length ≤ m) acts →
        (h'.after acts).describe b = h'.describe b := by
  obtain ⟨u, hu⟩ : ∃ u, u = t.withRules Tree.copiedRules := ⟨_, rfl⟩
  have hlayout : h.nodes.length + t.descendants = h.nodes.length + u.descendants := by
    rw [hu, Tree.descendants_withRules]
  have hholds : (h.extend (u.layout h.nodes.length)).Holds (h.nodes.length + u.descendants) u :=
    Tree.holds_of_layout u (List.append_nil _).symm
  have hdescribed : t.mapRules Value.deepCopyAll = .ok u := by
    rw [hu]
    exact Tree.mapRules_of_copyable hcopies
  have hsame := (hn.extend (u.layout h.nodes.length)).describe_eq
  rw [← hu]
  refine ⟨_, _, by rw [Build.clone_eq hn hcopies, hlayout, hu], hholds,
    ⟨u, hn.describe_eq.trans hdescribed, hsame.trans hdescribed, ?_⟩, ?_, ?_, ?_, rfl, ?_⟩
  · intro d' hd' ν view hview
    rw [hholds.describe_eq] at hd'
    exact Tree.content_of_mapRules hview hd'
  · intro htwice
    have hagain : u.Each fun v => CopyableRules v.rules := by
      rw [hu]
      exact Tree.each_withRules (htwice.mono fun v hv => hv.again)
    exact ⟨_, hholds.describe_eq.trans (Tree.mapRules_of_copyable hagain)⟩
  · exact fun m hm => (Tree.between_of_reaches_planted (Nat.le_add_right ..) hm).1
  · exact fun m hm => Heap.node_extend hm _
  · exact fun a b hpair acts hacts => planted_apart hbuilt.unshared hn rfl rfl hpair hacts

def OrderFunction.acts : List (Act OrderFunction) := [
  .create .null Heap.defaultRegistry,
  .operate 0 (.required (.str "items") .null),
  .operate 1 .array,
  .operate 1 (.required (.str "count") (.object .positive)),
  .operate 0 (.strict (.bool true))]

/-- Whatever is done to the clone of the schema of an order, the schema stays as it is. -/
theorem order_clone_apart :
    ∃ c h', (Build.clone 0).run (Heap.initial.after OrderFunction.acts) = (.ok c, h') ∧
      ∀ acts, h'.ActsWithin (fun m => h'.Reaches c m ∨ h'.nodes.length ≤ m) acts →
        (h'.after acts).describe 0 = h'.describe 0 := by
  have hheld : (Heap.initial.after OrderFunction.acts).Holds 0
      (OrderFunction.order [.object .positive]) := by
    have hheap : Heap.initial.after OrderFunction.acts = {
        nodes := [
          { registry := Heap.defaultRegistry, strict := true, fields := some [("items", 1)] },
          { registry := Heap.defaultRegistry, array := some true, fields := some [("count", 2)] },
          { registry := Heap.defaultRegistry, rules := some [.object .positive] }]
        registries := [{ name := .str "schemas" }] } := rfl
    rw [hheap]
    simp [OrderFunction.order, Heap.Holds, Heap.HoldsRecord, Heap.HoldsAll, Heap.node]
  obtain ⟨c, h', hrun, -, -, -, -, -, -, hapart⟩ := clone_equal_and_apart ⟨_, rfl⟩ hheld
    (Tree.each_of_forall (fun u => Value.exists_deepCopyAll (fun o => ⟨o, rfl⟩) _) _)
  exact ⟨c, h', hrun, hapart c 0 (.inr ⟨rfl, rfl⟩)⟩

end SchemaTree
