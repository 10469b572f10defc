import SchemaTree.Proofs.FieldGrowth
import SchemaTree.Session.Memory

/-!
Records of fields. Several nodes may hold one record, and what is added to it is seen by all of
them. Whatever a program does, the names of a record differ, and a node without a record holds none
that it could have in common with another node.
-/

namespace SchemaTree

variable {κ : Type}

/-- The names of a node's fields differ, and a node without fields holds no record. -/
structure Node.Regular (p : Node κ) : Prop where
  distinct : ((p.fields.getD []).map (·.1)).Nodup
  unheld : p.fields = none → p.fieldsMark = .fresh

namespace Heap

def Regular (h : Heap κ) : Prop := ∀ n, (h.node n).Regular

theorem forall_node_setNode {P : Node κ → Prop} {h : Heap κ} (hh : ∀ k, P (h.node k)) (n : NodeId)
    {q : Node κ} (hq : P q) (k : NodeId) : P ((h.setNode n q).node k) := by
  rcases node_setNode_cases h n k q with hk | ⟨-, hk⟩
  · exact hk ▸ hh k
  · rwa [hk]

theorem forall_node_extend {P : Node κ → Prop} {h : Heap κ} (hh : ∀ k, P (h.node k))
    {nodes : List (Node κ)} (hnodes : ∀ p ∈ nodes, P p) (k : NodeId) :
    P ((h.extend nodes).node k) := by
  rcases node_extend_cases h nodes k with hk | ⟨-, hk⟩
  · exact hk ▸ hh k
  · exact hnodes _ hk

theorem node_of_nodes_map {h h' : Heap κ} {g : Node κ → Node κ} (hh' : h'.nodes = h.nodes.map g)
    {k : NodeId} (hk : k < h.nodes.length) : h'.node k = g (h.node k) := by
  simp [node, hh', hk]

theorem forall_node_map {P : Node κ → Prop} {h : Heap κ} (hh : ∀ k, P (h.node k))
    {g : Node κ → Node κ} (hg : ∀ p, P p → P (g p)) {h' : Heap κ}
    (hh' : h'.nodes = h.nodes.map g) (k : NodeId) : P (h'.node k) := by
  rcases Nat.lt_or_ge k h.nodes.length with hlt | hge
  · exact node_of_nodes_map hh' hlt ▸ hg _ (hh k)
  · have hle : h'.nodes.length ≤ k := by rwa [hh', List.length_map]
    rw [node_of_le hle, ← node_of_le hge]
    exact hh k

end Heap

namespace Node.Regular

variable {p : Node κ}

/-- What a node has besides its fields does not matter. -/
theorem congr (hp : p.Regular) {q : Node κ} (hfields : q.fields = p.fields)
    (hmark : q.fieldsMark = p.fieldsMark) : q.Regular := by
  constructor
  · rw [hfields]
    exact hp.distinct
  · rw [hfields, hmark]
    exact hp.unheld

theorem addField (hp : p.Regular) {name : String} (hname : name ∉ (p.fields.getD []).map (·.1))
    (child : NodeId) (q : Node κ) :
    ({ q with fields := some (p.fields.getD [] ++ [(name, child)]) } : Node κ).Regular where
  distinct := nodup_names_concat hp.distinct hname child
  unheld := nofun

end Node.Regular

namespace Heap

/-- The copies of nodes have the names of the nodes. -/
theorem each_names_of_copyTreeTo [Inspect κ] {h : Heap κ} {depth : Nat} {n : NodeId} {t : Tree κ}
    (ht : h.copyTreeTo depth n = .ok t) :
    t.Each fun u => ∃ k, u.names = ((h.node k).fields.getD []).map (·.1) := by
  induction depth generalizing n t with
  | zero => exact nomatch ht
  | succ depth ih =>
      have hts := forall₂_fieldList_of_copyTreeTo ht
      refine ⟨⟨n, (map_eq_of_forall₂ (hts.imp fun f g hfg => hfg.1)).symm⟩, fun g hg => ?_⟩
      obtain ⟨f, -, -, hcopy⟩ := exists_left_of_mem hts hg
      exact ih hcopy

namespace Regular

variable {h : Heap κ} (hh : h.Regular)

include hh

theorem create (r : RegistryId) : (h.addNode { registry := r }).Regular :=
  forall_node_extend (P := Node.Regular) hh (by
    intro p hp
    rw [List.mem_singleton.mp hp]
    exact ⟨List.nodup_nil, fun _ => rfl⟩)

theorem copy [Inspect κ] {n : NodeId} {t : Tree κ} (ht : h.copyTree n = .ok t) :
    (h.extend (t.layout h.nodes.length)).Regular := by
  refine forall_node_extend (P := Node.Regular) hh fun p hp => ⟨?_, fun _ => ?_⟩
  · refine Tree.forall_mem_layout (P := fun x => ((x.fields.getD []).map (·.1)).Nodup) ?_ hp
    refine (each_names_of_copyTreeTo ht).mono fun u ⟨k, hk⟩ b _ => ?_
    rw [Tree.fields_rootAt, Tree.names_fieldsAt]
    rw [Tree.names] at hk
    exact hk ▸ (hh k).distinct
  · exact (Tree.marks_of_layout hp).2

/-- The new field is seen by all nodes that hold the record. -/
theorem addField {n : NodeId} {name : String}
    (hname : name ∉ ((h.node n).fields.getD []).map (·.1)) (child : NodeId) :
    (h.addField n name child).Regular := by
  unfold Heap.addField
  dsimp only
  split
  · refine forall_node_map (P := Node.Regular) hh (fun q hq => ?_) rfl
    split
    · exact (hh n).addField hname child q
    · exact hq
  · exact forall_node_setNode (P := Node.Regular) hh n ((hh n).addField hname child (h.node n))

theorem addRules [Inspect κ] (n : NodeId) (added : List (Value κ)) :
    (h.addRules n added).Regular := by
  unfold Heap.addRules
  dsimp only
  split
  · refine forall_node_map (P := Node.Regular) hh (fun q hq => ?_) rfl
    split
    · exact hq.congr rfl rfl
    · exact hq.congr rfl rfl
  · exact forall_node_setNode (P := Node.Regular) hh n ((hh n).congr rfl rfl)

end Regular

theorem Regular.invariant [Inspect κ] : Invariant (κ := κ) .all Regular where
  new _ _ := trivial
  create hh r := hh.create r
  copy hh ht := hh.copy ht
  flags hh _ _ _ _ _ := forall_node_setNode (P := Node.Regular) hh _ ((hh _).congr rfl rfl)
  rules hh _ _ := hh.addRules _ _
  copiedRules hh _ _ _ := forall_node_setNode (P := Node.Regular) hh _ ((hh _).congr rfl rfl)
  newField {h n name} hh _ _ hname r := by
    refine (hh.create r).addField ?_ _
    rw [fields_node_addNode]
    exact hname.2
  copiedField _ _ hh _ _ ht hname := (hh.copy ht).addField hname _
  attached hh _ _ hname := hh.addField hname.2 _

/-- Whatever a program does, and whatever its objects answer at the time. -/
theorem Regular.course {h : Heap κ} (hh : h.Regular) (moments : List (Moment κ)) :
    (h.course moments).Regular :=
  Invariant.course (fun answers => @Regular.invariant κ answers) (fun hh _ => hh) hh moments
    (courseEach_of_forall (fun answers => @Operation.inScope_all κ answers) _ moments)

theorem regular_initial : (initial : Heap κ).Regular := fun _ => ⟨List.nodup_nil, fun _ => rfl⟩

end Heap

/-- Where several nodes come to hold one record, each of them has it. -/
theorem Node.Regular.settle {σ : Type} {p : Node (Object σ)} (hp : p.Regular)
    (s : Session σ) : ((Memory.settleNode p).run s).1.Regular := by
  have hnumbered {q : Node (Object σ)} (hq : q.Regular) (s : Session σ) :
      ((if q.fields.isSome then do
          return { q with fieldsMark := ← Memory.alone (Memory.number q.fieldsMark) }
        else return q : Memory σ (Node (Object σ))).run s).1.Regular := by
    split
    · rename_i hsome
      refine ⟨hq.distinct, fun hnone => ?_⟩
      have hfields : q.fields = none := hnone
      rw [hfields] at hsome
      exact nomatch hsome
    · exact hq
  unfold Memory.settleNode
  cases hrules : p.rules with
  | none => exact hnumbered hp s
  | some xs =>
      let settled := (Memory.settle (.list p.rulesMark xs)).run s
      have hsettled : ({ p with
          rulesMark := settled.1.listParts.1
          rules := some settled.1.listParts.2 } : Node (Object σ)).Regular := hp.congr rfl rfl
      exact hnumbered hsettled settled.2

end SchemaTree
