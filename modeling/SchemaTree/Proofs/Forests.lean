import SchemaTree.Proofs.BuildSteps
import SchemaTree.Proofs.ReachedNodes

/-!
Forests of nodes: every node is held once at most, and none is inside itself. A tree that is planted
behind a forest leaves it one, and so does a field for a node exactly if nothing holds that node yet
and it does not reach the one that is to hold it.
-/

namespace SchemaTree

variable {κ : Type}

def Node.children (p : Node κ) : List NodeId := (p.fields.getD []).map (·.2)

namespace Heap

/-- The nodes that fields hold, each as often as a field holds it. -/
def held (h : Heap κ) : List NodeId := h.nodes.flatMap Node.children

namespace Reaches

variable {h h' : Heap κ} {a b c n : NodeId}

theorem child (ha : h.Reaches a b) (hc : c ∈ (h.node b).children) : h.Reaches a c := by
  obtain ⟨f, hf, rfl⟩ := List.mem_map.mp hc
  exact ha.field hf

theorem trans (hab : h.Reaches a b) (hbc : h.Reaches b c) : h.Reaches a c := by
  induction hbc with
  | refl => exact hab
  | field _ hf ih => exact ih.field hf

theorem mono (hchildren : ∀ m, (h.node m).children ⊆ (h'.node m).children)
    (hb : h.Reaches a b) : h'.Reaches a b := by
  induction hb with
  | refl => exact .refl
  | field _ hf ih => exact ih.child (hchildren _ (List.mem_map_of_mem hf))

/-- Where one node has one more child, whatever is reached is reached without it or through it. -/
theorem of_new_child
    (hchildren : ∀ m, ∀ d ∈ (h'.node m).children, d ∈ (h.node m).children ∨ m = n ∧ d = c)
    (hb : h'.Reaches a b) : h.Reaches a b ∨ h.Reaches a n ∧ h.Reaches c b := by
  induction hb with
  | refl => exact .inl .refl
  | @field m f _ hf ih =>
      rcases hchildren m f.2 (List.mem_map_of_mem hf) with hold | ⟨rfl, hnew⟩
      · rcases ih with ha | ⟨ha, hc⟩
        · exact .inl (ha.child hold)
        · exact .inr ⟨ha, hc.child hold⟩
      · rw [hnew]
        rcases ih with ha | ⟨ha, -⟩
        · exact .inr ⟨ha, .refl⟩
        · exact .inr ⟨ha, .refl⟩

end Reaches

theorem exists_split {h : Heap κ} {n : NodeId} (hn : n < h.nodes.length) :
    ∃ front back, h.nodes = front ++ h.node n :: back ∧
      ∀ q, (h.setNode n q).nodes = front ++ q :: back := by
  refine ⟨h.nodes.take n, h.nodes.drop (n + 1), ?_, fun q => ?_⟩
  · simp [node, hn]
  · simp [setNode, List.set_eq_take_append_cons_drop, hn]

theorem mem_held {h : Heap κ} {c : NodeId} : c ∈ h.held ↔ ∃ n, c ∈ (h.node n).children := by
  rw [held, List.mem_flatMap]
  constructor
  · rintro ⟨p, hp, hc⟩
    obtain ⟨n, hn, rfl⟩ := List.mem_iff_getElem.mp hp
    exact ⟨n, by simpa [node, hn] using hc⟩
  · rintro ⟨n, hc⟩
    have hn : n < h.nodes.length := by
      by_contra hle
      rw [node_of_le (Nat.not_lt.mp hle)] at hc
      cases hc
    exact ⟨_, node_mem hn, hc⟩

theorem held_extend (h : Heap κ) (nodes : List (Node κ)) :
    (h.extend nodes).held = h.held ++ nodes.flatMap Node.children := List.flatMap_append

theorem held_setNode (h : Heap κ) (n : NodeId) {q : Node κ}
    (hq : q.children = (h.node n).children) : (h.setNode n q).held = h.held := by
  by_cases hn : n < h.nodes.length
  · obtain ⟨front, back, hnodes, hset⟩ := exists_split hn
    rw [held, held, hset, hnodes, List.flatMap_append, List.flatMap_append, List.flatMap_cons,
      List.flatMap_cons, hq]
  · rw [setNode, List.set_eq_of_length_le (Nat.not_lt.mp hn)]

theorem held_setNode_new_child {h : Heap κ} {n c : NodeId} (hn : n < h.nodes.length) {q : Node κ}
    (hq : q.children = (h.node n).children ++ [c]) :
    (h.setNode n q).held.Perm (c :: h.held) := by
  obtain ⟨front, back, hnodes, hset⟩ := exists_split hn
  rw [held, held, hset, hnodes, List.flatMap_append, List.flatMap_append, List.flatMap_cons,
    List.flatMap_cons, hq, ← List.append_assoc, ← List.append_assoc, ← List.append_assoc]
  exact (List.perm_append_singleton c _).append_right _

end Heap

namespace Tree

theorem perm_children_layoutAll {fs : List (String × Tree κ)}
    (hfs : ∀ g ∈ fs, ∀ a, ((g.2.layout a).flatMap Node.children).Perm
      (List.range' a g.2.descendants)) (a : Nat) :
    ((layoutAll fs a).flatMap Node.children ++ (fieldsAt fs a).map (·.2)).Perm
      (List.range' a (descendantsAll fs)) := by
  induction fs generalizing a with
  | nil => exact .nil
  | cons g fs ih =>
      obtain ⟨name, t⟩ := g
      have hrest := ih (fun g hg => hfs g (by simp [hg])) (a + t.descendants + 1)
      have hrange : List.range' a (descendantsAll ((name, t) :: fs)) =
          List.range' a t.descendants ++
            (a + t.descendants) :: List.range' (a + t.descendants + 1) (descendantsAll fs) := by
        rw [descendantsAll, Nat.add_assoc, Nat.add_comm 1, ← List.range'_append_1, List.range'_succ]
      rw [layoutAll, List.flatMap_append, fieldsAt, List.map_cons, hrange]
      refine (List.perm_middle.trans ?_).trans List.perm_middle.symm
      rw [List.append_assoc]
      exact ((hfs (name, t) (by simp) a).append hrest).cons _

theorem perm_children_layout (t : Tree κ) (a : Nat) :
    ((t.layout a).flatMap Node.children).Perm (List.range' a t.descendants) := by
  induction t using induction_on_fields generalizing a with
  | step t ih =>
      have hroot : (t.rootAt a).children = (fieldsAt t.fieldList a).map (·.2) := by
        rw [Node.children, fields_rootAt]
      rw [layout_eq, List.flatMap_append, List.flatMap_singleton, hroot, descendants_eq]
      exact perm_children_layoutAll ih a

end Tree

namespace Heap

/-- No two nodes share anything, fields hold nodes that are there, each of them once, and no node is
reached from its own fields. -/
structure Forest (h : Heap κ) : Prop where
  unshared : h.Unshared
  there : ∀ c ∈ h.held, c < h.nodes.length
  once : h.held.Nodup
  acyclic : ∀ n, ∀ c ∈ (h.node n).children, ¬ h.Reaches c n

namespace Forest

variable {h h' : Heap κ} (hh : h.Forest)

include hh

theorem lt_of_child {n c : NodeId} (hc : c ∈ (h.node n).children) : c < h.nodes.length :=
  hh.there c (mem_held.mpr ⟨n, hc⟩)

theorem lt_of_reaches {n m : NodeId} (hn : n < h.nodes.length) (hm : h.Reaches n m) :
    m < h.nodes.length :=
  hm.mem_of_closed (P := (· < h.nodes.length)) hn fun _ _ _ hf =>
    hh.lt_of_child (List.mem_map_of_mem hf)

theorem of_children (hunshared : h'.Unshared) (hlength : h'.nodes.length = h.nodes.length)
    (hheld : h'.held = h.held) (hchildren : ∀ n, (h'.node n).children = (h.node n).children) :
    h'.Forest where
  unshared := hunshared
  there c hc := by
    rw [hlength]
    exact hh.there c (hheld ▸ hc)
  once := hheld ▸ hh.once
  acyclic n c hc hreach := by
    rw [hchildren] at hc
    exact hh.acyclic n c hc (hreach.mono fun m d hd => hchildren m ▸ hd)

theorem setNode (n : NodeId) {q : Node κ} (hq : q.children = (h.node n).children)
    (hmarks : q.rulesMark = .fresh ∧ q.fieldsMark = .fresh) : (h.setNode n q).Forest := by
  refine hh.of_children (hh.unshared.setNode n hmarks) (length_setNode h n q)
    (held_setNode h n hq) fun m => ?_
  rcases node_setNode_cases h n m q with hm | ⟨rfl, hm⟩
  · rw [hm]
  · rw [hm, hq]

theorem plant (t : Tree κ) : (h.extend (t.layout h.nodes.length)).Forest := by
  have hheld := held_extend h (t.layout h.nodes.length)
  have hperm := t.perm_children_layout h.nodes.length
  have hnew {c : NodeId} (hc : c ∈ (t.layout h.nodes.length).flatMap Node.children) :
      h.nodes.length ≤ c ∧ c < h.nodes.length + t.descendants :=
    List.mem_range'_1.mp (hperm.mem_iff.mp hc)
  refine ⟨hh.unshared.extend fun p hp => Tree.marks_of_layout hp, fun c hc => ?_, ?_,
    fun n c hc hreach => ?_⟩
  · rw [nodes_extend, List.length_append, Tree.length_layout]
    rw [hheld] at hc
    rcases List.mem_append.mp hc with hc | hc
    · exact Nat.lt_of_lt_of_le (hh.there c hc) (Nat.le_add_right ..)
    · exact Nat.lt_of_lt_of_le (hnew hc).2 (by omega)
  · rw [hheld]
    refine List.nodup_append.mpr ⟨hh.once, hperm.nodup_iff.mpr List.nodup_range', ?_⟩
    rintro c hold d hd rfl
    exact Nat.lt_irrefl _ (Nat.lt_of_lt_of_le (hh.there c hold) (hnew hd).1)
  · rcases node_extend_cases h (t.layout h.nodes.length) n with hn | ⟨hle, hn⟩
    · -- an old node reaches what it reached before
      rw [hn] at hc
      have hlt := hh.lt_of_child hc
      exact hh.acyclic n c hc (hreach.of_same fun k hk =>
        node_extend (hh.lt_of_reaches hlt hk) _)
    · -- a new node is behind those below it
      obtain ⟨f, hf, rfl⟩ := List.mem_map.mp hc
      obtain ⟨hnewf, hbefore⟩ := Tree.between_of_planted hle hf
      have hbelow := (Tree.between_of_reaches_planted hnewf hreach).2
      exact Nat.lt_irrefl _ (Nat.lt_of_lt_of_le hbefore hbelow)

/-- A node gets one more field. The forest stays one exactly if no field holds the child yet, and
the child does not reach the node. -/
theorem addField_iff {n c : NodeId} (hn : n < h.nodes.length) (hc : c < h.nodes.length)
    (name : String) : (h.addField n name c).Forest ↔ c ∉ h.held ∧ ¬ h.Reaches c n := by
  rw [addField_of_fresh (hh.unshared.node n).2]
  obtain ⟨q, hq⟩ : ∃ q, q = { h.node n with
      fields := some ((h.node n).fields.getD [] ++ [(name, c)]) } := ⟨_, rfl⟩
  have hchildren : q.children = (h.node n).children ++ [c] := by
    rw [hq, Node.children, Option.getD_some, List.map_append]
    rfl
  rw [← hq]
  have hset : (h.setNode n q).node n = q := by simp [node, Heap.setNode, hn]
  have hperm : (h.setNode n q).held.Perm (c :: h.held) := held_setNode_new_child hn hchildren
  constructor
  · intro hforest
    refine ⟨(List.nodup_cons.mp (hperm.nodup_iff.mp hforest.once)).1, fun hreach => ?_⟩
    refine hforest.acyclic n c (by rw [hset, hchildren]; simp) (hreach.mono fun m d hd => ?_)
    rcases node_setNode_cases h n m q with hm | ⟨rfl, hm⟩
    · rwa [hm]
    · rw [hm, hchildren]
      exact List.mem_append_left _ hd
  · rintro ⟨hfree, hapart⟩
    have hedges (m : NodeId) (d : NodeId) (hd : d ∈ ((h.setNode n q).node m).children) :
        d ∈ (h.node m).children ∨ m = n ∧ d = c := by
      rcases node_setNode_cases h n m q with hm | ⟨rfl, hm⟩
      · exact .inl (hm ▸ hd)
      · rw [hm, hchildren] at hd
        exact (List.mem_append.mp hd).imp id fun hd => ⟨rfl, List.mem_singleton.mp hd⟩
    refine ⟨hh.unshared.setNode n (hq ▸ hh.unshared.node n), fun d hd => ?_,
      hperm.nodup_iff.mpr (List.nodup_cons.mpr ⟨hfree, hh.once⟩), fun m d hd hreach => ?_⟩
    · rw [length_setNode]
      rcases List.mem_cons.mp (hperm.mem_iff.mp hd) with rfl | hd
      · exact hc
      · exact hh.there d hd
    · have hold := Reaches.of_new_child hedges hreach
      rcases hedges m d hd with hd | ⟨rfl, rfl⟩
      · -- a way back goes through the new field, so the child reaches the node
        rcases hold with hback | ⟨hto, hfrom⟩
        · exact hh.acyclic m d hd hback
        · exact hapart ((hfrom.child hd).trans hto)
      · rcases hold with hback | ⟨hback, -⟩
        · exact hapart hback
        · exact hapart hback

theorem plant_addField {n : NodeId} (hn : n < h.nodes.length) (t : Tree κ) (name : String) :
    ((h.extend (t.layout h.nodes.length)).addField n name
      (h.nodes.length + t.descendants)).Forest := by
  have hlength : (h.extend (t.layout h.nodes.length)).nodes.length =
      h.nodes.length + (t.descendants + 1) := by
    rw [nodes_extend, List.length_append, Tree.length_layout]
  refine ((hh.plant t).addField_iff ?_ ?_ name).mpr ⟨fun hheld => ?_, fun hreach => ?_⟩
  · rw [hlength]
    exact Nat.lt_add_right _ hn
  · rw [hlength]
    exact Nat.add_lt_add_left (Nat.lt_succ_self _) _
  · rw [held_extend] at hheld
    rcases List.mem_append.mp hheld with hold | hnew
    · exact Nat.not_lt.mpr (Nat.le_add_right ..) (hh.there _ hold)
    · have hrange := (t.perm_children_layout h.nodes.length).mem_iff.mp hnew
      exact Nat.lt_irrefl _ (List.mem_range'_1.mp hrange).2
  · exact Nat.not_lt.mpr (Tree.between_of_reaches_planted (Nat.le_add_right ..) hreach).1 hn

omit hh in
theorem initial : (Heap.initial : Heap κ).Forest where
  unshared := nofun
  there := nofun
  once := List.nodup_nil
  acyclic n c hc := by
    rw [node_of_le (Nat.zero_le n)] at hc
    exact nomatch hc

end Forest

end Heap

end SchemaTree
