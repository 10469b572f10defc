import SchemaTree.Proofs.FieldRecords
import SchemaTree.Proofs.ReachedNodes

/-!
Fields that are copied from one node onto another. Each copy is put under the target before the next
one is made, so a field that has the target somewhere below it is copied with the fields that the
target has by then. Other nodes than the target are left as they are, and the copies are made of new
nodes.
-/

namespace SchemaTree

variable {κ : Type}

namespace Heap

/-- The heap with a tree planted in it and put under a node as a field. -/
def withCopy (h : Heap κ) (n : NodeId) (name : String) (t : Tree κ) : Heap κ :=
  (h.extend (t.layout h.nodes.length)).addField n name (h.nodes.length + t.descendants)

section withCopy

variable {h : Heap κ} {n : NodeId} (hn : n < h.nodes.length)
  (hheld : (h.node n).fieldsMark = .fresh) (name : String) (t : Tree κ)

include hn hheld

theorem withCopy_eq : h.withCopy n name t = (h.extend (t.layout h.nodes.length)).setNode n
    ((h.node n).withFields [(name, h.nodes.length + t.descendants)]) := by
  have hnode := node_extend hn (t.layout h.nodes.length)
  rw [withCopy, addField_of_fresh (by rw [hnode]; exact hheld), hnode]
  rfl

theorem length_withCopy :
    (h.withCopy n name t).nodes.length = h.nodes.length + t.descendants + 1 := by
  rw [withCopy_eq hn hheld, length_setNode, nodes_extend, List.length_append, Tree.length_layout,
    Nat.add_assoc]

theorem node_withCopy_self : (h.withCopy n name t).node n =
    (h.node n).withFields [(name, h.nodes.length + t.descendants)] := by
  have hlt : n < (h.extend (t.layout h.nodes.length)).nodes.length := by
    rw [nodes_extend, List.length_append]
    exact Nat.lt_add_right _ hn
  rw [withCopy_eq hn hheld, node_setNode_self hlt]

theorem registries_withCopy : (h.withCopy n name t).registries = h.registries := by
  rw [withCopy_eq hn hheld]
  rfl

theorem sameBut_withCopy : SameBut n h (h.withCopy n name t) where
  grows := by
    rw [length_withCopy hn hheld]
    omega
  same k hk hne := by rw [withCopy_eq hn hheld, node_setNode_of_ne _ _ hne.symm, node_extend hk]

theorem fieldsMark_withCopy : ((h.withCopy n name t).node n).fieldsMark = .fresh := by
  rw [node_withCopy_self hn hheld]
  exact hheld

/-- The new field is the tree, of new nodes only. -/
theorem holds_withCopy : (h.withCopy n name t).Holds (h.nodes.length + t.descendants) t ∧
    ∀ k, (h.withCopy n name t).Reaches (h.nodes.length + t.descendants) k →
      h.nodes.length ≤ k ∧ k ≤ h.nodes.length + t.descendants := by
  have hplanted : (h.extend (t.layout h.nodes.length)).Holds (h.nodes.length + t.descendants) t :=
    Tree.holds_of_layout t (List.append_nil _).symm
  have hbetween {k : NodeId} (hk : (h.extend (t.layout h.nodes.length)).Reaches
      (h.nodes.length + t.descendants) k) :=
    Tree.between_of_reaches_planted (Nat.le_add_right ..) hk
  have hsame (k : NodeId) (hk : (h.extend (t.layout h.nodes.length)).Reaches
      (h.nodes.length + t.descendants) k) :
      (h.withCopy n name t).node k = (h.extend (t.layout h.nodes.length)).node k := by
    have hne : n ≠ k := Nat.ne_of_lt (Nat.lt_of_lt_of_le hn (hbetween hk).1)
    rw [withCopy_eq hn hheld, node_setNode_of_ne _ _ hne]
  refine ⟨hplanted.of_same ?_ hsame, fun k hk => hbetween (hk.of_same hsame)⟩
  rw [withCopy_eq hn hheld]
  exact Nat.le_of_eq (length_setNode ..).symm

end withCopy

variable [Inspect κ]

/-- Fields are copied onto a node one after the other, each with the tree that it has when its turn
comes. -/
inductive Copies (n : NodeId) :
    Heap κ → List (String × NodeId) → List (String × Tree κ) → Heap κ → Prop
  | nil (h : Heap κ) : Copies n h [] [] h
  | cons {h h' : Heap κ} {f : String × NodeId} {fs : List (String × NodeId)} {t : Tree κ}
      {ts : List (String × Tree κ)} (ht : h.copyTree f.2 = .ok t)
      (rest : Copies n (h.withCopy n f.1 t) fs ts h') :
    Copies n h (f :: fs) ((f.1, t) :: ts) h'

/-- What copying leaves of a heap: the target has new fields with the given trees, which have no
node in common, and no other node is changed. -/
structure Received (n : NodeId) (h : Heap κ) (ts : List (String × Tree κ))
    (fields : List (String × NodeId)) (h' : Heap κ) : Prop extends SameBut n h h' where
  registries : h'.registries = h.registries
  node : h'.node n = (h.node n).withFields fields
  trees : List.Forall₂ h'.HoldsField fields ts
  new : ∀ c ∈ fields, ∀ k, h'.Reaches c.2 k → h.nodes.length ≤ k
  apart : fields.Pairwise fun c d => ∀ k, h'.Reaches c.2 k → ¬ h'.Reaches d.2 k

omit [Inspect κ] in
/-- Copying changes nothing of a node but its fields. -/
theorem Received.node_eq {n : NodeId} {h h' : Heap κ} {trees : List (String × Tree κ)}
    {fields : List (String × NodeId)} (hreceived : h.Received n trees fields h') {k : NodeId}
    (hk : k < h.nodes.length) :
    h'.node k = { h.node k with fields := (h'.node k).fields } := by
  by_cases hkn : k = n
  · rw [hkn, hreceived.node]
    exact Node.withFields_eq _ _
  · rw [hreceived.same k hk hkn]

/-- What is left to copy: rules only, or a field. -/
inductive StopsAt (h : Heap κ) (m : NodeId) (f : Fault κ) : List (String × NodeId) → Prop
  | rules (hf : copyRules (h.node m).rules = .error f) : StopsAt h m f []
  | field {g : String × NodeId} {rest : List (String × NodeId)}
      (hf : h.copyTree g.2 = .error f) : StopsAt h m f (g :: rest)

namespace Copies

variable {n : NodeId} {h h' : Heap κ} {fs : List (String × NodeId)} {ts : List (String × Tree κ)}

theorem names (hcopies : Copies n h fs ts h') : ts.map (·.1) = fs.map (·.1) := by
  induction hcopies with
  | nil h => rfl
  | cons _ _ ih => rw [List.map_cons, List.map_cons, ih]

theorem received (hcopies : Copies n h fs ts h') (hn : n < h.nodes.length)
    (hheld : (h.node n).fieldsMark = .fresh) : ∃ fields, Received n h ts fields h' := by
  induction hcopies with
  | nil h => exact ⟨[], .refl n h, rfl, rfl, .nil, nofun, .nil⟩
  | @cons h h' f fs t ts ht rest ih =>
      have hstep := sameBut_withCopy hn hheld f.1 t
      obtain ⟨hholds, hbetween⟩ := holds_withCopy hn hheld f.1 t
      obtain ⟨fields, hrest⟩ := ih (Nat.lt_of_lt_of_le hn hstep.grows)
        (fieldsMark_withCopy hn hheld f.1 t)
      -- the copy stands below everything that comes later, and apart from the target
      have hsame (k : NodeId)
          (hk : (h.withCopy n f.1 t).Reaches (h.nodes.length + t.descendants) k) :
          h'.node k = (h.withCopy n f.1 t).node k := by
        obtain ⟨hle, hlt⟩ := hbetween k hk
        refine hrest.same k ?_ (Nat.ne_of_gt (Nat.lt_of_lt_of_le hn hle))
        rw [length_withCopy hn hheld]
        exact Nat.lt_succ_of_le hlt
      have hfirst {k : NodeId} (hk : h'.Reaches (h.nodes.length + t.descendants) k) :=
        hbetween k (hk.of_same hsame)
      refine ⟨(f.1, h.nodes.length + t.descendants) :: fields, ?_⟩
      exact {
        toSameBut := hstep.trans hrest.toSameBut
        registries := by rw [hrest.registries, registries_withCopy hn hheld]
        node := by
          rw [hrest.node, node_withCopy_self hn hheld, Node.withFields_withFields]
          rfl
        trees := .cons ⟨rfl, hholds.of_same hrest.grows hsame⟩ hrest.trees
        new := by
          intro c hc k hk
          rcases List.mem_cons.mp hc with rfl | hc
          · exact (hfirst hk).1
          · exact Nat.le_trans hstep.grows (hrest.new c hc k hk)
        apart := by
          refine List.pairwise_cons.mpr ⟨fun d hd k hk hk' => ?_, hrest.apart⟩
          have hlater := hrest.new d hd k hk'
          rw [length_withCopy hn hheld] at hlater
          exact Nat.not_le_of_lt hlater (hfirst hk).2 }

end Copies

end Heap

variable [Inspect κ]

/-- A source is the node `m`, given itself or by a name of the registry. -/
def Source.Refers (h : Heap κ) (r : RegistryId) (m : NodeId) : Source κ → Prop
  | .node k => k = m
  | .named name => (h.registry r).find? name = some m
  | .plan _ | .mismatched | .unfit _ => False

/-- What an operation that defines fields does to the target after that. -/
def Operation.finish (n : NodeId) (h : Heap κ) : Operation κ → Heap κ
  | .arrayOf _ => h.setNode n { h.node n with array := some true }
  | _ => h

namespace Build

open Heap

/-- Fields of other names than the target has are copied one after the other, until one of them
cannot be copied. -/
theorem run_attachCopies_cases {h : Heap κ} {n : NodeId} (hn : n < h.nodes.length)
    (hheld : (h.node n).fieldsMark = .fresh) {fs : List (String × NodeId)}
    (hnames : (((h.node n).fields.getD []).map (·.1) ++ fs.map (·.1)).Nodup) :
    (∃ ts h', Copies n h fs ts h' ∧ (attachCopies n fs).run h = (.ok (), h')) ∨
      ∃ done g rest ts f h', fs = done ++ g :: rest ∧ Copies n h done ts h' ∧
        h'.copyTree g.2 = .error f ∧ (attachCopies n fs).run h = (.error f, h') := by
  induction fs generalizing h with
  | nil => exact .inl ⟨[], h, .nil h, rfl⟩
  | cons g fs ih =>
      cases ht : h.copyTree g.2 with
      | error f =>
          refine .inr ⟨[], g, fs, [], f, h, rfl, .nil h, ht, ?_⟩
          rw [attachCopies, run_bind, run_clone_of_error ht]
      | ok t =>
          have hself := node_withCopy_self hn hheld g.1 t
          have hfree : g.1 ∉ (((h.extend (t.layout h.nodes.length)).node n).fields.getD []).map
              (·.1) := by
            rw [node_extend hn]
            intro hmem
            exact (List.nodup_append.mp hnames).2.2 g.1 hmem g.1 (by simp) rfl
          have hnext : (attachCopies n (g :: fs)).run h =
              (attachCopies n fs).run (h.withCopy n g.1 t) := by
            rw [attachCopies, run_bind_ok (run_clone_of_ok ht), run_bind_ok (run_attach hfree)]
            rfl
          have hnames' : ((((h.withCopy n g.1 t).node n).fields.getD []).map (·.1) ++
              fs.map (·.1)).Nodup := by
            rw [hself, Node.fields_withFields, List.map_append, List.append_assoc]
            exact hnames
          rcases ih (Nat.lt_of_lt_of_le hn (sameBut_withCopy hn hheld g.1 t).grows)
            (fieldsMark_withCopy hn hheld g.1 t) hnames' with
            ⟨ts, h', hcopies, hrun⟩ | ⟨done, g', rest, ts, f, h', rfl, hcopies, hf, hrun⟩
          · exact .inl ⟨_, h', .cons ht hcopies, hnext.trans hrun⟩
          · exact .inr ⟨g :: done, g', rest, _, f, h', rfl, .cons ht hcopies, hf, hnext.trans hrun⟩

theorem run_similar_cases {h : Heap κ} {n m : NodeId} (hn : n < h.nodes.length)
    (hnone : (h.node n).fields = none) (hheld : (h.node n).fieldsMark = .fresh)
    (hnames : (((h.node m).fields.getD []).map (·.1)).Nodup) :
    (∃ ts rules mark h', Copies n h ((h.node m).fields.getD []) ts h' ∧
      copyRules (h'.node m).rules = .ok rules ∧
      (similar n m).run h = (.ok n, h'.setNode n { h'.node n with
        rules := rules.or (h'.node n).rules
        rulesMark := mark
        required := (h'.node m).required })) ∨
      ∃ done rest ts f h', (h.node m).fields.getD [] = done ++ rest ∧ Copies n h done ts h' ∧
        StopsAt h' m f rest ∧ (similar n m).run h = (.error f, h') := by
  have hfields : (((h.node n).fields.getD []).map (·.1) ++
      ((h.node m).fields.getD []).map (·.1)).Nodup := by
    rw [hnone]
    exact hnames
  rw [similar, run_bind_ok (run_node h m)]
  rcases run_attachCopies_cases hn hheld hfields with
    ⟨ts, h', hcopies, hrun⟩ | ⟨done, g, rest, ts, f, h', hfs, hcopies, hf, hrun⟩
  · rw [run_bind_ok hrun, run_bind_ok (run_node h' m)]
    cases hrules : copyRules (h'.node m).rules with
    | error f =>
        exact .inr ⟨_, [], ts, f, h', (List.append_nil _).symm, hcopies, .rules hrules, rfl⟩
    | ok rules =>
        cases rules with
        | some xs => exact .inl ⟨ts, some xs, .fresh, h', hcopies, hrules, rfl⟩
        | none => exact .inl ⟨ts, none, (h'.node n).rulesMark, h', hcopies, hrules, rfl⟩
  · exact .inr ⟨done, g :: rest, ts, f, h', hfs, hcopies, .field hf, by rw [run_bind, hrun]⟩

omit [Inspect κ] in
theorem run_undefinedOnly {h : Heap κ} {n : NodeId} (hnone : (h.node n).fields = none) :
    (undefinedOnly n).run h = (.ok (), h) := by
  rw [undefinedOnly, run_bind_ok (run_node h n), hnone]
  rfl

omit [Inspect κ] in
theorem run_resolve {h : Heap κ} {r : RegistryId} {name : String} {m : NodeId}
    (hfind : (h.registry r).find? name = some m) : (resolve r name).run h = (.ok m, h) := by
  rw [resolve, run_bind_ok (run_registry h r)]
  simp only [hfind]
  rfl

theorem run_define {h : Heap κ} {n m : NodeId} (hnone : (h.node n).fields = none)
    {source : Source κ} (hsource : source.Refers h (h.node n).registry m) :
    (source.define n).run h = (similar n m).run h := by
  cases source with
  | node k =>
      obtain rfl : k = m := hsource
      rw [Source.define, run_bind_ok (run_undefinedOnly hnone)]
  | named name =>
      rw [Source.define, run_bind_ok (run_undefinedOnly hnone),
        run_bind_ok (run_node h n), run_bind_ok (run_resolve hsource)]
  | _ => exact hsource.elim

section defining

variable {h h' : Heap κ} {n m : NodeId} (hnone : (h.node n).fields = none) {source : Source κ}
  (hsource : source.Refers h (h.node n).registry m) {op : Operation κ}
  (hop : op = .object source ∨ op = .arrayOf source)

include hnone hsource hop

theorem run_defining_of_ok (hrun : (similar n m).run h = (.ok n, h')) :
    (op.run n).run h = (.ok n, op.finish n h') := by
  rcases hop with rfl | rfl
  · rw [Operation.run, run_define hnone hsource, hrun]
    rfl
  · rw [Operation.run, run_bind, run_define hnone hsource, hrun]
    rfl

theorem run_defining_of_error {f : Fault κ} (hrun : (similar n m).run h = (.error f, h')) :
    (op.run n).run h = (.error f, h') := by
  rcases hop with rfl | rfl
  · rw [Operation.run, run_define hnone hsource, hrun]
  · rw [Operation.run, run_bind, run_define hnone hsource, hrun]

end defining

end Build

end SchemaTree
