import SchemaTree.Proofs.Description
import SchemaTree.Proofs.DocumentKeys
import SchemaTree.Proofs.DocumentSteps
import SchemaTree.Proofs.OwnCopies

/-!
Schemas that are written as documents. A tree of the kind that documents describe is written as one,
and loading the document gives a node that holds the tree, in new nodes at the end of the heap.
-/

namespace SchemaTree

variable {κ : Type}

namespace Tree

def key (t : Tree κ) (name : String) : String :=
  name ++ Document.suffixes t.isArray t.required t.strict

mutual

/-- What stands under the key of a tree: nothing, a list of rules, or a mapping of fields with the
rules of the tree itself before them. -/
def body : Tree κ → Value κ
  | .node _ _ _ _ rules fields =>
    match fields with
    | none =>
      match rules with
      | none => .null
      | some xs => .list .fresh xs
    | some fs =>
      .mapping .fresh ((match rules with
        | none => []
        | some xs => [(.str "=", .list .fresh xs)]) ++ fieldEntries fs)

def fieldEntries : List (String × Tree κ) → Entries κ
  | [] => []
  | (name, t) :: fs => (.str (t.key name), t.body) :: fieldEntries fs

end

theorem body_of_leaf {t : Tree κ} (hfields : t.fields = none) :
    t.body = match t.rules with
      | none => .null
      | some xs => .list .fresh xs := by
  obtain ⟨registry, required, array, strict, rules, fields⟩ := t
  obtain rfl : fields = none := hfields
  rfl

theorem body_of_node {t : Tree κ} {fs : List (String × Tree κ)} (hfields : t.fields = some fs) :
    t.body = .mapping .fresh ((match t.rules with
      | none => []
      | some xs => [(.str "=", .list .fresh xs)]) ++ fieldEntries fs) := by
  obtain ⟨registry, required, array, strict, rules, fields⟩ := t
  obtain rfl : fields = some fs := hfields
  rfl

def document (t : Tree κ) : Value κ := .mapping .fresh [(.str (t.key "schema"), t.body)]

/-- A node of a tree that a document can describe, in the registry `r`. -/
structure Describable (r : RegistryId) (t : Tree κ) : Prop where
  registry : t.registry = r
  array : t.array = none ∨ t.array = some true
  rules : t.rules ≠ some []
  fields : t.fields ≠ some []
  names : ∀ name ∈ t.names, Document.FieldName name
  nodup : t.names.Nodup

theorem fieldEntries_keys (fs : List (String × Tree κ)) :
    (fieldEntries fs).map (·.1) = fs.map fun f => .str (f.2.key f.1) := by
  induction fs with
  | nil => rfl
  | cons f fs ih => rw [fieldEntries, List.map_cons, List.map_cons, ih]

theorem fieldEntries_keys_nodup {fs : List (String × Tree κ)}
    (hnames : ∀ f ∈ fs, Document.FieldName f.1) (hnodup : (fs.map (·.1)).Nodup) :
    ((fieldEntries fs).map (·.1)).Nodup := by
  rw [fieldEntries_keys, List.Nodup, List.pairwise_map]
  refine (List.pairwise_map.mp hnodup).imp_of_mem fun {f g} hf hg hne heq => hne ?_
  exact Document.written_injective (hnames f hf) (hnames g hg) (Value.str.inj heq)

/-- What the key of a tree says of it. -/
def keyOf (t : Tree κ) (name : String) : Document.Key :=
  ⟨name, t.isArray, !t.required, t.strict⟩

/-- The node of a tree before it is given rules and fields. -/
def blank (t : Tree κ) : Node κ where
  registry := t.registry
  required := t.required
  array := t.array
  strict := t.strict

/-- The node of a tree before it is given fields. -/
def bare (t : Tree κ) : Node κ := { t.blank with rules := t.rules }

theorem Describable.node_keyOf {r : RegistryId} {t : Tree κ} (ht : t.Describable r)
    (name : String) : (t.keyOf name).node r = t.blank := by
  rcases ht.array with harray | harray
  · simp [keyOf, Document.Key.node, blank, isArray, harray, ht.registry]
  · simp [keyOf, Document.Key.node, blank, isArray, harray, ht.registry]

end Tree

theorem Heap.holds_of_node {h : Heap κ} {n : NodeId} {t : Tree κ} (hn : n < h.nodes.length)
    {ns : Option (List (String × NodeId))} (hnode : h.node n = { t.bare with fields := ns })
    (hfields : Option.Rel (List.Forall₂ h.HoldsField) ns t.fields) : h.Holds n t := by
  rw [Heap.holds_iff]
  refine ⟨hn, ?_, ?_, ?_, ?_, ?_, ?_⟩
  all_goals rw [hnode]
  all_goals first | rfl | exact hfields

theorem Heap.holds_of_withFields {h : Heap κ} {n : NodeId} {t : Tree κ} (hn : n < h.nodes.length)
    {fs : List (String × Tree κ)} (hfields : t.fields = some fs) (hne : fs ≠ [])
    {ns : List (String × NodeId)} (hall : List.Forall₂ h.HoldsField ns fs)
    (hnode : h.node n = t.bare.withFields ns) : h.Holds n t := by
  have hns : ns ≠ [] := by
    rintro rfl
    cases hall
    exact hne rfl
  rw [Node.withFields_of_ne_nil _ hns] at hnode
  refine Heap.holds_of_node hn hnode ?_
  rw [hfields]
  exact .some hall

/-- What is held in new nodes is still held after a change of an older one. -/
theorem Heap.Holds.of_grownAt {h h₁ h₂ : Heap κ} {n c : NodeId} {t : Tree κ} (hc : h₁.Holds c t)
    (hn : n < h.nodes.length) (hnew : h.nodes.length ≤ c) (h₁grown : h.GrownAt n h₁)
    (h₂grown : h₁.GrownAt n h₂) : h₂.Holds c t := by
  refine hc.of_same h₂grown.grows fun m hm => ?_
  -- only new nodes are reached from a new one, so the node that changes is none of them
  have hle : h.nodes.length ≤ m := hm.mem_of_closed hnew fun k hk f hf => h₁grown.apart k hk f hf
  exact h₂grown.same m (hc.lt_of_reaches hm) (Nat.ne_of_gt (Nat.lt_of_lt_of_le hn hle))

namespace Document

variable [Inspect κ] {r : RegistryId}

/-- The body of the tree fills a node that its key made, in new nodes, and the node holds the tree
then. -/
def FillsWith (r : RegistryId) (t : Tree κ) : Prop :=
  ∀ (h : Heap κ) (c : NodeId), c < h.nodes.length → h.node c = t.blank →
    ∃ h', (fillField r c t.body).run h = (.ok (), h') ∧ h.GrownAt c h' ∧ h'.Holds c t ∧
      ∀ f ∈ (h'.node c).fields.getD [], h.nodes.length ≤ f.2

/-- An entry adds a field that holds its tree, after the fields that are there. -/
theorem run_fill_cons {t : Tree κ} (hfills : FillsWith r t) (ht : t.Describable r) {name : String}
    (hname : FieldName name) {h : Heap κ} {n : NodeId} (hn : n < h.nodes.length)
    (hregistry : (h.node n).registry = r) (hmark : (h.node n).fieldsMark = .fresh)
    (hnew : name ∉ ((h.node n).fields.getD []).map (·.1)) :
    ∃ h' c, (∀ entries, (fill r n ((.str (t.key name), t.body) :: entries)).run h =
        (fill r n entries).run h') ∧ h.GrownAt n h' ∧ h.nodes.length ≤ c ∧
      h'.node n = (h.node n).withField name c ∧ h'.Holds c t := by
  have hkey : Key.field? (t.key name) = some (t.keyOf name) := field?_written hname ..
  have hown : isOwnRules (t.key name) = false := isOwnRules_written hname ..
  obtain ⟨h₁, c, hadd, hgrown₁, hc, hclt, hnode₁, hchild⟩ :=
    run_addField hkey hname.nonempty hn hregistry hmark hnew
  obtain ⟨h₂, hfill, hgrown₂, hholds, hfields⟩ :=
    hfills h₁ c hclt (hchild.trans (ht.node_keyOf name))
  refine ⟨h₂, c, fun entries => ?_, ?_, hc, ?_, hholds⟩
  · rw [fill]
    simp only [hown, Bool.false_eq_true, if_false]
    rw [Build.run_bind_ok hadd, Build.run_bind_ok hfill]
  · exact hgrown₁.trans_new hc hgrown₂ fun f hf => Nat.le_trans hgrown₁.grows (hfields f hf)
  · have hne : n ≠ c := Nat.ne_of_lt (Nat.lt_of_lt_of_le hn hc)
    rw [hgrown₂.same n (Nat.lt_of_lt_of_le hn hgrown₁.grows) hne]
    exact hnode₁

theorem run_fill {fs : List (String × Tree κ)} (hfs : ∀ f ∈ fs, FillsWith r f.2)
    (hdescribable : ∀ f ∈ fs, f.2.Describable r) (hnames : ∀ f ∈ fs, FieldName f.1)
    (hnodup : (fs.map (·.1)).Nodup) {h : Heap κ} {n : NodeId} (hn : n < h.nodes.length)
    (hregistry : (h.node n).registry = r) (hmark : (h.node n).fieldsMark = .fresh)
    (hnew : ∀ f ∈ fs, f.1 ∉ ((h.node n).fields.getD []).map (·.1)) :
    ∃ h' ns, (fill r n (Tree.fieldEntries fs)).run h = (.ok (), h') ∧ h.GrownAt n h' ∧
      h'.node n = (h.node n).withFields ns ∧ List.Forall₂ h'.HoldsField ns fs ∧
      ∀ f ∈ ns, h.nodes.length ≤ f.2 := by
  induction fs generalizing h with
  | nil => exact ⟨h, [], rfl, .refl n h, rfl, .nil, nofun⟩
  | cons f fs ih =>
      obtain ⟨name, t⟩ := f
      rw [List.forall_mem_cons] at hfs hdescribable hnames hnew
      obtain ⟨hfresh, hnodup⟩ := List.nodup_cons.mp hnodup
      obtain ⟨h₁, c, hcons, hgrown₁, hc, hnode₁, hholds⟩ :=
        run_fill_cons hfs.1 hdescribable.1 hnames.1 hn hregistry hmark hnew.1
      -- the names that are left differ from the ones that are there, and from this one
      have hnew₁ : ∀ f ∈ fs, f.1 ∉ ((h₁.node n).fields.getD []).map (·.1) := by
        intro f hf hmem
        rw [hnode₁, Node.withField, Option.getD_some, List.map_append, List.mem_append] at hmem
        rcases hmem with hmem | hmem
        · exact hnew.2 f hf hmem
        · rw [List.map_singleton, List.mem_singleton] at hmem
          exact hfresh (List.mem_map.mpr ⟨f, hf, hmem⟩)
      obtain ⟨h₂, ns, hrun, hgrown₂, hnode₂, hall, hns⟩ :=
        ih hfs.2 hdescribable.2 hnames.2 hnodup (Nat.lt_of_lt_of_le hn hgrown₁.grows)
          (by rw [hnode₁]; exact hregistry) (by rw [hnode₁]; exact hmark) hnew₁
      refine ⟨h₂, (name, c) :: ns, ?_, hgrown₁.trans hn hgrown₂, ?_, ?_, ?_⟩
      · rw [Tree.fieldEntries, hcons]
        exact hrun
      · rw [hnode₂, hnode₁]
        rfl
      · exact .cons ⟨rfl, hholds.of_grownAt hn hc hgrown₁ hgrown₂⟩ hall
      · rw [List.forall_mem_cons]
        exact ⟨hc, fun f hf => Nat.le_trans hgrown₁.grows (hns f hf)⟩

section ownRules

variable {t : Tree κ} {h : Heap κ} {c : NodeId}

theorem run_ownRules (ht : t.Describable r) (hblank : h.node c = t.blank) {xs : List (Value κ)}
    (hrules : t.rules = some xs) :
    (Build.validate c (.list .fresh xs)).run h = (.ok c, h.setNode c t.bare) := by
  have hxs : xs ≠ [] := fun hnil => ht.rules (hnil ▸ hrules)
  rw [Build.run_validate hxs (by rw [hblank]; rfl), hblank, Tree.bare, hrules]
  rfl

omit [Inspect κ] in
theorem setNode_bare_of_none (hblank : h.node c = t.blank) (hrules : t.rules = none) :
    h.setNode c t.bare = h := by
  have hbare : t.bare = h.node c := by
    rw [hblank, Tree.bare, hrules]
    rfl
  rw [hbare, Heap.setNode_node]

theorem run_fillField_leaf (ht : t.Describable r) (hblank : h.node c = t.blank)
    (hfields : t.fields = none) :
    (fillField r c t.body).run h = (.ok (), h.setNode c t.bare) := by
  rw [Tree.body_of_leaf hfields]
  cases hrules : t.rules with
  | none =>
      rw [setNode_bare_of_none hblank hrules, fillField]
      rfl
  | some xs =>
      rw [fillField, Build.run_bind_ok (run_ownRules ht hblank hrules)]
      rfl
      all_goals exact nofun

theorem run_fillField_node (ht : t.Describable r) (hblank : h.node c = t.blank)
    {fs : List (String × Tree κ)} (hfields : t.fields = some fs) :
    (fillField r c t.body).run h = (fill r c (Tree.fieldEntries fs)).run (h.setNode c t.bare) := by
  have hown : isOwnRules "=" = true := by decide
  rw [Tree.body_of_node hfields]
  cases hrules : t.rules with
  | none =>
      rw [setNode_bare_of_none hblank hrules, fillField]
      rfl
  | some xs =>
      rw [fillField, List.singleton_append, fill]
      simp only [hown, if_true]
      rw [Build.run_bind_ok (run_ownRules ht hblank hrules)]

end ownRules

theorem fillsWith_of_describable {t : Tree κ} (ht : t.Each (Tree.Describable r)) :
    FillsWith r t := by
  induction t using Tree.induction_on_fields with
  | step t ih =>
      intro h c hc hblank
      -- whatever the body is, the node has its rules before it gets fields
      obtain ⟨h₁, hh₁⟩ : ∃ h₁, h₁ = h.setNode c t.bare := ⟨_, rfl⟩
      have hgrown₁ : h.GrownAt c h₁ := hh₁ ▸ .setNode h c t.bare
      have hnode₁ : h₁.node c = t.bare := by rw [hh₁, Heap.node_setNode_self hc]
      have hc₁ : c < h₁.nodes.length := Nat.lt_of_lt_of_le hc hgrown₁.grows
      cases hfields : t.fields with
      | none =>
          have hrun := run_fillField_leaf ht.root hblank hfields
          rw [← hh₁] at hrun
          have hnone : Option.Rel (List.Forall₂ h₁.HoldsField) none t.fields := hfields ▸ .none
          refine ⟨h₁, hrun, hgrown₁, Heap.holds_of_node hc₁ hnode₁ hnone, ?_⟩
          rw [hnode₁]
          exact nofun
      | some fs =>
          have hrun := run_fillField_node ht.root hblank hfields
          rw [← hh₁] at hrun
          have hmem : ∀ f ∈ fs, f ∈ t.fieldList := fun f hf => by
            rwa [Tree.fieldList, hfields, Option.getD_some]
          have hnodup := ht.root.nodup
          rw [Tree.names, Tree.fieldList, hfields, Option.getD_some] at hnodup
          obtain ⟨h₂, ns, hfill, hgrown₂, hnode₂, hall, hnew⟩ :=
            run_fill (h := h₁) (n := c) (fun f hf => ih f (hmem f hf) (ht.field (hmem f hf)))
              (fun f hf => (ht.field (hmem f hf)).root)
              (fun f hf => ht.root.names f.1 (List.mem_map_of_mem (hmem f hf))) hnodup hc₁
              (by rw [hnode₁]; exact ht.root.registry) (by rw [hnode₁]; rfl)
              (fun f _ => by rw [hnode₁]; exact List.not_mem_nil)
          rw [hnode₁] at hnode₂
          have hgrown := hgrown₁.trans hc hgrown₂
          refine ⟨h₂, hrun.trans hfill, hgrown, ?_, fun f hf => ?_⟩
          · exact Heap.holds_of_withFields (Nat.lt_of_lt_of_le hc hgrown.grows) hfields
              (fun hnil => ht.root.fields (hnil ▸ hfields)) hall hnode₂
          · rw [hnode₂, Node.fields_withFields] at hf
            exact Nat.le_trans hgrown₁.grows (hnew f hf)

theorem run_toSchema {t : Tree κ} (ht : t.Each (Tree.Describable r)) (h : Heap κ) :
    ∃ n h', (toSchema r t.document).run h = (.ok n, h') ∧ h'.Holds n t := by
  have hkey : Key.root? (t.key "schema") = some (t.keyOf "schema") := root?_written ..
  obtain ⟨h₁, hh₁⟩ : ∃ h₁, h₁ = h.addNode t.blank := ⟨_, rfl⟩
  have hlt : h.nodes.length < h₁.nodes.length := by
    rw [hh₁, Heap.length_addNode]
    exact Nat.lt_succ_self _
  have hblank : h₁.node h.nodes.length = t.blank := by rw [hh₁, Heap.node_addNode]
  obtain ⟨h₂, hfill, -, hholds, -⟩ := fillsWith_of_describable ht h₁ h.nodes.length hlt hblank
  refine ⟨h.nodes.length, h₂, ?_, hholds⟩
  rw [Tree.document, run_toSchema_of_root? hkey, ht.root.node_keyOf, ← hh₁,
    Build.run_bind_ok hfill]
  rfl

end Document

theorem Tree.Describable.keys_nodup {r : RegistryId} {t : Tree κ} (ht : t.Describable r) :
    t.body.keys.Nodup := by
  have hnames := ht.names
  have hnodup := ht.nodup
  obtain ⟨registry, required, array, strict, rules, _ | fs⟩ := t
  · cases rules <;> exact List.nodup_nil
  · have hfields : ((Tree.fieldEntries fs).map (·.1)).Nodup :=
      Tree.fieldEntries_keys_nodup (fun f hf => hnames f.1 (List.mem_map_of_mem hf)) hnodup
    have hown : (.str "=" : Value κ) ∉ (Tree.fieldEntries fs).map (·.1) := by
      rw [Tree.fieldEntries_keys, List.mem_map]
      rintro ⟨f, hf, heq⟩
      have hname : Document.FieldName f.1 := hnames f.1 (List.mem_map_of_mem hf)
      have hread : Document.isOwnRules (f.2.key f.1) = false := Document.isOwnRules_written hname ..
      rw [Value.str.inj heq] at hread
      exact absurd hread (by decide)
    cases rules with
    | none => exact hfields
    | some xs => exact List.nodup_cons.mpr ⟨hown, hfields⟩

/-- A tree that can be described is described by the document that is written of it: its keys
differ, and loading it gives a node whose description says what the tree says. -/
theorem toSchema_written {r : RegistryId} [Inspect κ] {t : Tree κ}
    (ht : t.Each (Tree.Describable r)) (hcopies : t.Each fun u => CopyableRules u.rules)
    (h : Heap κ) :
    (t.Each fun u => u.body.keys.Nodup) ∧
      ∃ n h' d, (Document.toSchema r t.document).run h = (.ok n, h') ∧ h'.Holds n t ∧
        h'.describe n = .ok d ∧ ∀ {ν : Type} (view : κ → ν), Value.KeptByCopies view →
          d.toValue.content view = t.toValue.content view := by
  obtain ⟨n, h', hrun, hholds⟩ := Document.run_toSchema ht h
  have hdescribed := Tree.mapRules_of_copyable hcopies
  refine ⟨ht.mono fun u hu => hu.keys_nodup, n, h', _, hrun, hholds,
    hholds.describe_eq.trans hdescribed, fun view hview => ?_⟩
  exact Tree.content_of_mapRules hview hdescribed

/-- A form that is a strict array, with names and descriptors that look like parts of a key. -/
def OrderFunction.form : Tree OrderFunction :=
  let mail := .node Heap.defaultRegistry true none false (some [.null, .list .fresh []]) none
  let age := .node Heap.defaultRegistry false none false none none
  let pages := .node Heap.defaultRegistry true (some true) false (some [.object .positive])
    (some [("=a]", mail), ("b c.", age)])
  .node Heap.defaultRegistry false (some true) true (some [.bool false]) (some [("] =", pages)])

theorem form_loaded :
    (OrderFunction.form.Each (Tree.Describable Heap.defaultRegistry)) ∧
      ∃ n h' d, (Document.toSchema Heap.defaultRegistry OrderFunction.form.document).run
          Heap.initial = (.ok n, h') ∧ h'.describe n = .ok d ∧
        d.toValue.content id = OrderFunction.form.toValue.content id := by
  have hnames : Document.FieldName "] =" ∧ Document.FieldName "=a]" ∧ Document.FieldName "b c." :=
    ⟨⟨by simp, by simp, by simp⟩, ⟨by simp, by simp, by simp⟩, ⟨by simp, by simp, by simp⟩⟩
  have hdescribable : OrderFunction.form.Each (Tree.Describable Heap.defaultRegistry) := by
    refine ⟨⟨rfl, .inr rfl, nofun, nofun, ?_, by decide⟩, ?_⟩
    · exact List.forall_mem_singleton.mpr hnames.1
    refine List.forall_mem_singleton.mpr ⟨⟨rfl, .inr rfl, nofun, nofun, ?_, by decide⟩, ?_⟩
    · exact List.forall_mem_cons.mpr ⟨hnames.2.1, List.forall_mem_singleton.mpr hnames.2.2⟩
    refine List.forall_mem_cons.mpr ⟨?_, List.forall_mem_singleton.mpr ?_⟩
    · exact ⟨⟨rfl, .inl rfl, nofun, nofun, nofun, by decide⟩, nofun⟩
    · exact ⟨⟨rfl, .inl rfl, nofun, nofun, nofun, by decide⟩, nofun⟩
  obtain ⟨-, n, h', d, hrun, -, hdescribed, hcontent⟩ := toSchema_written hdescribable
    (Tree.each_of_forall (fun u => Value.exists_deepCopyAll (fun o => ⟨o, rfl⟩) _) _) Heap.initial
  exact ⟨hdescribable, n, h', d, hrun, hdescribed,
    hcontent id (Value.keptByCopies_of_ownCopies id)⟩

end SchemaTree
