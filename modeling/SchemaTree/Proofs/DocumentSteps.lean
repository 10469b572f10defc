import SchemaTree.Document
import SchemaTree.Proofs.BuildSteps

/-!
What one entry of a document does to a heap. A key makes a field of its own, in nodes that have
nothing but what the key says, and rules are added to the node alone; what was there before stays,
apart from the node that is filled.
-/

namespace SchemaTree

variable {κ : Type}

namespace Heap

theorem length_addNode (h : Heap κ) (p : Node κ) :
    (h.addNode p).nodes.length = h.nodes.length + 1 := by
  simp [addNode]

theorem node_addNode (h : Heap κ) (p : Node κ) : (h.addNode p).node h.nodes.length = p := by
  simp [node, addNode]

theorem setNode_addNode (h : Heap κ) (p q : Node κ) :
    (h.addNode p).setNode h.nodes.length q = h.addNode q := by
  simp [addNode, setNode]

theorem node_addNode_of_lt {h : Heap κ} {n : NodeId} (hn : n < h.nodes.length) (p : Node κ) :
    (h.addNode p).node n = h.node n :=
  node_extend hn [p]

/-- The second heap is the first one with the node `n` changed and with new nodes, whose fields are
new too. -/
structure GrownAt (n : NodeId) (before after : Heap κ) : Prop where
  grows : before.nodes.length ≤ after.nodes.length
  same : ∀ m, m < before.nodes.length → m ≠ n → after.node m = before.node m
  apart : ∀ m, before.nodes.length ≤ m → ∀ f ∈ (after.node m).fields.getD [],
    before.nodes.length ≤ f.2

namespace GrownAt

variable {n c : NodeId} {h h' h'' : Heap κ}

theorem refl (n : NodeId) (h : Heap κ) : GrownAt n h h where
  grows := Nat.le_refl _
  same _ _ _ := rfl
  apart m hm f hf := by
    rw [node_of_le hm] at hf
    exact nomatch hf

theorem setNode (h : Heap κ) (n : NodeId) (p : Node κ) : GrownAt n h (h.setNode n p) where
  grows := Nat.le_of_eq (length_setNode h n p).symm
  same m _ hne := node_setNode_of_ne h p hne.symm
  apart m hm f hf := by
    rw [node_of_le (by rwa [length_setNode])] at hf
    exact nomatch hf

theorem addNode (n : NodeId) (h : Heap κ) {p : Node κ} (hp : p.fields = none) :
    GrownAt n h (h.addNode p) where
  grows := by
    rw [length_addNode]
    exact Nat.le_succ _
  same m hm _ := node_addNode_of_lt hm p
  apart m hm f hf := by
    rcases Nat.eq_or_lt_of_le hm with rfl | hlt
    · rw [node_addNode, hp] at hf
      exact nomatch hf
    · rw [node_of_le (by rwa [length_addNode])] at hf
      exact nomatch hf

theorem trans (hn : n < h.nodes.length) (h₁ : GrownAt n h h') (h₂ : GrownAt n h' h'') :
    GrownAt n h h'' where
  grows := Nat.le_trans h₁.grows h₂.grows
  same m hm hne := by
    rw [h₂.same m (Nat.lt_of_lt_of_le hm h₁.grows) hne, h₁.same m hm hne]
  apart m hm f hf := by
    rcases Nat.lt_or_ge m h'.nodes.length with hlt | hge
    · rw [h₂.same m hlt (Nat.ne_of_gt (Nat.lt_of_lt_of_le hn hm))] at hf
      exact h₁.apart m hm f hf
    · exact Nat.le_trans h₁.grows (h₂.apart m hge f hf)

/-- A change of a new node, to which no older nodes are given as fields, is among the new nodes. -/
theorem trans_new (h₁ : GrownAt n h h') (hc : h.nodes.length ≤ c) (h₂ : GrownAt c h' h'')
    (hfields : ∀ f ∈ (h''.node c).fields.getD [], h.nodes.length ≤ f.2) : GrownAt n h h'' where
  grows := Nat.le_trans h₁.grows h₂.grows
  same m hm hne := by
    rw [h₂.same m (Nat.lt_of_lt_of_le hm h₁.grows) (Nat.ne_of_lt (Nat.lt_of_lt_of_le hm hc)),
      h₁.same m hm hne]
  apart m hm f hf := by
    by_cases hmc : m = c
    · subst hmc
      exact hfields f hf
    · rcases Nat.lt_or_ge m h'.nodes.length with hlt | hge
      · rw [h₂.same m hlt hmc] at hf
        exact h₁.apart m hm f hf
      · exact Nat.le_trans h₁.grows (h₂.apart m hge f hf)

end GrownAt

end Heap

namespace Build

theorem run_modifyNode (h : Heap κ) (n : NodeId) (u : Node κ → Node κ) :
    (modifyNode n u).run h = (.ok (), h.setNode n (u (h.node n))) := rfl

theorem run_like (h : Heap κ) (n m : NodeId) :
    (like n (.node m)).run h = (.ok n, h.setNode n { h.node n with
      required := (h.node m).required
      array := if (h.node m).array.isSome then (h.node m).array else (h.node n).array
      strict := (h.node m).strict }) := by
  let first : Node κ := { h.node n with required := (h.node m).required }
  let withArray (p : Node κ) : Node κ :=
    { p with array := if (h.node m).array.isSome then (h.node m).array else p.array }
  let withStrict (p : Node κ) : Node κ := { p with strict := (h.node m).strict }
  let h₁ := h.setNode n first
  let h₂ := h₁.setNode n (withArray (h₁.node n))
  have hrun : (like n (.node m)).run h = (.ok n, h₂.setNode n (withStrict (h₂.node n))) := rfl
  have harray : h₂ = h.setNode n (withArray first) := h.setNode_modified n first withArray
  rw [hrun, harray, h.setNode_modified n (withArray first) withStrict]

variable [Inspect κ]

theorem exists_run_field {h : Heap κ} {n : NodeId} {name : String} (hn : n < h.nodes.length)
    (hmark : (h.node n).fieldsMark = .fresh) (hname : name ≠ "")
    (hnew : name ∉ ((h.node n).fields.getD []).map (·.1)) :
    ∃ h', (field n (.str name)).run h = (.ok h.nodes.length, h') ∧ h.GrownAt n h' ∧
      h'.nodes.length = h.nodes.length + 1 ∧
      h'.node n = (h.node n).withField name h.nodes.length ∧
      h'.node h.nodes.length = { registry := (h.node n).registry } := by
  obtain ⟨h₁, hh₁⟩ : ∃ h₁, h₁ = h.addNode { registry := (h.node n).registry } := ⟨_, rfl⟩
  have hlength : h₁.nodes.length = h.nodes.length + 1 := by rw [hh₁, Heap.length_addNode]
  have hnode : h₁.node n = h.node n := by
    rw [hh₁]
    exact Heap.node_addNode_of_lt hn _
  have hcreate : (create (h.node n).registry).run h = (.ok h.nodes.length, h₁) := by
    rw [hh₁]
    rfl
  have htrue : (Value.str name : Value κ).isTrue = .ok true := by simp [Value.isTrue, hname]
  have hgiven : (Build.of (Value.str name : Value κ).isTrue).run h₁ = (.ok true, h₁) := by
    rw [htrue]
    rfl
  have hgrown : h.GrownAt n h₁ := hh₁ ▸ .addNode n h rfl
  rw [← hnode] at hnew hmark
  refine ⟨h₁.addField n name h.nodes.length, ?_, ?_, ?_, ?_, ?_⟩
  · rw [field, run_bind_ok (run_node h n), run_bind_ok hcreate, attachTo,
      run_bind_ok (show (Pure.pure n : Build κ NodeId).run h₁ = (.ok n, h₁) from rfl),
      run_bind_ok hgiven]
    exact run_attach hnew
  all_goals rw [Heap.addField_of_fresh hmark]
  · exact hgrown.trans hn (.setNode h₁ n _)
  · rw [Heap.length_setNode, hlength]
  · rw [Heap.node_setNode_self (Nat.lt_of_lt_of_le hn hgrown.grows), hnode]
    rfl
  · rw [Heap.node_setNode_of_ne _ _ (Nat.ne_of_lt hn), hh₁, Heap.node_addNode]

/-- No field is added without a name, or under a name that is taken. -/
theorem exists_field_error {h : Heap κ} {n : NodeId} {name : String} (hn : n < h.nodes.length)
    (hname : name = "" ∨ name ∈ ((h.node n).fields.getD []).map (·.1)) :
    ∃ f h', (field n (.str name)).run h = (.error f, h') ∧
      f.family = if name = "" then .definition else .duplicateKey := by
  obtain ⟨h₁, hh₁⟩ : ∃ h₁, h₁ = h.addNode { registry := (h.node n).registry } := ⟨_, rfl⟩
  have hcreate : (create (h.node n).registry).run h = (.ok h.nodes.length, h₁) := by
    rw [hh₁]
    rfl
  have hgiven : (Build.of (Value.str name : Value κ).isTrue).run h₁ = (.ok (name != ""), h₁) := rfl
  have hfield : (field n (.str name)).run h = (if name != "" then attach n h.nodes.length name
      else throw (.fieldName (.str name)) : Build κ NodeId).run h₁ := by
    rw [field, run_bind_ok (run_node h n), run_bind_ok hcreate, attachTo,
      run_bind_ok (show (Pure.pure n : Build κ NodeId).run h₁ = (.ok n, h₁) from rfl),
      run_bind_ok hgiven]
    cases name != "" <;> rfl
  by_cases hempty : name = ""
  · refine ⟨.fieldName (.str name), h₁, ?_, ?_⟩
    · rw [hfield, hempty]
      rfl
    · rw [if_pos hempty]
      rfl
  · have hmem : name ∈ ((h₁.node n).fields.getD []).map (·.1) := by
      rw [hh₁, Heap.node_addNode_of_lt hn]
      exact hname.resolve_left hempty
    have hgiven : (name != "") = true := by simpa using hempty
    obtain ⟨f, hf⟩ := run_attach_of_mem hmem h.nodes.length
    refine ⟨.duplicateField name f, h₁, ?_, ?_⟩
    · rw [hfield, hgiven]
      exact hf
    · rw [if_neg hempty]
      rfl

theorem run_validate {h : Heap κ} {n : NodeId} {m : Mark} {rules : List (Value κ)}
    (hrules : rules ≠ []) (hmark : (h.node n).rulesMark = .fresh) :
    (validate n (.list m rules)).run h = (.ok n, h.setNode n
      { h.node n with rules := some ((h.node n).rules.getD [] ++ rules) }) := by
  have htrue : (Value.list m rules).isTrue = .ok true := by simp [Value.isTrue, hrules]
  have hgiven : (Build.of (Value.list m rules).isTrue).run h = (.ok true, h) := by
    rw [htrue]
    rfl
  rw [← Heap.addRules_of_fresh hmark]
  exact run_bind_ok hgiven

end Build

namespace Document

/-- The node that a key describes, without rules and fields. -/
def Key.node (r : RegistryId) (k : Key) : Node κ where
  registry := r
  required := !k.optional
  array := if k.array then some true else none
  strict := k.strict

theorem run_flagged (r : RegistryId) (k : Key) (h : Heap κ) :
    (flagged r k).run h = (.ok h.nodes.length, h.addNode (k.node r)) := by
  have hcreate : (Build.create r).run h = (.ok h.nodes.length, h.addNode { registry := r }) := rfl
  rw [flagged, Build.run_bind_ok hcreate, Build.run_bind_ok (Build.run_modifyNode _ _ _),
    Heap.node_addNode, Heap.setNode_addNode]
  rfl

variable [Inspect κ]

/-- No field is added for a key without a name, or with a name that is taken. -/
theorem exists_addField_error {r : RegistryId} {text : String} {k : Key}
    (hkey : Key.field? text = some k) {h : Heap κ} {n : NodeId} (hn : n < h.nodes.length)
    (hname : k.name = "" ∨ k.name ∈ ((h.node n).fields.getD []).map (·.1)) :
    ∃ f h', (addField r n (.str text)).run h = (.error f, h') ∧
      f.family = if k.name = "" then .definition else .duplicateKey := by
  obtain ⟨h₁, hh₁⟩ : ∃ h₁, h₁ = h.addNode (k.node r) := ⟨_, rfl⟩
  have hn₁ : n < h₁.nodes.length := by
    rw [hh₁, Heap.length_addNode]
    exact Nat.lt_succ_of_lt hn
  have hnode₁ : h₁.node n = h.node n := by rw [hh₁, Heap.node_addNode_of_lt hn]
  rw [← hnode₁] at hname
  obtain ⟨f, h₂, hfield, hfamily⟩ := Build.exists_field_error hn₁ hname
  refine ⟨f, h₂, ?_, hfamily⟩
  simp only [addField, hkey]
  rw [Build.run_bind_ok (run_flagged r k h), ← hh₁, Build.run_bind, hfield]

/-- A key adds a field to a node, as a node of its own that has nothing but what the key says. -/
theorem run_addField {r : RegistryId} {text : String} {k : Key} (hkey : Key.field? text = some k)
    (hname : k.name ≠ "") {h : Heap κ} {n : NodeId} (hn : n < h.nodes.length)
    (hregistry : (h.node n).registry = r) (hmark : (h.node n).fieldsMark = .fresh)
    (hnew : k.name ∉ ((h.node n).fields.getD []).map (·.1)) :
    ∃ h' c, (addField r n (.str text)).run h = (.ok c, h') ∧ h.GrownAt n h' ∧
      h.nodes.length ≤ c ∧ c < h'.nodes.length ∧ h'.node n = (h.node n).withField k.name c ∧
      h'.node c = k.node r := by
  -- the template of the key, the child without its flags, the child like the template
  obtain ⟨h₁, hh₁⟩ : ∃ h₁, h₁ = h.addNode (k.node r) := ⟨_, rfl⟩
  have hgrown₁ : h.GrownAt n h₁ := hh₁ ▸ .addNode n h rfl
  have hlength₁ : h₁.nodes.length = h.nodes.length + 1 := by rw [hh₁, Heap.length_addNode]
  have hnode₁ : h₁.node n = h.node n := by rw [hh₁, Heap.node_addNode_of_lt hn]
  have hn₁ : n < h₁.nodes.length := Nat.lt_of_lt_of_le hn hgrown₁.grows
  rw [← hnode₁] at hmark hnew hregistry ⊢
  obtain ⟨h₂, hfield, hgrown₂, hlength₂, hnode₂, hchild⟩ :=
    Build.exists_run_field hn₁ hmark hname hnew
  have hc : h₁.nodes.length < h₂.nodes.length := hlength₂ ▸ Nat.lt_succ_self _
  have htemplate : h₂.node h.nodes.length = k.node r := by
    rw [hgrown₂.same _ (hlength₁ ▸ Nat.lt_succ_self _) (Nat.ne_of_gt hn), hh₁, Heap.node_addNode]
  have hlike : (Build.like h₁.nodes.length (.node h.nodes.length)).run h₂ =
      (.ok h₁.nodes.length, h₂.setNode h₁.nodes.length (k.node r)) := by
    rw [Build.run_like, hchild, htemplate, hregistry]
    cases harray : k.array with
    | true => simp [Key.node, harray]
    | false => simp [Key.node, harray]
  have hnode : (h₂.setNode h₁.nodes.length (k.node r)).node h₁.nodes.length = k.node r :=
    Heap.node_setNode_self hc _
  refine ⟨h₂.setNode h₁.nodes.length (k.node r), h₁.nodes.length, ?_,
    (hgrown₁.trans hn hgrown₂).trans_new hgrown₁.grows (.setNode h₂ _ _) ?_, hgrown₁.grows,
    ?_, ?_, hnode⟩
  · simp only [addField, hkey]
    rw [Build.run_bind_ok (run_flagged r k h), ← hh₁, Build.run_bind_ok hfield, hlike]
  · rw [hnode]
    exact nofun
  · rwa [Heap.length_setNode]
  · rw [Heap.node_setNode_of_ne _ _ (Nat.ne_of_gt hn₁), hnode₂]

/-- Whether a value is a key for a node's own rules. -/
def isOwnKey : Value κ → Bool
  | .str text => isOwnRules text
  | _ => false

theorem fill_cons (r : RegistryId) (n : NodeId) (key v : Value κ) (es : Entries κ) :
    fill r n ((key, v) :: es) =
      if isOwnKey key then (Build.validate n v >>= fun _ => fill r n es)
      else (addField r n key >>= fun child => fillField r child v >>= fun _ => fill r n es) := by
  cases key with
  | str text =>
      rw [fill]
      rfl
  | _ =>
      rw [fill]
      · rfl
      · exact nofun

theorem fillField_of_plain {r : RegistryId} {c : NodeId} {v : Value κ} (hv : v.isMapping = false)
    (hnull : v ≠ .null) :
    fillField r c v = (Build.validate c v >>= fun _ => pure () : Build κ Unit) := by
  cases v with
  | mapping m es => exact nomatch hv
  | null => exact absurd rfl hnull
  | _ =>
      rw [fillField]
      all_goals exact nofun

theorem run_toSchema_of_root? {text : String} {k : Key} (hread : Key.root? text = some k)
    (r : RegistryId) (m : Mark) (body : Value κ) (h : Heap κ) :
    (toSchema r (.mapping m [(.str text, body)])).run h =
      (fillField r h.nodes.length body >>= fun _ => pure h.nodes.length : Build κ NodeId).run
        (h.addNode (k.node r)) := by
  simp only [toSchema, hread]
  rw [Build.run_bind_ok (run_flagged r k h)]

/-- A document without a key for the root is refused at once. -/
theorem run_toSchema_cases (r : RegistryId) (data : Value κ) (h : Heap κ) :
    (∃ f, (toSchema r data).run h = (.error f, h) ∧ f.family = .definition) ∨
      ∃ m text body k, data = .mapping m [(.str text, body)] ∧ Key.root? text = some k := by
  cases data with
  | mapping m es =>
      match es with
      | [] => exact .inl ⟨_, rfl, rfl⟩
      | d :: e :: es => exact .inl ⟨_, rfl, rfl⟩
      | [(key, body)] =>
          cases key with
          | str text =>
              cases hread : Key.root? text with
              | none => exact .inl ⟨.rootKey (.str text), by simp only [toSchema, hread]; rfl, rfl⟩
              | some k => exact .inr ⟨m, text, body, k, rfl, hread⟩
          | _ => exact .inl ⟨_, rfl, rfl⟩
  | _ => exact .inl ⟨_, rfl, rfl⟩

end Document

end SchemaTree
