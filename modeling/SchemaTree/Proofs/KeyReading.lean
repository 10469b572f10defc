import SchemaTree.Proofs.DocumentKeys
import SchemaTree.Proofs.DocumentSteps
import SchemaTree.Proofs.OwnCopies

/-!
How a key is read in a document, whatever characters it is made of. What it does to the node that is
filled tells whether it is the key of a field, of the node's own rules, or of neither, and each has
its written form. A line feed at the end of a key is not always part of what is read.
-/

namespace SchemaTree

variable {κ : Type}

namespace Document

def IsRulesText (text : String) : Prop :=
  ∃ signs : String, signs ≠ "" ∧ (∀ c ∈ signs.toList, c = '=') ∧
    (text = signs ∨ text = signs ++ "\n")

/-- A key for a field: a name with suffixes, and perhaps a line feed after the last of them. -/
structure IsFieldText (text : String) (k : Key) : Prop where
  nonempty : k.name ≠ ""
  plain : ∀ c ∈ k.name.toList, c ≠ '[' ∧ c ≠ '?' ∧ c ≠ '!'
  notRules : ¬ IsRulesText text
  written : text = k.name ++ k.suffixes ∨ k.suffixes ≠ "" ∧ text = k.name ++ k.suffixes ++ "\n"

theorem isFieldText_iff {text : String} {k : Key} :
    IsFieldText text k ↔ k.name ≠ "" ∧ isOwnRules text = false ∧ Key.field? text = some k := by
  have hplain : (∀ c ∈ k.name.toList, startsSuffix c = false) ↔
      ∀ c ∈ k.name.toList, c ≠ '[' ∧ c ≠ '?' ∧ c ≠ '!' := by
    simp [startsSuffix, and_assoc]
  rw [field?_iff, hplain, Bool.eq_false_iff, Ne, Ne, isOwnRules_iff]
  constructor
  · rintro ⟨hname, hplain, hrules, hwritten⟩
    exact ⟨hname, hrules, hplain, hwritten⟩
  · rintro ⟨hname, hrules, hplain, hwritten⟩
    exact ⟨hname, hplain, hrules, hwritten⟩

theorem IsFieldText.unique {text : String} {k k' : Key} (hk : IsFieldText text k)
    (hk' : IsFieldText text k') : k = k' := by
  obtain ⟨-, -, hread⟩ := isFieldText_iff.mp hk
  obtain ⟨-, -, hread'⟩ := isFieldText_iff.mp hk'
  exact Option.some.inj (hread.symm.trans hread')

theorem Key.eq_of_node_eq {r : RegistryId} {k k' : Key} (hname : k.name = k'.name)
    (hnode : (k.node r : Node κ) = k'.node r) : k = k' := by
  obtain ⟨name, array, optional, strict⟩ := k
  obtain ⟨name', array', optional', strict'⟩ := k'
  obtain rfl : name = name' := hname
  cases array <;> cases array' <;> cases optional <;> cases optional' <;> simp_all [Key.node]

theorem withField_inj {p : Node κ} {name name' : String} {c c' : NodeId}
    (h : p.withField name c = p.withField name' c') : name = name' ∧ c = c' := by
  have hfields := congrArg Node.fields h
  simpa [Node.withField] using hfields

theorem withField_ne (p : Node κ) (name : String) (c : NodeId) : p.withField name c ≠ p := by
  intro h
  have hfields := congrArg (fun q => (q.fields.getD []).length) h
  simp [Node.withField] at hfields

variable [Inspect κ]

section bare

variable {r : RegistryId} {n : NodeId} {h : Heap κ} (hn : n < h.nodes.length)
  (hregistry : (h.node n).registry = r) (hmark : (h.node n).fieldsMark = .fresh)

include hn hregistry hmark

/-- A bare key that is not for rules adds a field as it is read, or is refused. -/
theorem run_fill_bare_cases {text : String} (hrules : isOwnRules text = false) :
    (∃ f h', (fill r n [(.str text, .null)]).run h = (.error f, h')) ∨
      ∃ k c h', Key.field? text = some k ∧ k.name ≠ "" ∧
        k.name ∉ ((h.node n).fields.getD []).map (·.1) ∧
        (fill r n [(.str text, .null)]).run h = (.ok (), h') ∧
        h'.node n = (h.node n).withField k.name c ∧ h'.node c = k.node r := by
  have hfill : fill r n [(.str text, (.null : Value κ))] =
      (addField r n (.str text) >>= fun child => fillField r child .null >>= fun _ =>
        fill r n []) := by
    rw [fill_cons, isOwnKey, hrules]
    rfl
  cases hread : Key.field? text with
  | none =>
      refine .inl ⟨.fieldKey (.str text), h, ?_⟩
      rw [hfill, Build.run_bind]
      simp only [addField, hread]
      rfl
  | some k =>
      by_cases hname : k.name = "" ∨ k.name ∈ ((h.node n).fields.getD []).map (·.1)
      · obtain ⟨f, h', hrun, -⟩ := exists_addField_error (r := r) hread hn hname
        exact .inl ⟨f, h', by rw [hfill, Build.run_bind, hrun]⟩
      · obtain ⟨hname, hnew⟩ := not_or.mp hname
        obtain ⟨h', c, hrun, -, -, -, hnode, hchild⟩ :=
          run_addField hread hname hn hregistry hmark hnew
        refine .inr ⟨k, c, h', rfl, hname, hnew, ?_, hnode, hchild⟩
        rw [hfill, Build.run_bind_ok hrun]
        rfl

theorem fill_bare_iff {text : String} {k : Key} :
    (∃ c h', (fill r n [(.str text, .null)]).run h = (.ok (), h') ∧
        h'.node n = (h.node n).withField k.name c ∧ h'.node c = k.node r) ↔
      IsFieldText text k ∧ k.name ∉ ((h.node n).fields.getD []).map (·.1) := by
  rw [isFieldText_iff]
  constructor
  · rintro ⟨c, h', hrun, hnode, hchild⟩
    have hrules : isOwnRules text = false := by
      rw [Bool.eq_false_iff]
      intro hrules
      have hsame : (fill r n [(.str text, (.null : Value κ))]).run h = (.ok (), h) := by
        rw [fill_cons, isOwnKey, if_pos hrules]
        rfl
      obtain rfl : h = h' := (Prod.mk.inj (hsame.symm.trans hrun)).2
      exact withField_ne _ _ _ hnode.symm
    rcases run_fill_bare_cases hn hregistry hmark hrules with
      ⟨f, h₁, hrun₁⟩ | ⟨k₁, c₁, h₁, hread, hname, hnew, hrun₁, hnode₁, hchild₁⟩
    · cases hrun.symm.trans hrun₁
    · obtain rfl : h' = h₁ := (Prod.mk.inj (hrun.symm.trans hrun₁)).2
      obtain ⟨hsame, rfl⟩ := withField_inj (hnode.symm.trans hnode₁)
      obtain rfl : k = k₁ := Key.eq_of_node_eq hsame (hchild.symm.trans hchild₁)
      exact ⟨⟨hname, hrules, hread⟩, hnew⟩
  · rintro ⟨⟨hname, hrules, hread⟩, hnew⟩
    obtain ⟨h', c, hrun, -, -, -, hnode, hchild⟩ :=
      run_addField hread hname hn hregistry hmark hnew
    refine ⟨c, h', ?_, hnode, hchild⟩
    rw [fill_cons, isOwnKey, hrules, if_neg Bool.false_ne_true, Build.run_bind_ok hrun]
    rfl

/-- Whatever stands under a key is added to the node's own rules, and nothing else is done, if and
only if the key is for rules. -/
theorem fill_rules_iff {text : String} :
    (∀ v es, (fill r n ((.str text, v) :: es)).run h =
        (Build.validate n v >>= fun _ => fill r n es).run h) ↔ IsRulesText text := by
  rw [IsRulesText, ← isOwnRules_iff]
  constructor
  · intro hall
    by_contra hrules
    have hsame : (fill r n [(.str text, .null)]).run h = (.ok (), h) := hall .null []
    rcases run_fill_bare_cases hn hregistry hmark (Bool.eq_false_iff.mpr hrules) with
      ⟨f, h₁, hrun₁⟩ | ⟨k₁, c₁, h₁, -, -, -, hrun₁, hnode₁, -⟩
    · cases hsame.symm.trans hrun₁
    · obtain rfl : h = h₁ := (Prod.mk.inj (hsame.symm.trans hrun₁)).2
      exact withField_ne _ _ _ hnode₁.symm
  · intro hrules v es
    rw [fill_cons, isOwnKey, if_pos hrules]

end bare

theorem toSchema_bare_iff {r : RegistryId} {m : Mark} {h : Heap κ} {text : String}
    {array required strict : Bool} :
    (toSchema r (.mapping m [(.str text, .null)])).run h = (.ok h.nodes.length, h.addNode
        { registry := r, required, array := if array then some true else none, strict }) ↔
      text = "schema" ++ suffixes array required strict ∨
        text = "schema" ++ suffixes array required strict ++ "\n" := by
  obtain ⟨k, hk⟩ : ∃ k : Key, k = ⟨"schema", array, !required, strict⟩ := ⟨_, rfl⟩
  have hnode : { registry := r, required, array := if array then some true else none, strict } =
      (k.node r : Node κ) := by
    simp [hk, Key.node]
  have hread : Key.root? text = some k ↔ text = "schema" ++ suffixes array required strict ∨
      text = "schema" ++ suffixes array required strict ++ "\n" := by
    rw [root?_iff, hk]
    simp [Key.suffixes]
  have hrun : ∀ k' : Key, Key.root? text = some k' →
      (toSchema r (.mapping m [(.str text, .null)])).run h =
        (.ok h.nodes.length, h.addNode (k'.node r)) :=
    fun k' hk' => run_toSchema_of_root? hk' r m .null h
  rw [hnode, ← hread]
  constructor
  · intro hok
    cases hroot : Key.root? text with
    | none =>
        have herror : (toSchema r (.mapping m [(.str text, (.null : Value κ))])).run h =
            (.error (.rootKey (.str text)), h) := by
          simp only [toSchema, hroot]
          rfl
        cases hok.symm.trans herror
    | some k' =>
        have hheap := (Prod.mk.inj ((hrun k' hroot).symm.trans hok)).2
        have hsame : (k'.node r : Node κ) = k.node r := by
          have hnode := congrArg (fun g => g.node h.nodes.length) hheap
          simpa only [Heap.node_addNode] using hnode
        obtain ⟨hname, -⟩ := root?_iff.mp hroot
        rw [Key.eq_of_node_eq (hname.trans (by rw [hk])) hsame]
  · exact hrun k

end Document

open Document

variable [Inspect κ]

/-- Every text is read by its written form. As the key of an entry it adds the field of that name
with these flags exactly if it is the name with the suffixes, it stands for the rules of the node
exactly if it is made of `=`, and it describes the root exactly if it is `schema` with suffixes. In
each case but that of a field without suffixes, where it is part of the name, a line feed may come
last. -/
theorem key_read_as_written {r : RegistryId} {n : NodeId} {h : Heap κ} (hn : n < h.nodes.length)
    (hregistry : (h.node n).registry = r) (hmark : (h.node n).fieldsMark = .fresh)
    (text : String) :
    (∀ k : Key,
      (∃ c h', (fill r n [(.str text, .null)]).run h = (.ok (), h') ∧
        h'.node n = (h.node n).withField k.name c ∧ h'.node c = k.node r) ↔
      IsFieldText text k ∧ k.name ∉ ((h.node n).fields.getD []).map (·.1)) ∧
    (∀ k k', IsFieldText text k → IsFieldText text k' → k = k') ∧
    ((∀ v es, (fill r n ((.str text, v) :: es)).run h =
      (Build.validate n v >>= fun _ => fill r n es).run h) ↔ IsRulesText text) ∧
    ∀ m array required strict,
      (toSchema r (.mapping m [(.str text, .null)])).run h = (.ok h.nodes.length, h.addNode
        { registry := r, required, array := if array then some true else none, strict }) ↔
      text = "schema" ++ suffixes array required strict ∨
        text = "schema" ++ suffixes array required strict ++ "\n" :=
  ⟨fun _ => fill_bare_iff hn hregistry hmark, fun _ _ => IsFieldText.unique,
    fill_rules_iff hn hregistry hmark, fun _ _ _ _ => toSchema_bare_iff⟩

/-- In the first node of a heap, a key adds the optional array of tags. -/
theorem tags_read_as_written :
    ∃ c h', (fill 0 0 [(.str "tags[]?", (.null : Value OrderFunction))]).run
        ((Heap.initial : Heap OrderFunction).addNode { registry := 0 }) = (.ok (), h') ∧
      (h'.node 0).fields = some [("tags", c)] ∧ (h'.node c).array = some true ∧
      (h'.node c).required = false := by
  obtain ⟨hfield, -⟩ := key_read_as_written (r := 0) (n := 0)
    (h := (Heap.initial : Heap OrderFunction).addNode { registry := 0 }) (by decide) rfl rfl
    "tags[]?"
  have htext : IsFieldText "tags[]?" ⟨"tags", true, true, false⟩ :=
    isFieldText_iff.mpr (by decide)
  obtain ⟨c, h', hrun, hnode, hchild⟩ := (hfield ⟨"tags", true, true, false⟩).mpr ⟨htext, nofun⟩
  refine ⟨c, h', hrun, ?_, ?_, ?_⟩
  · rw [hnode]
    rfl
  · rw [hchild]
    rfl
  · rw [hchild]
    rfl

def OrderFunction.brokenTags : Value OrderFunction :=
  .mapping .fresh [(.str "schema", .mapping .fresh [(.str "tags[]\n", .null)])]

/-- The key is not the name of a field with suffixes, and is read as the array of tags. -/
theorem broken_tags_read :
    (∃ n c h', (toSchema 0 OrderFunction.brokenTags).run Heap.initial = (.ok n, h') ∧
      (h'.node n).fields = some [("tags", c)] ∧ (h'.node c).array = some true) ∧
    ∀ name array required strict, (∀ c ∈ name.toList, c ≠ '[' ∧ c ≠ '?' ∧ c ≠ '!') →
      "tags[]\n" ≠ name ++ suffixes array required strict := by
  refine ⟨⟨_, _, _, by with_unfolding_all rfl, by with_unfolding_all rfl,
    by with_unfolding_all rfl⟩, fun name array required strict hname htext => ?_⟩
  have hplain : ∀ c ∈ name.toList, startsSuffix c = false := fun c hc => by
    obtain ⟨h₁, h₂, h₃⟩ := hname c hc
    simp [startsSuffix, h₁, h₂, h₃]
  have hread : Key.field? "tags[]\n" = some ⟨"tags", true, false, false⟩ := by decide
  rw [htext, field?_of_plain hplain] at hread
  obtain ⟨rfl, rfl, hrequired, rfl⟩ := Key.mk.inj (Option.some.inj hread)
  obtain rfl : required = true := by simpa using hrequired
  exact absurd htext (by decide)

end SchemaTree
