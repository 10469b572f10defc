import SchemaTree.Proofs.CopiedFields
import SchemaTree.Proofs.RegistryHistory

/-!
Calls that fail. Most operations look first and change something then, so one that fails has changed
nothing that was there. Those that are made of several changes keep the ones that were made.
-/

namespace SchemaTree

variable {κ : Type}

namespace Heap

structure Kept (before after : Heap κ) : Prop where
  registries : after.registries = before.registries
  grows : before.nodes.length ≤ after.nodes.length
  same : ∀ k, k < before.nodes.length → after.node k = before.node k

theorem Kept.refl (h : Heap κ) : Kept h h := ⟨rfl, Nat.le_refl _, fun _ _ => rfl⟩

theorem Kept.extend (h : Heap κ) (nodes : List (Node κ)) : Kept h (h.extend nodes) where
  registries := rfl
  grows := by
    rw [nodes_extend, List.length_append]
    exact Nat.le_add_right ..
  same _ hk := node_extend hk nodes

theorem Kept.setNode {before h : Heap κ} (hh : Kept before h) {n : NodeId}
    (hn : before.nodes.length ≤ n) (p : Node κ) : Kept before (h.setNode n p) where
  registries := hh.registries
  grows := by
    rw [length_setNode]
    exact hh.grows
  same k hk := by
    rw [node_setNode_of_ne h p (Nat.ne_of_gt (Nat.lt_of_lt_of_le hk hn)), hh.same k hk]

theorem fields_addField {h : Heap κ} {n : NodeId} (hn : n < h.nodes.length) (name : String)
    (child : NodeId) : ((h.addField n name child).node n).fields =
      some ((h.node n).fields.getD [] ++ [(name, child)]) := by
  unfold addField
  dsimp only
  split
  · rename_i hsome hmark
    rw [node_of_nodes_map rfl hn, if_pos (by simp [hsome, hmark])]
  · rw [node_setNode_self hn]

theorem registries_addField (h : Heap κ) (n : NodeId) (name : String) (child : NodeId) :
    (h.addField n name child).registries = h.registries := by
  unfold addField
  dsimp only
  split <;> rfl

end Heap

namespace Build

variable {α β : Type} {x : Build κ α} {h h' : Heap κ}

theorem run_of_bind_error {g : α → Build κ β} {f : Fault κ}
    (hrun : (x >>= g).run h = (.error f, h'))
    (hg : ∀ a h₁, ∃ b h₂, (g a).run h₁ = (.ok b, h₂)) : x.run h = (.error f, h') := by
  rw [run_bind] at hrun
  split at hrun
  · rename_i a h₁ hx
    obtain ⟨b, h₂, hnext⟩ := hg a h₁
    rw [hnext] at hrun
    exact nomatch hrun
  · rename_i hx
    cases hrun
    exact hx

def FailsQuietly (x : Build κ α) (h : Heap κ) : Prop :=
  ∀ f h', x.run h = (.error f, h') → h.Kept h'

theorem FailsQuietly.of_ok {a : α} (hx : x.run h = (.ok a, h')) : FailsQuietly x h := by
  intro f h'' hrun
  rw [hx] at hrun
  exact nomatch hrun

theorem FailsQuietly.of_error {f : Fault κ} (hx : x.run h = (.error f, h')) (hh : h.Kept h') :
    FailsQuietly x h := by
  intro g h'' hrun
  rw [hx] at hrun
  cases hrun
  exact hh

end Build

variable [Inspect κ]

def Source.Builderless : Source κ → Prop
  | .plan _ => False
  | .node _ | .named _ | .mismatched | .unfit _ => True

def Operation.Builderless : Operation κ → Prop
  | .object source | .arrayOf source => source.Builderless
  | _ => True

/-- What is left of a node for which flags were taken over until one could not be read. -/
inductive Node.TakenUpTo (p : Node κ) (flags : Flags κ) (f : Fault κ) : Node κ → Prop
  | required (hrequired : flags.required = .error f) : TakenUpTo p flags f p
  | array {required : Bool} (hrequired : flags.required = .ok required)
    (harray : flags.array = .error f) : TakenUpTo p flags f { p with required }
  | strict {required : Bool} {array : Option Bool} (hrequired : flags.required = .ok required)
    (harray : flags.array = .ok array) (hstrict : flags.strict = .error f) :
    TakenUpTo p flags f { p with required, array := if array.isSome then array else p.array }

/-- An operation on `n` fails with `f` between two changes and leaves the heap `h'`. -/
inductive Heap.Interrupted (h : Heap κ) (n : NodeId) (f : Fault κ) (h' : Heap κ) :
    Operation κ → Prop
  /-- A field cannot be copied after others are copied, or the rules cannot: the copies stay. -/
  | copying {op : Operation κ} {source : Source κ} {m : NodeId}
      {done rest fields : List (String × NodeId)} {trees : List (String × Tree κ)}
      (hop : op = .object source ∨ op = .arrayOf source) (hnone : (h.node n).fields = none)
      (hsource : source.Refers h (h.node n).registry m)
      (hfields : (h.node m).fields.getD [] = done ++ rest) (hdone : done ≠ [])
      (hcopies : h.Copies n done trees h') (hreceived : h.Received n trees fields h')
      (hstop : h'.StopsAt m f rest) : Interrupted h n f h' op
  /-- Rules cannot tell whether they are any: the new field that they are for stays. -/
  | ruled {op : Operation κ} {name rules : Value κ} {text : String}
      (hop : op = .required name rules ∨ op = .optional name rules)
      (hname : h.current name = .str text) (htakes : (h.node n).Takes text)
      (hrules : (h.current rules).isTrue = .error f)
      (hh' : h' = (h.addNode { registry := (h.node n).registry }).addField n text
        h.nodes.length) : Interrupted h n f h' op
  /-- A flag of an object cannot be read: those before it are taken over. -/
  | liked {op : Operation κ} {flags : Flags κ} {p : Node κ} (hop : op = .like (.object flags))
      (hp : (h.node n).TakenUpTo flags f p) (hchanged : p ≠ h.node n) (hh' : h' = h.setNode n p) :
      Interrupted h n f h' op

namespace Build

theorem run_validate_cases (h : Heap κ) (n : NodeId) (rules : Value κ) :
    (∃ f, rules.isTrue = .error f ∧ (validate n rules).run h = (.error f, h)) ∨
      ∃ h', (validate n rules).run h = (.ok n, h') := by
  cases htrue : rules.isTrue with
  | error f => exact .inl ⟨f, rfl, by unfold validate; rw [htrue]; rfl⟩
  | ok given =>
      refine .inr ?_
      cases given with
      | false => exact ⟨h, by unfold validate; rw [htrue]; rfl⟩
      | true => exact ⟨_, by unfold validate; rw [htrue]; rfl⟩

/-- The fields of a node are defined by another node, or the heap is left as it is. -/
theorem run_define_cases (h : Heap κ) (n : NodeId) {source : Source κ}
    (hsource : source.Builderless) :
    (∃ f, (source.define n).run h = (.error f, h)) ∨ ∃ m, (h.node n).fields = none ∧
      source.Refers h (h.node n).registry m ∧
      (source.define n).run h = (similar n m).run h := by
  rcases run_undefinedOnly_cases h n with ⟨f, hrun⟩ | ⟨hnone, hrun⟩
  · refine .inl ⟨f, ?_⟩
    cases source with
    | plan body => exact hsource.elim
    | _ => rw [Source.define, run_bind, hrun]
  · cases source with
    | node m => exact .inr ⟨m, hnone, rfl, run_define hnone rfl⟩
    | named name =>
        cases hfind : (h.registry (h.node n).registry).find? name with
        | some m => exact .inr ⟨m, hnone, hfind, run_define hnone hfind⟩
        | none =>
            refine .inl ⟨.unknownSchema name (h.registry (h.node n).registry).name
              (h.registry (h.node n).registry).keys, ?_⟩
            rw [Source.define, run_bind_ok hrun, run_bind_ok (run_node h n), run_bind, resolve,
              run_bind_ok (run_registry h _)]
            simp only [hfind]
            rfl
    | plan body => exact hsource.elim
    | mismatched => exact .inl ⟨_, by rw [Source.define, run_bind_ok hrun]; rfl⟩
    | unfit kind => exact .inl ⟨_, by rw [Source.define, run_bind_ok hrun]; rfl⟩

theorem failsQuietly_attachTo (h : Heap κ) (child : NodeId) (parent : SchemaArg) (name : Value κ) :
    FailsQuietly (attachTo child parent name) h := by
  rcases run_attachTo_cases h child parent name with ⟨f, hrun⟩ | ⟨p, text, -, -, -, hrun⟩
  · exact .of_error hrun (.refl h)
  · exact .of_ok hrun

theorem failsQuietly_validate (h : Heap κ) (n : NodeId) (rules : Value κ) :
    FailsQuietly (validate n rules) h := by
  rcases run_validate_cases h n rules with ⟨f, -, hrun⟩ | ⟨h', hrun⟩
  · exact .of_error hrun (.refl h)
  · exact .of_ok hrun

theorem failsQuietly_field (h : Heap κ) (n : NodeId) (name : Value κ) :
    FailsQuietly (field n name) h := by
  rcases run_field_cases h n name with ⟨f, hrun⟩ | ⟨text, -, -, hrun⟩
  · exact .of_error hrun (.extend h _)
  · exact .of_ok hrun

theorem failsQuietly_strict (h : Heap κ) (n : NodeId) (flag : Value κ) :
    FailsQuietly (strict n flag) h := by
  cases hflag : flag.isTrue with
  | error f =>
      exact .of_error (show (strict n flag).run h = (_, h) by unfold strict; rw [hflag]; rfl)
        (.refl h)
  | ok b => exact .of_ok (a := n) (by unfold strict; rw [hflag]; rfl)

omit [Inspect κ] in
/-- Flags are all taken over, or those that come before the first one that cannot be read. -/
theorem run_takeFlags_cases (h : Heap κ) (n : NodeId) (flags : Flags κ) :
    (∃ f p, (h.node n).TakenUpTo flags f p ∧
      (takeFlags n flags).run h = (.error f, h.setNode n p)) ∨
      ∃ h', (takeFlags n flags).run h = (.ok n, h') := by
  unfold takeFlags
  cases hrequired : flags.required with
  | error f =>
      refine .inl ⟨f, _, .required hrequired, ?_⟩
      rw [Heap.setNode_node]
      rfl
  | ok required =>
      simp only [run_bind_ok (run_of_ok h required), run_bind_ok (run_modifyNode ..)]
      cases harray : flags.array with
      | error f => exact .inl ⟨f, _, .array hrequired harray, rfl⟩
      | ok array =>
          simp only [run_bind_ok (run_of_ok _ array), run_bind_ok (run_modifyNode ..)]
          have htaken := Heap.setNode_modified h n { h.node n with required }
            fun p => { p with array := if array.isSome then array else p.array }
          cases hstrict : flags.strict with
          | error f =>
              exact .inl ⟨f, _, .strict hrequired harray hstrict, congrArg (Prod.mk _) htaken⟩
          | ok strict => exact .inr ⟨_, rfl⟩

omit [Inspect κ] in
theorem run_like_cases (h : Heap κ) (n : NodeId) (other : Likeness κ) :
    (∃ f flags p, other = .object flags ∧ (h.node n).TakenUpTo flags f p ∧
      (like n other).run h = (.error f, h.setNode n p)) ∨
      ∃ h', (like n other).run h = (.ok n, h') := by
  cases other with
  | node m => exact .inr ⟨_, rfl⟩
  | object flags =>
      rcases run_takeFlags_cases h n flags with ⟨f, p, hp, hrun⟩ | ⟨h', hrun⟩
      · exact .inl ⟨f, flags, p, rfl, hp, hrun⟩
      · exact .inr ⟨h', hrun⟩

theorem failsQuietly_clone (h : Heap κ) (n : NodeId) : FailsQuietly (clone n) h := by
  rcases run_clone_cases h n with ⟨f, hrun⟩ | ⟨t, -, hrun⟩
  · exact .of_error hrun (.refl h)
  · exact .of_ok hrun

theorem run_ruledField_of_error {h h' : Heap κ} {n : NodeId} {name rules : Value κ} {f : Fault κ}
    (hrun : (field n name >>= fun c => validate c rules).run h = (.error f, h')) :
    h.Kept h' ∨ ∃ text, name = .str text ∧ (h.node n).Takes text ∧ rules.isTrue = .error f ∧
      h' = (h.addNode { registry := (h.node n).registry }).addField n text h.nodes.length := by
  rcases run_field_cases h n name with ⟨g, hfield⟩ | ⟨text, hname, htakes, hfield⟩
  · rw [run_bind, hfield] at hrun
    cases hrun
    exact .inl (.extend h _)
  · rw [run_bind_ok hfield] at hrun
    rcases run_validate_cases ((h.addNode { registry := (h.node n).registry }).addField n text
      h.nodes.length) h.nodes.length rules with ⟨g, hrules, hvalidate⟩ | ⟨h'', hvalidate⟩
    · rw [hvalidate] at hrun
      cases hrun
      exact .inr ⟨text, hname, htakes, hrules, rfl⟩
    · rw [hvalidate] at hrun
      exact nomatch hrun

theorem run_similar_of_error {h h' : Heap κ} (hh : h.Regular) {n m : NodeId}
    (hn : n < h.nodes.length) (hnone : (h.node n).fields = none) {f : Fault κ}
    (hrun : (similar n m).run h = (.error f, h')) :
    h' = h ∨ ∃ done rest trees fields, (h.node m).fields.getD [] = done ++ rest ∧ done ≠ [] ∧
      h.Copies n done trees h' ∧ h.Received n trees fields h' ∧ h'.StopsAt m f rest := by
  have hheld := (hh n).unheld hnone
  rcases run_similar_cases hn hnone hheld (hh m).distinct with
    ⟨trees, rules, mark, h'', -, -, hsimilar⟩ |
    ⟨done, rest, trees, g, h'', hfields, hcopies, hstop, hsimilar⟩
  · rw [hsimilar] at hrun
    exact nomatch hrun
  · rw [hsimilar] at hrun
    cases hrun
    obtain ⟨fields, hreceived⟩ := hcopies.received hn hheld
    cases done with
    | nil =>
        cases hcopies
        exact .inl rfl
    | cons d done =>
        exact .inr ⟨_, rest, trees, fields, hfields, List.cons_ne_nil d done, hcopies, hreceived,
          hstop⟩

end Build

namespace Operation

variable {h h' : Heap κ} (hh : h.Regular) {n : NodeId} (hn : n < h.nodes.length) {f : Fault κ}

include hh hn

theorem kept_or_interrupted_of_source {op : Operation κ} {source : Source κ}
    (hop : op = .object source ∨ op = .arrayOf source) (hsource : source.Builderless)
    (hrun : (op.run n).run h = (.error f, h')) : h.Kept h' ∨ h.Interrupted n f h' op := by
  have hdefined : (source.define n).run h = (.error f, h') := by
    rcases hop with rfl | rfl
    · exact hrun
    · exact Build.run_of_bind_error hrun fun _ _ => ⟨_, _, rfl⟩
  rcases Build.run_define_cases h n hsource with ⟨g, hdefine⟩ | ⟨m, hnone, hrefers, hdefine⟩
  · rw [hdefine] at hdefined
    cases hdefined
    exact .inl (.refl h)
  · rw [hdefine] at hdefined
    rcases Build.run_similar_of_error hh hn hnone hdefined with
      rfl | ⟨done, rest, trees, fields, hfields, hdone, hcopies, hreceived, hstop⟩
    · exact .inl (.refl _)
    · exact .inr (.copying hop hnone hrefers hfields hdone hcopies hreceived hstop)

/-- An operation that fails without a builder has changed nothing that was there, or it is made of
several changes and was interrupted. -/
theorem kept_or_interrupted {op : Operation κ} (hop : op.Builderless)
    (hrun : (op.run n).run h = (.error f, h')) : h.Kept h' ∨ h.Interrupted n f h' op := by
  cases op with
  | attachTo parent name =>
      exact .inl (Build.failsQuietly_attachTo h n parent (h.current name) f h' hrun)
  | validate rules =>
      rw [run, Build.run_bind_ok (Build.run_current h rules)] at hrun
      exact .inl (Build.failsQuietly_validate h n (h.current rules) f h' hrun)
  | object source => exact kept_or_interrupted_of_source hh hn (.inl rfl) hop hrun
  | arrayOf source => exact kept_or_interrupted_of_source hh hn (.inr rfl) hop hrun
  | array => cases hrun
  | arrayFlag flag => cases hrun
  | field name => exact .inl (Build.failsQuietly_field h n (h.current name) f h' hrun)
  | required name rules =>
      change (Build.required n (h.current name) (h.current rules)).run h = (.error f, h') at hrun
      unfold Build.required at hrun
      split at hrun
      · cases hrun
      · rcases Build.run_ruledField_of_error hrun with hkept | ⟨text, hname, htakes, hrules, hh'⟩
        · exact .inl hkept
        · exact .inr (.ruled (.inl rfl) hname htakes hrules hh')
  | optional name rules =>
      change (Build.optional n (h.current name) (h.current rules)).run h = (.error f, h') at hrun
      unfold Build.optional at hrun
      split at hrun
      · cases hrun
      · rw [← bind_assoc] at hrun
        have hruled := Build.run_of_bind_error hrun fun _ _ => ⟨_, _, rfl⟩
        rcases Build.run_ruledField_of_error hruled with hkept | ⟨text, hname, htakes, hrules, hh'⟩
        · exact .inl hkept
        · exact .inr (.ruled (.inr rfl) hname htakes hrules hh')
  | strict flag => exact .inl (Build.failsQuietly_strict h n (h.current flag) f h' hrun)
  | like other =>
      rcases Build.run_like_cases h n other with ⟨g, flags, p, rfl, hp, hlike⟩ | ⟨h'', hlike⟩
      · obtain ⟨rfl, rfl⟩ : g = f ∧ h.setNode n p = h' := by
          cases hlike.symm.trans hrun
          exact ⟨rfl, rfl⟩
        by_cases hsame : p = h.node n
        · rw [hsame, Heap.setNode_node]
          exact .inl (.refl h)
        · exact .inr (.liked rfl hp hsame rfl)
      · cases hlike.symm.trans hrun
  | clone => exact .inl (Build.failsQuietly_clone h n f h' hrun)

end Operation

theorem Heap.Interrupted.changed {h h' : Heap κ} {n : NodeId} {f : Fault κ} {op : Operation κ}
    (hop : h.Interrupted n f h' op) (hn : n < h.nodes.length) :
    h'.registries = h.registries ∧ ¬ h.Kept h' := by
  cases hop with
  | @copying _ _ done _ fields trees _ hnone _ _ hdone hcopies hreceived _ =>
      refine ⟨hreceived.registries, fun hkept => ?_⟩
      have hsame : (h.node n).withFields fields = h.node n :=
        hreceived.node.symm.trans (hkept.same n hn)
      cases fields with
      | nil =>
          have hnames := hcopies.names
          rw [List.forall₂_nil_left_iff.mp hreceived.trees] at hnames
          exact hdone (List.map_eq_nil_iff.mp hnames.symm)
      | cons c fields =>
          rw [← hsame, Node.withFields_of_ne_nil _ (List.cons_ne_nil c fields)] at hnone
          exact nomatch hnone
  | ruled _ _ _ _ hh' =>
      subst hh'
      have hlt : n < (h.addNode { registry := (h.node n).registry }).nodes.length := by
        rw [length_addNode]
        exact Nat.lt_succ_of_lt hn
      have hnode : (h.addNode { registry := (h.node n).registry }).node n = h.node n :=
        node_extend hn _
      refine ⟨registries_addField .., fun hkept => ?_⟩
      have hfields := fields_addField hlt ‹String› h.nodes.length
      rw [hkept.same n hn, hnode] at hfields
      cases hown : (h.node n).fields with
      | none =>
          rw [hown] at hfields
          exact nomatch hfields
      | some fields =>
          rw [hown] at hfields
          simp at hfields
  | liked _ _ hchanged hh' =>
      subst hh'
      refine ⟨rfl, fun hkept => hchanged ?_⟩
      rw [← hkept.same n hn, node_setNode_self hn]

section compile

variable (hosts : List (Event κ) → Host κ) (mapper : Value κ) (options : OptionsArg κ)

theorem Heap.Kept.mapNodes {before h : Heap κ} (hh : before.Kept h) (made : List (Event κ))
    (ns : List NodeId) (hns : ∀ n ∈ ns, before.nodes.length ≤ n) :
    before.Kept (SchemaTree.mapNodes hosts mapper options made ns h).2 := by
  induction ns generalizing h made with
  | nil => exact hh
  | cons n ns ih =>
      rw [List.forall_mem_cons] at hns
      rw [SchemaTree.mapNodes]
      dsimp only
      split
      · exact hh
      · refine ih ?_ _ hns.2
        split
        · exact hh.setNode hns.1 _
        · exact hh

/-- Whether it fails or not, compiling works on a copy. -/
theorem Heap.Kept.compileWith (schema : SchemaArg) (pipeline : Pipeline κ) (h : Heap κ) :
    h.Kept (SchemaTree.compileWith hosts schema mapper options pipeline h).2 := by
  cases schema with
  | named name => exact .refl h
  | other kind => exact .refl h
  | node n =>
      unfold SchemaTree.compileWith
      dsimp only
      split
      · exact .refl h
      · split
        · exact .refl h
        · rcases Build.run_clone_cases h n with ⟨f, hclone⟩ | ⟨t, -, hclone⟩
          · rw [hclone]
            exact .refl h
          · rw [hclone]
            dsimp only
            refine (Heap.Kept.extend h _).mapNodes hosts mapper _ _ _ fun m hm => ?_
            rw [Tree.postOrder_planted] at hm
            exact (List.mem_range'_1.mp hm).1

end compile

theorem Build.failsQuietly_createNamed (name : Value κ) (r : RegistryId) (h : Heap κ) :
    FailsQuietly (createNamed name r) h := by
  have hcreate : (create r : Build κ NodeId).run h =
      (.ok h.nodes.length, h.addNode { registry := r }) := rfl
  have hnamed (hname : name ≠ .null) : (createNamed name r).run h =
      (register r name (.node h.nodes.length)).run (h.addNode { registry := r }) := by
    cases name with
    | null => exact absurd rfl hname
    | _ => rw [createNamed, run_bind_ok hcreate]
  by_cases hname : name = .null
  · rw [hname]
    exact .of_ok (a := h.nodes.length) rfl
  · rcases run_register_cases (h.addNode { registry := r }) r name (.node h.nodes.length) with
      ⟨f, hregister⟩ | ⟨_, n, -, -, -, -, hregister⟩
    · exact .of_error ((hnamed hname).trans hregister) (.extend h [{ registry := r }])
    · exact .of_ok ((hnamed hname).trans hregister)

section call

variable {σ : Type}

namespace Call

def Builds (h : Heap (Object σ)) : Call σ → Prop
  | .newNode .. | .compile .. => True
  | .operate n op => n < h.nodes.length ∧ op.Builderless
  | _ => False

def Interrupted [Inspect (Object σ)] (h : Heap (Object σ)) (f : Fault (Object σ))
    (h' : Heap (Object σ)) : Call σ → Prop
  | .operate n op => h.Interrupted n f h' op
  | _ => False

end Call

/-- A call that builds schemas without a builder and fails leaves all registries as they were, and
all nodes that were there unless it was interrupted between two changes: then the fields that were
copied or added by then stay, or the flags that were taken over. -/
theorem failed_call_keeps_iff [Caller σ] [Inspect (Object σ)] {h h' : Heap (Object σ)}
    (hh : h.Regular) {call : Call σ} (hcall : call.Builds h) {f : Fault (Object σ)}
    (hrun : call.run.run h = (.error f, h')) :
    h'.registries = h.registries ∧ (h.Kept h' ↔ ¬ call.Interrupted h f h') := by
  have hquiet (hkept : h.Kept h') (hcall : ¬ call.Interrupted h f h') :
      h'.registries = h.registries ∧ (h.Kept h' ↔ ¬ call.Interrupted h f h') :=
    ⟨hkept.registries, fun _ => hcall, fun _ => hkept⟩
  cases call with
  | newNode name registry =>
      refine hquiet ?_ id
      change (Build.of registry.toRegistry >>= fun r => Build.createNamed name r >>= fun n =>
        pure (Call.node n)).run h = (.error f, h') at hrun
      cases hregistry : registry.toRegistry with
      | error g =>
          rw [hregistry] at hrun
          cases hrun
          exact .refl h
      | ok r =>
          rw [hregistry] at hrun
          exact Build.failsQuietly_createNamed name r h f h'
            (Build.run_of_bind_error hrun fun _ _ => ⟨_, _, rfl⟩)
  | operate n op =>
      obtain ⟨hn, hop⟩ := hcall
      have hoperation : (op.run n).run h = (.error f, h') :=
        Build.run_of_bind_error hrun fun _ _ => ⟨_, _, rfl⟩
      rcases op.kept_or_interrupted hh hn hop hoperation with hkept | hinterrupted
      · exact hquiet hkept fun hinterrupted => (hinterrupted.changed hn).2 hkept
      · obtain ⟨hregistries, hchanged⟩ := hinterrupted.changed hn
        exact ⟨hregistries, fun hkept => absurd hkept hchanged,
          fun hnot => absurd hinterrupted hnot⟩
  | compile host wording schema mapper options verifier =>
      refine hquiet ?_ id
      have hcompile := Build.run_of_bind_error hrun fun _ _ => ⟨_, _, rfl⟩
      have hheap : (SchemaTree.compile host schema.toSchemaArg mapper options.toOptionsArg
          (verifier.toPipeline wording) h).2 = h' := congrArg Prod.snd hcompile
      exact hheap ▸ Heap.Kept.compileWith (fun _ => host) mapper _ _ _ h
  | _ => exact hcall.elim

end call

/-- The objects of a program that reads a meter: a line to it cannot be copied, and a reading does
not tell whether it counts as true. -/
inductive Meter where
  | line
  | reading

namespace Meter

instance : Caller Meter where
  kind _ := "Meter"
  text _ := "<meter>"
  truth
    | .line => .ok true
    | .reading =>
      .error (.valueError "truth value is ambiguous")
  callable _ := false
  copying
    | .line => .anew (.error (.raised {
        kind := "TypeError", message := "no copy", classes := [.typeError] })) (.ok ())
    | .reading => .itself
  map _ m := m
  rule _ _ := none
  mapper _ := none
  phrase _ := none
  pipeline _ _ := none

def own (m : Meter) : Value (Object Meter) := .object (.own .fresh m)

/-- A meter has a name and a line, and there is a node for another meter. -/
def moments : List (Moment (Object Meter)) :=
  [.create .null Heap.defaultRegistry,
    .operate 0 (.required (.str "name") .null),
    .operate 0 (.required (.str "line") (own .line)),
    .create .null Heap.defaultRegistry].map fun act => ⟨Session.inspect {}, act⟩

def onlyOptional : Flags (Object Meter) where
  required := .ok false
  array := .error (.misuse .noSuchPart)
  strict := .error (.misuse .noSuchPart)

def turn (n : NodeId) (op : Operation (Object Meter)) : Turn Meter :=
  ⟨Session.inspect {}, .operate n op⟩

end Meter

open Meter in
/-- A name that is not registered is refused, and nothing that was there changes. -/
theorem unknown_name_keeps :
    ∃ f h', (turn 3 (.object (.named "meter"))).run.run (Heap.initial.course moments) =
        (.error f, h') ∧ (Heap.initial.course moments).Kept h' := by
  have hregular := Heap.regular_initial.course moments
  have hrun : (turn 3 (.object (.named "meter"))).run.run (Heap.initial.course moments) =
      (.error (.unknownSchema "meter" (.str "schemas") []), Heap.initial.course moments) := rfl
  have hcall : (turn 3 (.object (.named "meter"))).call.Builds (Heap.initial.course moments) :=
    ⟨by decide, trivial⟩
  refine ⟨_, _, hrun, (@failed_call_keeps_iff Meter _ (Session.inspect {}) _ _ hregular _ hcall _
    hrun).2.mpr ?_⟩
  rintro (⟨hop | hop, -, hsource⟩ | ⟨hop | hop⟩ | ⟨hop⟩)
  · cases hop
    exact nomatch hsource
  · exact nomatch hop
  · exact nomatch hop
  · exact nomatch hop
  · exact nomatch hop

open Meter in
/-- The node for another meter keeps the copy that was made before the line, and its fields cannot
be defined any more. A field stays for which rules were refused, and a name need not be given any
more that was made like what only says so. -/
theorem meter_half_copied :
    let h := Heap.initial.course moments
    (∃ h', (turn 3 (.object (.node 0))).run.run h =
        (.error (.raised {
          kind := "TypeError", message := "no copy", classes := [.typeError] }), h') ∧
      (h.node 3).fields = none ∧ (h'.node 3).fields = some [("name", 4)] ∧
      ((turn 3 (.object (.node 1))).run.run h').1 =
        .error (.alreadyDefined (sortedNames ["name"]))) ∧
    (∃ h', (turn 1 (.required (.str "unit") (own .reading))).run.run h =
        (.error (.valueError "truth value is ambiguous"), h') ∧
      (h.node 1).fields = none ∧ (h'.node 1).fields = some [("unit", 4)]) ∧
    ∃ h', (turn 1 (.like (.object onlyOptional))).run.run h =
        (.error (.misuse .noSuchPart), h') ∧
      (h.node 1).required = true ∧ (h'.node 1).required = false :=
  ⟨⟨_, rfl, rfl, rfl, rfl⟩, ⟨_, rfl, rfl, rfl⟩, _, rfl, rfl, rfl⟩

end SchemaTree
