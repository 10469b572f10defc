import SchemaTree.Proofs.CopiedFields
import SchemaTree.Proofs.Description
import SchemaTree.Proofs.OwnCopies

/-!
Nodes whose fields are defined by another node. They get copies of its fields, as these were before,
unless a field behind the first one has the node itself somewhere below it: that is copied with the
fields that the node has been given by then.
-/

namespace SchemaTree

variable {κ : Type}

namespace Heap

theorem Reaches.eq_or_field {h : Heap κ} {n m : NodeId} (hm : h.Reaches n m) :
    m = n ∨ ∃ f ∈ (h.node n).fields.getD [], h.Reaches f.2 m := by
  induction hm with
  | refl => exact .inl rfl
  | field _ hf ih =>
      rcases ih with rfl | ⟨g, hg, hreach⟩
      · exact .inr ⟨_, hf, .refl⟩
      · exact .inr ⟨g, hg, hreach.field hf⟩

variable [Inspect κ]

section overlap

variable {n : NodeId} {h h' : Heap κ} (hsame : SameBut n h h')

include hsame

/-- A node from which the target is not reached is copied as it was before the target changed. -/
theorem SameBut.copyTree_eq {m : NodeId} {t : Tree κ} (hm : h.Holds m t)
    (hcopies : t.Each fun u => CopyableRules u.rules) (hapart : ¬ h.Reaches m n) :
    h'.copyTree m = .ok (t.withRules Tree.copiedRules) := by
  refine Holds.copyTree_eq (hm.of_same hsame.grows fun k hk => ?_) hcopies
  refine hsame.same k (hm.lt_of_reaches hk) ?_
  rintro rfl
  exact hapart hk

/-- A node from which the target is reached is not copied as it was, once the target has fields. -/
theorem SameBut.not_reaches_of_copyTreeTo (hnone : (h.node n).fields = none)
    (hsome : (h'.node n).fields ≠ none) {m : NodeId} {t : Tree κ} (hm : h.Holds m t) {depth : Nat}
    {f : Option (List (Value κ)) → Option (List (Value κ))}
    (hcopy : h'.copyTreeTo depth m = .ok (t.withRules f)) : ¬ h.Reaches m n := by
  induction t using Tree.induction_on_fields generalizing m depth with
  | step t ih =>
      obtain _ | depth := depth
      · exact nomatch hcopy
      have hheld := holds_iff.mp hm
      by_cases hmn : m = n
      · subst hmn
        obtain ⟨ts, -, -, hfields⟩ := copyTreeTo_succ_eq_ok hcopy
        have hleaf : t.fields = none := by
          have hrecord := hheld.isNone_fields
          rw [hnone] at hrecord
          simpa using hrecord.symm
        rw [Tree.withRules_eq, Tree.fields, hleaf] at hfields
        exact absurd (Option.map_eq_none_iff.mp hfields.symm) hsome
      · have hcopies := forall₂_fieldList_of_copyTreeTo hcopy
        rw [hsame.same m hheld.inHeap hmn, Tree.fieldList_withRules,
          List.forall₂_map_right_iff] at hcopies
        intro hreach
        rcases hreach.eq_or_field with heq | ⟨c, hc, hreach⟩
        · exact hmn heq.symm
        · obtain ⟨g, hg, hholds, -, hcopy⟩ := exists_right_of_mem
            (List.Forall₂.mp (fun _ _ hheld hcopied => And.intro hheld hcopied)
              hheld.fieldList hcopies) hc
          exact ih g hg hholds.2 hcopy hreach

end overlap

end Heap

variable [Inspect κ]

def Operation.arrayOn (p : Node κ) : Operation κ → Option Bool
  | .arrayOf _ => some true
  | _ => p.array

/-- What a node is after the fields of `t` were copied onto it. The fields are the given trees, each
of new nodes of its own; the rest is that of `t` or as it was. -/
structure Heap.CopiedOnto (h h' : Heap κ) (n : NodeId) (t : Tree κ) (array : Option Bool)
    (trees : List (String × Tree κ)) : Prop extends Heap.SameBut n h h' where
  fields : List.Forall₂ h'.HoldsField ((h'.node n).fields.getD []) trees
  undefined : trees = [] → (h'.node n).fields = none
  names : trees.map (·.1) = t.names
  new : ∀ c ∈ (h'.node n).fields.getD [], ∀ k, h'.Reaches c.2 k → h.nodes.length ≤ k
  apart : ((h'.node n).fields.getD []).Pairwise fun c d =>
    ∀ k, h'.Reaches c.2 k → ¬ h'.Reaches d.2 k
  rules : (h'.node n).rules = (Tree.copiedRules t.rules).or (h.node n).rules
  required : (h'.node n).required = t.required
  array : (h'.node n).array = array
  strict : (h'.node n).strict = (h.node n).strict
  registry : (h'.node n).registry = (h.node n).registry
  registries : h'.registries = h.registries

namespace Heap

variable {h h' : Heap κ} {n : NodeId} {t : Tree κ} {array : Option Bool}
  {trees others : List (String × Tree κ)}

theorem CopiedOnto.trees_unique (hcopied : h.CopiedOnto h' n t array trees)
    (hother : h.CopiedOnto h' n t array others) : trees = others :=
  fields_unique hcopied.fields hother.fields fun _ _ _ _ hf hu => holds_unique hf hu

theorem Received.copiedOnto {p : Node κ} {fields : List (String × NodeId)}
    (hreceived : h.Received n trees fields h') (hn : n < h.nodes.length)
    (hnone : (h.node n).fields = none) (hp : p.fields = (h'.node n).fields)
    (hnames : trees.map (·.1) = t.names)
    (hrules : p.rules = (Tree.copiedRules t.rules).or (h.node n).rules)
    (hrequired : p.required = t.required) (hstrict : p.strict = (h.node n).strict)
    (hregistry : p.registry = (h.node n).registry) :
    h.CopiedOnto (h'.setNode n p) n t p.array trees := by
  have hself : (h'.setNode n p).node n = p :=
    node_setNode_self (Nat.lt_of_lt_of_le hn hreceived.grows) p
  have hfields : p.fields.getD [] = fields := by
    rw [hp, hreceived.node, Node.fields_withFields, hnone]
    rfl
  have hsame {c : String × NodeId} (hc : c ∈ fields) (k : NodeId) (hk : h'.Reaches c.2 k) :
      (h'.setNode n p).node k = h'.node k :=
    node_setNode_of_ne h' p (Nat.ne_of_lt (Nat.lt_of_lt_of_le hn (hreceived.new c hc k hk)))
  have hreaches {c : String × NodeId} (hc : c ∈ fields) {k : NodeId}
      (hk : (h'.setNode n p).Reaches c.2 k) : h'.Reaches c.2 k := hk.of_same (hsame hc)
  have hlength : h'.nodes.length ≤ (h'.setNode n p).nodes.length :=
    Nat.le_of_eq (length_setNode ..).symm
  exact {
    grows := Nat.le_trans hreceived.grows hlength
    same := fun k hk hne => by rw [node_setNode_of_ne _ _ hne.symm, hreceived.same k hk hne]
    fields := by
      rw [hself, hfields]
      exact forall₂_holdsField_of_same hreceived.trees fun c hc g hg hheld =>
        hheld.of_same hlength (hsame hc)
    undefined := by
      rintro rfl
      have hempty : fields = [] := List.forall₂_nil_right_iff.mp hreceived.trees
      rw [hself, hp, hreceived.node, hempty]
      exact hnone
    names := hnames
    new := by
      rw [hself, hfields]
      exact fun c hc k hk => hreceived.new c hc k (hreaches hc hk)
    apart := by
      rw [hself, hfields]
      exact hreceived.apart.imp_of_mem fun hc hd hcd k hk hk' =>
        hcd k (hreaches hc hk) (hreaches hd hk')
    rules := by rw [hself, hrules]
    required := by rw [hself, hrequired]
    array := by rw [hself]
    strict := by rw [hself, hstrict]
    registry := by rw [hself, hregistry]
    registries := hreceived.registries }

omit [Inspect κ] in
theorem finish_setNode {op : Operation κ} (hn : n < h.nodes.length) (p : Node κ) :
    op.finish n (h.setNode n p) = h.setNode n { p with array := op.arrayOn p } := by
  cases op with
  | arrayOf source =>
      rw [Operation.finish, node_setNode_self hn, setNode_setNode]
      rfl
  | _ => rfl

namespace Copies

variable {before : Heap κ} {fs : List (String × NodeId)} {gs : List (String × Tree κ)}

/-- Once the target has fields, a field is copied as it was before if and only if the target is not
somewhere below it. -/
theorem trees_eq_iff_of_sameBut (hcopies : Copies n h fs trees h') (hsame : SameBut n before h)
    (hn : n < before.nodes.length) (hnone : (before.node n).fields = none)
    (hsome : (h.node n).fields ≠ none) (hheld : (h.node n).fieldsMark = .fresh)
    (hgs : List.Forall₂ before.HoldsField fs gs)
    (hrules : ∀ g ∈ gs, g.2.Each fun u => CopyableRules u.rules) :
    trees = gs.map (fun g => (g.1, g.2.withRules Tree.copiedRules)) ↔
      ∀ f ∈ fs, ¬ before.Reaches f.2 n := by
  induction hcopies generalizing gs with
  | nil h =>
      cases hgs
      exact ⟨fun _ => nofun, fun _ => rfl⟩
  | @cons h h' f fs t ts ht rest ih =>
      obtain _ | ⟨hfield, hgs⟩ := hgs
      rename_i g gs
      rw [List.forall_mem_cons] at hrules
      have hlt := Nat.lt_of_lt_of_le hn hsame.grows
      have hself := node_withCopy_self hlt hheld f.1 t
      have hrest := ih (hsame.trans (sameBut_withCopy hlt hheld f.1 t))
        (by rw [hself]; exact nofun) (fieldsMark_withCopy hlt hheld f.1 t) hgs hrules.2
      rw [List.map_cons, List.cons_eq_cons, List.forall_mem_cons, hrest]
      refine and_congr_left fun _ => ⟨fun hhead => ?_, fun hapart => ?_⟩
      · rw [(Prod.mk.inj hhead).2] at ht
        exact hsame.not_reaches_of_copyTreeTo hnone hsome hfield.2 ht
      · rw [hsame.copyTree_eq hfield.2 hrules.1 hapart] at ht
        exact Prod.ext hfield.1 (Except.ok.inj ht).symm

theorem trees_eq_iff (hcopies : Copies n h fs trees h') (hn : n < h.nodes.length)
    (hnone : (h.node n).fields = none) (hheld : (h.node n).fieldsMark = .fresh)
    (hgs : List.Forall₂ h.HoldsField fs gs)
    (hrules : ∀ g ∈ gs, g.2.Each fun u => CopyableRules u.rules) :
    trees = gs.map (fun g => (g.1, g.2.withRules Tree.copiedRules)) ↔
      ∀ f ∈ fs.tail, ¬ h.Reaches f.2 n := by
  cases hcopies with
  | nil h =>
      cases hgs
      exact ⟨fun _ => nofun, fun _ => rfl⟩
  | @cons _ _ f fs t ts ht rest =>
      obtain _ | ⟨hfield, hgs⟩ := hgs
      rename_i g gs
      rw [List.forall_mem_cons] at hrules
      have hhead : (f.1, t) = (g.1, g.2.withRules Tree.copiedRules) := by
        rw [hfield.2.copyTree_eq hrules.1] at ht
        exact Prod.ext hfield.1 (Except.ok.inj ht).symm
      have hself := node_withCopy_self hn hheld f.1 t
      rw [List.map_cons, List.cons_eq_cons, List.tail_cons, ← hhead]
      exact (and_iff_right rfl).trans (rest.trees_eq_iff_of_sameBut
        (sameBut_withCopy hn hheld f.1 t) hn hnone (by rw [hself]; exact nofun)
        (fieldsMark_withCopy hn hheld f.1 t) hgs hrules.2)

end Copies

variable {m : NodeId}

theorem Copies.copiedOnto (hcopies : Copies n h ((h.node m).fields.getD []) trees h')
    (hn : n < h.nodes.length) (hnone : (h.node n).fields = none)
    (hheld : (h.node n).fieldsMark = .fresh) (hm : h.Holds m t)
    (hrules : CopyableRules t.rules) {rules : Option (List (Value κ))}
    (hcopied : copyRules (h'.node m).rules = .ok rules) (mark : Mark) (op : Operation κ) :
    h.CopiedOnto (op.finish n (h'.setNode n { h'.node n with
      rules := rules.or (h'.node n).rules
      rulesMark := mark
      required := (h'.node m).required })) n t (op.arrayOn (h.node n)) trees := by
  obtain ⟨fields, hreceived⟩ := hcopies.received hn hheld
  have hmheld := holds_iff.mp hm
  have htarget := hreceived.node_eq hn
  have hsource := hreceived.node_eq hmheld.inHeap
  have hown : rules = Tree.copiedRules t.rules := by
    rw [hsource, hmheld.rules, hrules.copyRules_eq] at hcopied
    exact (Except.ok.inj hcopied).symm
  have harray : op.arrayOn (h.node n) = op.arrayOn (h'.node n) := by
    rw [htarget]
    cases op <;> rfl
  rw [finish_setNode (Nat.lt_of_lt_of_le hn hreceived.grows), harray]
  refine hreceived.copiedOnto hn hnone rfl ?_ ?_ ?_ ?_ ?_
  · rw [hcopies.names]
    exact hmheld.names
  · show rules.or (h'.node n).rules = _
    rw [hown, htarget]
  · show (h'.node m).required = _
    rw [hsource]
    exact hmheld.required
  · show (h'.node n).strict = _
    rw [htarget]
  · show (h'.node n).registry = _
    rw [htarget]

theorem Copies.not_stopsAt {done rest : List (String × NodeId)} {f : Fault κ}
    (hcopies : Copies n h done trees h') (hfields : (h.node m).fields.getD [] = done ++ rest)
    (hn : n < h.nodes.length) (hheld : (h.node n).fieldsMark = .fresh) (hm : h.Holds m t)
    (hrules : t.Each fun u => CopyableRules u.rules)
    (hapart : ∀ g ∈ ((h.node m).fields.getD []).tail, ¬ h.Reaches g.2 n) :
    ¬ StopsAt h' m f rest := by
  obtain ⟨fields, hreceived⟩ := hcopies.received hn hheld
  have hmheld := holds_iff.mp hm
  intro hstop
  cases hstop with
  | rules hf =>
      rw [hreceived.node_eq hmheld.inHeap, hmheld.rules, hrules.root.copyRules_eq] at hf
      exact nomatch hf
  | @field g rest hf =>
      have hg : g ∈ (h.node m).fields.getD [] := by simp [hfields]
      obtain ⟨u, hu, hgheld⟩ := exists_right_of_mem hmheld.fieldList hg
      have hcopy : ∃ v, h'.copyTree g.2 = .ok v := by
        cases done with
        | nil =>
            cases hcopies
            exact ⟨_, hgheld.2.copyTree_eq (hrules.field hu)⟩
        | cons d done =>
            have htail : g ∈ ((h.node m).fields.getD []).tail := by simp [hfields]
            exact ⟨_, hreceived.copyTree_eq hgheld.2 (hrules.field hu) (hapart g htail)⟩
      obtain ⟨v, hv⟩ := hcopy
      rw [hv] at hf
      exact nomatch hf

end Heap

/-- Defining the fields of a node by another one gives it copies of the fields of the other, in
their order, of new nodes, and copies of its rules if it has any; no other node changes. Each copy
shows the field as it was when its turn came. That is as it was before for all of them if and only
if the target is not somewhere below a field behind the first one. -/
theorem object_copies_iff {h : Heap κ} (hh : h.Regular) {n m : NodeId} {t : Tree κ}
    {source : Source κ} {op : Operation κ} (hn : n < h.nodes.length)
    (hnone : (h.node n).fields = none) (hsource : source.Refers h (h.node n).registry m)
    (hm : h.Holds m t) (hrules : t.Each fun u => CopyableRules u.rules)
    (hop : op = .object source ∨ op = .arrayOf source) :
    (∀ c h', (op.run n).run h = (.ok c, h') →
      c = n ∧ ∃ trees, (∃ middle, Heap.Copies n h ((h.node m).fields.getD []) trees middle) ∧
        h.CopiedOnto h' n t (op.arrayOn (h.node n)) trees) ∧
    ((∃ h', (op.run n).run h = (.ok n, h') ∧ h.CopiedOnto h' n t (op.arrayOn (h.node n))
        (t.fieldList.map fun g => (g.1, g.2.withRules Tree.copiedRules))) ↔
      ∀ f ∈ ((h.node m).fields.getD []).tail, ¬ h.Reaches f.2 n) := by
  have hheld := (hh n).unheld hnone
  rcases Build.run_similar_cases hn hnone hheld (hh m).distinct with
    ⟨trees, rules, mark, h', hcopies, hcopied, hrun⟩ |
    ⟨done, rest, trees, f, h', hfields, hcopies, hstop, hrun⟩
  · have hrun := Build.run_defining_of_ok hnone hsource hop hrun
    have hresult := hcopies.copiedOnto hn hnone hheld hm hrules.root hcopied mark op
    have hiff := hcopies.trees_eq_iff hn hnone hheld (Heap.holds_iff.mp hm).fieldList
      fun g hg => hrules.field hg
    rw [hrun, ← hiff]
    refine ⟨fun c h'' heq => ?_, fun ⟨h'', heq, hsame⟩ => ?_, ?_⟩
    · cases heq
      exact ⟨rfl, trees, ⟨h', hcopies⟩, hresult⟩
    · cases heq
      exact hresult.trees_unique hsame
    · rintro rfl
      exact ⟨_, rfl, hresult⟩
  · have hrun := Build.run_defining_of_error hnone hsource hop hrun
    rw [hrun]
    refine ⟨nofun, nofun, fun hapart => ?_⟩
    exact (hcopies.not_stopsAt hfields hn hheld hm hrules hapart hstop).elim

namespace OrderFunction

def replacing (names : List String) : List (Moment OrderFunction) :=
  (.create (.str "order") Heap.defaultRegistry ::
    names.map fun name => .operate 0 (.optional (.str name) .null)).map
      fun act => ⟨inferInstance, act⟩

def replacingOrder (names : List String) : Tree OrderFunction :=
  .node Heap.defaultRegistry true none false none (some (names.map fun name =>
    (name, .node Heap.defaultRegistry false none false none none)))

theorem replacing_holds {names : List String}
    (hnames : names = ["replaces", "items"] ∨ names = ["items", "replaces"]) :
    (Heap.initial.course (replacing names)).Holds 0 (replacingOrder names) := by
  have hheap : Heap.initial.course (replacing names) = {
      nodes := { registry := Heap.defaultRegistry, fields := some (names.zip [1, 2]) } ::
        names.map fun _ => { registry := Heap.defaultRegistry, required := false }
      registries := [{ name := .str "schemas", entries := [("order", 0)] }] } := by
    rcases hnames with rfl | rfl <;> rfl
  rw [hheap]
  rcases hnames with rfl | rfl <;>
    simp [replacingOrder, Heap.Holds, Heap.HoldsRecord, Heap.HoldsAll, Heap.node]

end OrderFunction

open OrderFunction in
/-- An order that is replaced is an order itself, by name. Its field comes first. -/
theorem replaced_order_copied :
    let h := Heap.initial.course (replacing ["replaces", "items"])
    let t := replacingOrder ["replaces", "items"]
    ∃ h', ((Operation.object (.named "order")).run 1).run h = (.ok 1, h') ∧
      h.CopiedOnto h' 1 t none
        (t.fieldList.map fun g => (g.1, g.2.withRules Tree.copiedRules)) := by
  have hheld := replacing_holds (.inl rfl)
  have hrules : (replacingOrder ["replaces", "items"]).Each fun u => CopyableRules u.rules :=
    Tree.each_of_forall (fun u => Value.exists_deepCopyAll (fun o => ⟨o, rfl⟩) _) _
  have hsource : (Source.named "order").Refers
      (Heap.initial.course (replacing ["replaces", "items"])) Heap.defaultRegistry 0 := rfl
  refine (object_copies_iff (Heap.regular_initial.course _) (by decide) rfl hsource hheld hrules
    (.inl rfl)).2.mpr fun f hf hreach => ?_
  obtain rfl : f = ("items", 2) := List.mem_singleton.mp hf
  have hitself : 1 = 2 := hreach.mem_of_closed (P := (· = 2)) rfl fun k hk f hf => by
    subst hk
    exact nomatch hf
  exact nomatch hitself

open OrderFunction in
/-- Where its field comes behind the items, the copy of the field has items of its own. -/
theorem replaced_order_copied_late :
    let h := Heap.initial.course (replacing ["items", "replaces"])
    let t := replacingOrder ["items", "replaces"]
    h.Holds 0 t ∧ (h.node 2).fields = none ∧
      ∃ h', ((Operation.object (.named "order")).run 2).run h = (.ok 2, h') ∧
        (h'.node 2).fields = some [("items", 3), ("replaces", 5)] ∧
        (h'.node 5).fields = some [("items", 4)] ∧
        ¬ h.CopiedOnto h' 2 t none
          (t.fieldList.map fun g => (g.1, g.2.withRules Tree.copiedRules)) := by
  have hrun : ((Operation.object (.named "order")).run 2).run
      (Heap.initial.course (replacing ["items", "replaces"])) = (.ok 2, {
        nodes := [
          { registry := Heap.defaultRegistry, fields := some [("items", 1), ("replaces", 2)] },
          { registry := Heap.defaultRegistry, required := false },
          { registry := Heap.defaultRegistry, fields := some [("items", 3), ("replaces", 5)] },
          { registry := Heap.defaultRegistry, required := false },
          { registry := Heap.defaultRegistry, required := false },
          { registry := Heap.defaultRegistry, required := false, fields := some [("items", 4)] }]
        registries := [{ name := .str "schemas", entries := [("order", 0)] }] }) := rfl
  refine ⟨replacing_holds (.inr rfl), rfl, _, hrun, rfl, rfl, fun hcopied => ?_⟩
  obtain ⟨-, hlast⟩ := List.forall₂_cons.mp hcopied.fields
  obtain ⟨⟨-, hreplaced⟩, -⟩ := List.forall₂_cons.mp hlast
  exact nomatch (Heap.holds_iff.mp hreplaced).fields

end SchemaTree
