import SchemaTree.Builder
import SchemaTree.Proofs.TreeLayout

/-!
What the operations on a schema change. Each operation is made of a few kinds of changes, so a
property of heaps that each of these keeps is kept by all operations. Where no two nodes share a
list of rules or a record of fields, the changes are at the nodes that an operation is aimed at and
at new ones.
-/

namespace SchemaTree

variable {κ α β : Type}

namespace Build

theorem run_bind (x : Build κ α) (g : α → Build κ β) (h : Heap κ) :
    (x >>= g).run h = match x.run h with
      | (.ok a, h') => (g a).run h'
      | (.error f, h') => (.error f, h') := by
  simp only [ExceptT.run, bind, ExceptT.bind, ExceptT.mk, ExceptT.bindCont, StateT.bind]
  cases x h with
  | mk outcome h' => cases outcome <;> rfl

theorem run_of_ok (h : Heap κ) (a : α) : (of (.ok a)).run h = (.ok a, h) := rfl

theorem run_observed (x : Build κ α) (h : Heap κ) :
    x.observed.run h = (.ok (x.run h).1, (x.run h).2) := rfl

theorem run_node (h : Heap κ) (n : NodeId) : (node n).run h = (.ok (h.node n), h) := rfl

theorem run_registry (h : Heap κ) (r : RegistryId) :
    (registry r).run h = (.ok (h.registry r), h) := rfl

/-- From the heap `h` on a computation ends in a heap that has the property `I`, and returns what
has the property `P`, if anything. -/
structure Keeps (I : Heap κ → Prop) (P : α → Prop) (x : Build κ α) (h : Heap κ) : Prop where
  heap : I (x.run h).2
  result : ∀ a, (x.run h).1 = .ok a → P a

namespace Keeps

variable {I : Heap κ → Prop} {P Q : α → Prop} {R : β → Prop} {x : Build κ α} {g : α → Build κ β}
  {h h' : Heap κ} {a : α}

theorem mono (hx : Keeps I P x h) (hPQ : ∀ a, P a → Q a) : Keeps I Q x h :=
  ⟨hx.heap, fun a ha => hPQ a (hx.result a ha)⟩

theorem bind (hx : Keeps I P x h)
    (hg : ∀ a h', x.run h = (.ok a, h') → I h' → P a → Keeps I R (g a) h') :
    Keeps I R (x >>= g) h := by
  obtain ⟨hheap, hresult⟩ := hx
  cases hrun : x.run h with
  | mk outcome h' =>
      rw [hrun] at hheap hresult
      cases outcome with
      | error f =>
          constructor
          · rw [run_bind, hrun]
            exact hheap
          · rw [run_bind, hrun]
            exact nofun
      | ok a =>
          have hnext := hg a h' hrun hheap (hresult a rfl)
          constructor
          · rw [run_bind, hrun]
            exact hnext.heap
          · rw [run_bind, hrun]
            exact hnext.result

theorem pure (hI : I h) (ha : P a) : Keeps I P (pure a) h := by
  refine ⟨hI, fun b hb => ?_⟩
  obtain rfl := Except.ok.inj hb
  exact ha

theorem throw (hI : I h) (f : Fault κ) : Keeps I P (throw f : Build κ α) h :=
  ⟨hI, nofun⟩

theorem of_ok (hx : x.run h = (.ok a, h')) (hI : I h') (ha : P a) : Keeps I P x h := by
  refine ⟨by rw [hx]; exact hI, fun b hb => ?_⟩
  rw [hx] at hb
  exact Except.ok.inj hb ▸ ha

theorem of_error {f : Fault κ} (hx : x.run h = (.error f, h')) (hI : I h') : Keeps I P x h := by
  refine ⟨by rw [hx]; exact hI, fun b hb => ?_⟩
  rw [hx] at hb
  exact nomatch hb

theorem of_bind (hx : x.run h = (.ok a, h')) (hg : Keeps I R (g a) h') :
    Keeps I R (x >>= g) h := by
  constructor
  · rw [run_bind_ok hx]
    exact hg.heap
  · rw [run_bind_ok hx]
    exact hg.result

theorem of_modify {u : Heap κ → Heap κ} {g : Unit → Build κ β} (hg : Keeps I R (g ()) (u h)) :
    Keeps I R (modify u >>= g) h :=
  of_bind (a := ()) rfl hg

theorem of_node {n : NodeId} {g : Node κ → Build κ β} (hg : Keeps I R (g (h.node n)) h) :
    Keeps I R (Build.node n >>= g) h :=
  of_bind (a := h.node n) rfl hg

theorem of_except {outcome : Except (Fault κ) α} (hI : I h)
    (hg : ∀ a, outcome = .ok a → Keeps I R (g a) h) : Keeps I R (Build.of outcome >>= g) h := by
  cases outcome with
  | error f => exact ⟨hI, nofun⟩
  | ok a => exact of_bind (a := a) rfl (hg a rfl)

/-- What is done next goes by how a computation ended. -/
theorem of_observed {g : Except (Fault κ) α → Build κ β}
    (hg : Keeps I R (g (x.run h).1) (x.run h).2) : Keeps I R (x.observed >>= g) h :=
  of_bind (run_observed x h) hg

end Keeps

end Build

namespace Node

def withField (p : Node κ) (name : String) (child : NodeId) : Node κ :=
  { p with fields := some (p.fields.getD [] ++ [(name, child)]) }

def withFields (p : Node κ) (ns : List (String × NodeId)) : Node κ :=
  ns.foldl (fun p f => p.withField f.1 f.2) p

theorem withFields_of_ne_nil (p : Node κ) {ns : List (String × NodeId)} (hns : ns ≠ []) :
    p.withFields ns = { p with fields := some (p.fields.getD [] ++ ns) } := by
  induction ns generalizing p with
  | nil => exact absurd rfl hns
  | cons f ns ih =>
      cases ns with
      | nil => rfl
      | cons g ns =>
          have hrest := ih (p.withField f.1 f.2) (List.cons_ne_nil g ns)
          simp only [withField, Option.getD_some, List.append_assoc] at hrest
          exact hrest

theorem fields_withFields (p : Node κ) (ns : List (String × NodeId)) :
    (p.withFields ns).fields.getD [] = p.fields.getD [] ++ ns := by
  cases ns with
  | nil => exact (List.append_nil _).symm
  | cons f ns => rw [withFields_of_ne_nil p (List.cons_ne_nil f ns), Option.getD_some]

theorem withFields_eq (p : Node κ) (ns : List (String × NodeId)) :
    p.withFields ns = { p with fields := (p.withFields ns).fields } := by
  cases ns with
  | nil => rfl
  | cons f ns => rw [withFields_of_ne_nil p (List.cons_ne_nil f ns)]

theorem withFields_withFields (p : Node κ) (ns more : List (String × NodeId)) :
    (p.withFields ns).withFields more = p.withFields (ns ++ more) :=
  List.foldl_append.symm

end Node

namespace Heap

/-- No two nodes have a list of rules or a record of fields in common. -/
def Unshared (h : Heap κ) : Prop :=
  ∀ p ∈ h.nodes, p.rulesMark = .fresh ∧ p.fieldsMark = .fresh

theorem length_setNode (h : Heap κ) (n : NodeId) (p : Node κ) :
    (h.setNode n p).nodes.length = h.nodes.length := List.length_set

theorem length_addField (h : Heap κ) (n : NodeId) (name : String) (child : NodeId) :
    (h.addField n name child).nodes.length = h.nodes.length := by
  unfold addField
  dsimp only
  split
  · exact List.length_map ..
  · exact length_setNode h n _

/-- A node that is not there has no fields, as a new one has none. -/
theorem fields_node_addNode (h : Heap κ) (r : RegistryId) (n : NodeId) :
    ((h.addNode { registry := r }).node n).fields = (h.node n).fields := by
  rcases Nat.lt_trichotomy n h.nodes.length with hlt | rfl | hgt
  · rw [show (h.addNode { registry := r }).node n = h.node n from node_extend hlt _]
  · simp [node, addNode]
  · rw [node_of_le (Nat.le_of_lt hgt), node_of_le (by simpa [addNode] using Nat.succ_le_of_lt hgt)]

theorem node_setNode_self {h : Heap κ} {n : NodeId} (hn : n < h.nodes.length) (q : Node κ) :
    (h.setNode n q).node n = q := by
  simp [node, setNode, hn]

theorem setNode_setNode (h : Heap κ) (n : NodeId) (p q : Node κ) :
    (h.setNode n p).setNode n q = h.setNode n q := by
  simp [setNode]

/-- A node that is changed twice is changed once by both changes. -/
theorem setNode_modified (h : Heap κ) (n : NodeId) (p : Node κ) (u : Node κ → Node κ) :
    (h.setNode n p).setNode n (u ((h.setNode n p).node n)) = h.setNode n (u p) := by
  by_cases hn : n < h.nodes.length
  · rw [node_setNode_self hn, setNode_setNode]
  · have hsame (q : Node κ) : h.setNode n q = h := by
      rw [setNode, List.set_eq_of_length_le (Nat.le_of_not_lt hn)]
    rw [hsame, hsame, hsame]

theorem node_setNode_of_ne (h : Heap κ) {n m : NodeId} (p : Node κ) (hne : n ≠ m) :
    (h.setNode n p).node m = h.node m := by
  simp [node, setNode, List.getElem?_set_ne hne]

theorem node_setNode_cases (h : Heap κ) (n m : NodeId) (q : Node κ) :
    (h.setNode n q).node m = h.node m ∨ m = n ∧ (h.setNode n q).node m = q := by
  by_cases hne : n = m
  · subst hne
    by_cases hn : n < h.nodes.length
    · exact .inr ⟨rfl, node_setNode_self hn q⟩
    · have hle : h.nodes.length ≤ n := Nat.not_lt.mp hn
      exact .inl (by rw [node_of_le hle, node_of_le (by rwa [length_setNode])])
  · exact .inl (node_setNode_of_ne h q hne)

theorem node_extend_cases (h : Heap κ) (nodes : List (Node κ)) (n : NodeId) :
    (h.extend nodes).node n = h.node n ∨
      h.nodes.length ≤ n ∧ (h.extend nodes).node n ∈ nodes := by
  rcases Nat.lt_or_ge n h.nodes.length with hlt | hge
  · exact .inl (node_extend hlt nodes)
  · rcases Nat.lt_or_ge n (h.extend nodes).nodes.length with hlt | hge'
    · refine .inr ⟨hge, ?_⟩
      rw [nodes_extend, List.length_append] at hlt
      have hget : n - h.nodes.length < nodes.length := Nat.sub_lt_left_of_lt_add hge hlt
      simp [node, List.getElem?_append_right hge, hget]
    · exact .inl (by rw [node_of_le hge, node_of_le hge'])

/-- The second heap is the first one with the node `n` changed and with new nodes. -/
structure SameBut (n : NodeId) (before after : Heap κ) : Prop where
  grows : before.nodes.length ≤ after.nodes.length
  same : ∀ m, m < before.nodes.length → m ≠ n → after.node m = before.node m

namespace SameBut

variable {n c : NodeId} {h h' h'' : Heap κ}

theorem refl (n : NodeId) (h : Heap κ) : SameBut n h h := ⟨Nat.le_refl _, fun _ _ _ => rfl⟩

theorem setNode (n : NodeId) (h : Heap κ) (p : Node κ) : SameBut n h (h.setNode n p) where
  grows := Nat.le_of_eq (length_setNode h n p).symm
  same _ _ hne := node_setNode_of_ne h p hne.symm

theorem trans (h₁ : SameBut n h h') (h₂ : SameBut n h' h'') : SameBut n h h'' where
  grows := Nat.le_trans h₁.grows h₂.grows
  same m hm hne := by
    rw [h₂.same m (Nat.lt_of_lt_of_le hm h₁.grows) hne, h₁.same m hm hne]

/-- A change of a new node is none of the nodes that were there. -/
theorem trans_new (h₁ : SameBut n h h') (hc : h.nodes.length ≤ c) (h₂ : SameBut c h' h'') :
    SameBut n h h'' where
  grows := Nat.le_trans h₁.grows h₂.grows
  same m hm hne := by
    rw [h₂.same m (Nat.lt_of_lt_of_le hm h₁.grows) (Nat.ne_of_lt (Nat.lt_of_lt_of_le hm hc)),
      h₁.same m hm hne]

end SameBut

theorem addField_of_fresh {h : Heap κ} {n : NodeId} (hmark : (h.node n).fieldsMark = .fresh)
    (name : String) (child : NodeId) :
    h.addField n name child = h.setNode n
      { h.node n with fields := some ((h.node n).fields.getD [] ++ [(name, child)]) } := by
  simp only [addField, hmark]
  cases (h.node n).fields <;> rfl

theorem addRules_of_fresh [Inspect κ] {h : Heap κ} {n : NodeId}
    (hmark : (h.node n).rulesMark = .fresh) (added : List (Value κ)) :
    h.addRules n added = h.setNode n
      { h.node n with rules := some ((h.node n).rules.getD [] ++ added) } := by
  simp only [addRules, hmark]
  cases (h.node n).rules <;> rfl

namespace Unshared

variable {h : Heap κ} (hu : h.Unshared)

include hu

theorem node (n : NodeId) : (h.node n).rulesMark = .fresh ∧ (h.node n).fieldsMark = .fresh := by
  by_cases hn : n < h.nodes.length
  · exact hu _ (node_mem hn)
  · rw [node_of_le (Nat.not_lt.mp hn)]
    exact ⟨rfl, rfl⟩

theorem setNode (n : NodeId) {p : Node κ} (hp : p.rulesMark = .fresh ∧ p.fieldsMark = .fresh) :
    (h.setNode n p).Unshared := by
  intro q hq
  rcases List.mem_or_eq_of_mem_set hq with hq | rfl
  · exact hu q hq
  · exact hp

theorem extend {nodes : List (Node κ)}
    (hnodes : ∀ p ∈ nodes, p.rulesMark = .fresh ∧ p.fieldsMark = .fresh) :
    (h.extend nodes).Unshared := by
  intro p hp
  rcases List.mem_append.mp hp with hp | hp
  · exact hu p hp
  · exact hnodes p hp

end Unshared

/-- The second heap came of the first one by changes of the nodes that are `ok`, all new ones among
them, and no two of its nodes share anything. -/
structure ChangedAt (ok : NodeId → Prop) (before after : Heap κ) : Prop where
  new : ∀ m, before.nodes.length ≤ m → ok m
  unshared : after.Unshared
  grows : before.nodes.length ≤ after.nodes.length
  same : ∀ m, ¬ ok m → after.node m = before.node m

namespace ChangedAt

variable {ok : NodeId → Prop} {before h : Heap κ} (hh : ChangedAt ok before h)

include hh

theorem setNode {n : NodeId} (hn : ok n) {p : Node κ}
    (hp : p.rulesMark = .fresh ∧ p.fieldsMark = .fresh) :
    ChangedAt ok before (h.setNode n p) where
  new := hh.new
  unshared := hh.unshared.setNode n hp
  grows := by simpa [Heap.setNode] using hh.grows
  same m hm := by
    have hne : n ≠ m := by
      rintro rfl
      exact hm hn
    rw [node_setNode_of_ne h p hne]
    exact hh.same m hm

theorem extend {nodes : List (Node κ)}
    (hnodes : ∀ p ∈ nodes, p.rulesMark = .fresh ∧ p.fieldsMark = .fresh) :
    ChangedAt ok before (h.extend nodes) where
  new := hh.new
  unshared := hh.unshared.extend hnodes
  grows := by
    have hgrows := hh.grows
    simp only [nodes_extend, List.length_append]
    omega
  same m hm := by
    have hlt : m < before.nodes.length := by
      by_contra hle
      exact hm (hh.new m (Nat.not_lt.mp hle))
    rw [node_extend (Nat.lt_of_lt_of_le hlt hh.grows)]
    exact hh.same m hm

theorem setRegistry (r : RegistryId) (reg : Registry κ) :
    ChangedAt ok before (h.setRegistry r reg) :=
  ⟨hh.new, hh.unshared, hh.grows, hh.same⟩

end ChangedAt

end Heap

/-- The node that is meant is `ok`, be it given itself or by a name of the registry. -/
def SchemaArg.Within (ok : NodeId → Prop) (h : Heap κ) (r : RegistryId) : SchemaArg → Prop
  | .node n => ok n
  | .named name => ∀ m, (h.registry r).find? name = some m → ok m
  | .other _ => True

/-- The argument is the node `n`, given itself or by a name of the registry. -/
def SchemaArg.Refers (h : Heap κ) (r : RegistryId) (n : NodeId) : SchemaArg → Prop
  | .node m => m = n
  | .named name => (h.registry r).find? name = some n
  | .other _ => False

theorem SchemaArg.Within.of_refers {ok : NodeId → Prop} {h : Heap κ} {r : RegistryId}
    {arg : SchemaArg} (harg : arg.Within ok h r) {n : NodeId} (hn : arg.Refers h r n) : ok n := by
  cases arg with
  | node m => exact (hn : m = n) ▸ harg
  | named name => exact harg n hn
  | other kind => exact hn.elim

/-- A node takes a field of that name if it has none of it yet and there is a name. -/
def Node.Takes (p : Node κ) (name : String) : Prop :=
  name ≠ "" ∧ name ∉ (p.fields.getD []).map (·.1)

/-- What operations may be aimed at and given: the nodes that they may change, those that they may
give a field to, and those that they may put under another one. -/
structure Scope (κ : Type) where
  changes : NodeId → Prop
  grows : Heap κ → NodeId → Prop
  attaches : Heap κ → (parent child : NodeId) → Prop
  grows_mono : ∀ {h h' : Heap κ} {n}, h.nodes.length ≤ h'.nodes.length → grows h n → grows h' n

namespace Scope

/-- Whatever is done, it is done to nodes that are `ok`. -/
def only (ok : NodeId → Prop) : Scope κ where
  changes := ok
  grows _ := ok
  attaches _ _ _ := True
  grows_mono _ hn := hn

def all : Scope κ := only fun _ => True

end Scope

section invariant

variable [Inspect κ]

/-- A property of heaps that each change keeps which operations in scope are made of. Copies get the
names of their fields from a heap before. -/
structure Heap.Invariant (s : Scope κ) (I : Heap κ → Prop) : Prop where
  new {h m} (hh : I h) (hm : h.nodes.length ≤ m) : s.changes m
  create {h} (hh : I h) (r : RegistryId) : I (h.addNode { registry := r })
  copy {h n t} (hh : I h) (ht : h.copyTree n = .ok t) : I (h.extend (t.layout h.nodes.length))
  flags {h n} (hh : I h) (hn : s.changes n) (required : Bool) (array : Option Bool)
    (strict : Bool) (harray : (h.node n).array.isSome → array.isSome) :
    I (h.setNode n { h.node n with required, array, strict })
  rules {h n} {added : List (Value κ)} (hh : I h) (hn : s.changes n) (hadded : added ≠ []) :
    I (h.addRules n added)
  copiedRules {h n m xs} (hh : I h) (hn : s.changes n)
    (hxs : Heap.copyRules (h.node m).rules = .ok (some xs)) (required : Bool) :
    I (h.setNode n { h.node n with rules := some xs, rulesMark := .fresh, required })
  newField {h n name} (hh : I h) (hn : s.changes n) (hgrows : s.grows h n)
    (hname : (h.node n).Takes name) (r : RegistryId) :
    I ((h.addNode { registry := r }).addField n name h.nodes.length)
  copiedField {before m name h n f t} (hbefore : I before)
    (hcopied : name ∈ ((before.node m).fields.getD []).map (·.1)) (hh : I h) (hn : s.changes n)
    (hgrows : s.grows h n) (ht : h.copyTree f = .ok t)
    (hname : name ∉ (((h.extend (t.layout h.nodes.length)).node n).fields.getD []).map (·.1)) :
    I ((h.extend (t.layout h.nodes.length)).addField n name (h.nodes.length + t.descendants))
  attached {h n child name} (hh : I h) (hn : s.changes n) (hattaches : s.attaches h n child)
    (hname : (h.node n).Takes name) : I (h.addField n name child)

/-- Where nothing is shared, new nodes and changes of nodes that are `ok` are all there is. -/
theorem Heap.Invariant.of_unshared {ok : NodeId → Prop} {I : Heap κ → Prop}
    (hunshared : ∀ {h}, I h → h.Unshared)
    (hnew : ∀ {h}, I h → ∀ {m}, h.nodes.length ≤ m → ok m)
    (hextend : ∀ {h}, I h → ∀ {nodes : List (Node κ)},
      (∀ p ∈ nodes, p.rulesMark = .fresh ∧ p.fieldsMark = .fresh) → I (h.extend nodes))
    (hsetNode : ∀ {h}, I h → ∀ {n}, ok n → ∀ {p : Node κ},
      p.rulesMark = .fresh ∧ p.fieldsMark = .fresh → I (h.setNode n p)) :
    Heap.Invariant (.only ok) I := by
  have hcreate {h : Heap κ} (hh : I h) (r : RegistryId) : I (h.addNode { registry := r }) :=
    hextend hh (by simp)
  have hcopy {h : Heap κ} (hh : I h) (t : Tree κ) : I (h.extend (t.layout h.nodes.length)) :=
    hextend hh fun _ hp => Tree.marks_of_layout hp
  have hadd {h : Heap κ} (hh : I h) {n : NodeId} (hn : ok n) (name : String) (child : NodeId) :
      I (h.addField n name child) := by
    rw [addField_of_fresh ((hunshared hh).node n).2]
    exact hsetNode hh hn ((hunshared hh).node n)
  exact {
    new := fun hh hm => hnew hh hm
    create := fun hh r => hcreate hh r
    copy := fun hh _ => hcopy hh _
    flags := fun hh hn _ _ _ _ => hsetNode hh hn ((hunshared hh).node _)
    rules := fun hh hn _ => by
      rw [addRules_of_fresh ((hunshared hh).node _).1]
      exact hsetNode hh hn ((hunshared hh).node _)
    copiedRules := fun hh hn _ _ => hsetNode hh hn ⟨rfl, ((hunshared hh).node _).2⟩
    newField := fun hh hn _ _ r => hadd (hcreate hh r) hn _ _
    copiedField := fun _ _ hh hn _ _ _ => hadd (hcopy hh _) hn _ _
    attached := fun hh hn _ _ => hadd hh hn _ _ }

namespace Build

theorem run_current (h : Heap κ) (v : Value κ) : (current v).run h = (.ok (h.current v), h) := rfl

omit [Inspect κ] in
theorem run_attach {h : Heap κ} {parent child : NodeId} {name : String}
    (hnew : name ∉ ((h.node parent).fields.getD []).map (·.1)) :
    (attach parent child name).run h = (.ok child, h.addField parent name child) := by
  have hany : ((h.node parent).fields.getD []).any (·.1 == name) = false := by
    rw [List.any_eq_false]
    intro f hf heq
    exact hnew (List.mem_map.mpr ⟨f, hf, by simpa using heq⟩)
  rw [attach, run_bind_ok (run_node h parent)]
  simp only [hany]
  rfl

omit [Inspect κ] in
theorem run_attach_of_mem {h : Heap κ} {parent : NodeId} {name : String}
    (hmem : name ∈ ((h.node parent).fields.getD []).map (·.1)) (child : NodeId) :
    ∃ names, (attach parent child name).run h = (.error (.duplicateField name names), h) := by
  have hany : ((h.node parent).fields.getD []).any (·.1 == name) = true := by
    obtain ⟨f, hf, hname⟩ := List.mem_map.mp hmem
    exact List.any_eq_true.mpr ⟨f, hf, beq_iff_eq.mpr hname⟩
  refine ⟨sortedNames (((h.node parent).fields.getD []).map (·.1)), ?_⟩
  rw [attach, run_bind_ok (run_node h parent)]
  simp only [hany]
  rfl

omit [Inspect κ] in
theorem run_resolve_cases (h : Heap κ) (r : RegistryId) (name : String) :
    (∃ f, (resolve r name).run h = (.error f, h)) ∨
      ∃ n, (h.registry r).find? name = some n ∧ (resolve r name).run h = (.ok n, h) := by
  rw [resolve, run_bind_ok (run_registry h r)]
  cases (h.registry r).find? name with
  | none => exact .inl ⟨_, rfl⟩
  | some n => exact .inr ⟨n, rfl, rfl⟩

theorem run_attach_given_cases (h : Heap κ) (parent child : NodeId) (name : Value κ) :
    (∃ f, (of name.isTrue >>= fun given => match given, name with
        | true, .str text => attach parent child text
        | _, _ => throw (Fault.fieldName name).told).run h = (.error f, h)) ∨
      ∃ text, name = .str text ∧ (h.node parent).Takes text ∧
        (of name.isTrue >>= fun given => match given, name with
          | true, .str text => attach parent child text
          | _, _ => throw (Fault.fieldName name).told).run h =
            (.ok child, h.addField parent text child) := by
  cases hgiven : name.isTrue with
  | error f => exact .inl ⟨f, by rw [run_bind]; rfl⟩
  | ok given =>
      rw [run_bind_ok (run_of_ok h given)]
      cases given with
      | false => exact .inl ⟨_, rfl⟩
      | true =>
          cases name with
          | str text =>
              have hempty : text ≠ "" := by simpa [Value.isTrue] using hgiven
              by_cases hmem : text ∈ ((h.node parent).fields.getD []).map (·.1)
              · obtain ⟨names, hrun⟩ := run_attach_of_mem hmem child
                exact .inl ⟨_, hrun⟩
              · exact .inr ⟨text, rfl, ⟨hempty, hmem⟩, run_attach hmem⟩
          | _ => exact .inl ⟨_, rfl⟩

/-- A node is either put under the parent that is meant, by a name that this one takes, or nothing
happens. -/
theorem run_attachTo_cases (h : Heap κ) (child : NodeId) (parent : SchemaArg) (name : Value κ) :
    (∃ f, (attachTo child parent name).run h = (.error f, h)) ∨
      ∃ p text, parent.Refers h (h.node child).registry p ∧ name = .str text ∧
        (h.node p).Takes text ∧
        (attachTo child parent name).run h = (.ok child, h.addField p text child) := by
  cases parent with
  | node p =>
      rcases run_attach_given_cases h p child name with ⟨f, hf⟩ | ⟨text, hname, htakes, hrun⟩
      · exact .inl ⟨f, hf⟩
      · exact .inr ⟨p, text, rfl, hname, htakes, hrun⟩
  | named reference =>
      have hattach : (attachTo child (.named reference) name).run h =
          (resolve (h.node child).registry reference >>= fun p => of name.isTrue >>= fun given =>
            match given, name with
            | true, .str text => attach p child text
            | _, _ => throw (Fault.fieldName name).told).run h := rfl
      rw [hattach]
      rcases run_resolve_cases h (h.node child).registry reference with
        ⟨f, hresolve⟩ | ⟨p, hp, hresolve⟩
      · exact .inl ⟨f, by rw [run_bind, hresolve]⟩
      · rw [run_bind_ok hresolve]
        rcases run_attach_given_cases h p child name with ⟨f, hf⟩ | ⟨text, hname, htakes, hrun⟩
        · exact .inl ⟨f, hf⟩
        · exact .inr ⟨p, text, hp, hname, htakes, hrun⟩
  | other kind => exact .inl ⟨_, rfl⟩

/-- A field is a new node, put under the node by a name that this one takes. -/
theorem run_field_cases (h : Heap κ) (n : NodeId) (name : Value κ) :
    (∃ f, (field n name).run h = (.error f, h.addNode { registry := (h.node n).registry })) ∨
      ∃ text, name = .str text ∧ (h.node n).Takes text ∧
        (field n name).run h = (.ok h.nodes.length,
          (h.addNode { registry := (h.node n).registry }).addField n text h.nodes.length) := by
  have hfield : (field n name).run h = (attachTo h.nodes.length (.node n) name).run
      (h.addNode { registry := (h.node n).registry }) := rfl
  rw [hfield]
  rcases run_attachTo_cases (h.addNode { registry := (h.node n).registry }) h.nodes.length (.node n)
    name with ⟨f, hrun⟩ | ⟨p, text, hp, hname, htakes, hrun⟩
  · exact .inl ⟨f, hrun⟩
  · obtain rfl : n = p := hp
    rw [Node.Takes, Heap.fields_node_addNode] at htakes
    exact .inr ⟨text, hname, htakes, hrun⟩

theorem run_clone_cases (h : Heap κ) (n : NodeId) :
    (∃ f, (clone n).run h = (.error f, h)) ∨ ∃ t, h.copyTree n = .ok t ∧
      (clone n).run h =
        (.ok (h.nodes.length + t.descendants), h.extend (t.layout h.nodes.length)) := by
  cases ht : h.copyTree n with
  | error f => exact .inl ⟨f, run_clone_of_error ht⟩
  | ok t => exact .inr ⟨t, rfl, run_clone_of_ok ht⟩

omit [Inspect κ] in
/-- The fields of a node are defined only where it has none, and looking changes nothing. -/
theorem run_undefinedOnly_cases (h : Heap κ) (n : NodeId) :
    (∃ f, (undefinedOnly n).run h = (.error f, h)) ∨
      (h.node n).fields = none ∧ (undefinedOnly n).run h = (.ok (), h) := by
  rw [undefinedOnly, run_bind_ok (run_node h n)]
  cases (h.node n).fields with
  | none => exact .inr ⟨rfl, rfl⟩
  | some fields => exact .inl ⟨_, rfl⟩

end Build

namespace Heap.Invariant

open Build

variable {s : Scope κ} {I : Heap κ → Prop} (hI : Invariant s I) {h : Heap κ} (hh : I h)

include hI hh

theorem keeps_create (r : RegistryId) : Keeps I s.changes (Build.create r) h := by
  refine ⟨hI.create hh r, fun a ha => ?_⟩
  obtain rfl := Except.ok.inj ha
  exact hI.new hh (Nat.le_refl _)

theorem keeps_flags {n : NodeId} (hn : s.changes n) {f : Node κ → Node κ}
    {required strict : Bool} {array : Option Bool}
    (hf : f (h.node n) = { h.node n with required, array, strict })
    (harray : (h.node n).array.isSome → array.isSome) :
    Keeps I (fun _ => True) (modifyNode n f) h := by
  refine ⟨?_, fun _ _ => trivial⟩
  show I (h.setNode n (f (h.node n)))
  rw [hf]
  exact hI.flags hh hn required array strict harray

/-- Only where a node is put under a parent, the two have to be in scope. -/
theorem keeps_attachTo {child : NodeId} {parent : SchemaArg} {name : Value κ}
    (hparent : (∃ c, ((attachTo child parent name).run h).1 = .ok c) →
      ∀ p, parent.Refers h (h.node child).registry p → s.changes p ∧ s.attaches h p child) :
    Keeps I (· = child) (attachTo child parent name) h := by
  rcases run_attachTo_cases h child parent name with ⟨f, hrun⟩ | ⟨p, text, hp, -, htakes, hrun⟩
  · exact .of_error hrun hh
  · obtain ⟨hchanges, hattaches⟩ := hparent ⟨child, by rw [hrun]⟩ p hp
    exact .of_ok hrun (hI.attached hh hchanges hattaches htakes) rfl

theorem keeps_validate {n : NodeId} (hn : s.changes n) (rules : Value κ) :
    Keeps I (· = n) (validate n rules) h := by
  refine .of_except hh fun given hgiven => ?_
  dsimp only
  split
  · rename_i htrue
    refine .of_modify (.pure (hI.rules hh hn ?_) rfl)
    subst htrue
    cases rules <;> simp_all [Value.isTrue]
  · exact .pure hh rfl

theorem keeps_field {n : NodeId} (hn : s.changes n) (hgrows : s.grows h n) (name : Value κ) :
    Keeps I s.changes (field n name) h := by
  have hchild : s.changes h.nodes.length := hI.new hh (Nat.le_refl _)
  rcases run_field_cases h n name with ⟨f, hrun⟩ | ⟨text, -, htakes, hrun⟩
  · exact .of_error hrun (hI.create hh _)
  · exact .of_ok hrun (hI.newField hh hn hgrows htakes _) hchild

theorem keeps_required {n : NodeId} (hn : s.changes n) (hgrows : s.grows h n)
    (name rules : Value κ) : Keeps I s.changes (required n name rules) h := by
  unfold required
  split
  · exact .bind (hI.keeps_flags hh hn rfl id) fun _ _ _ hh' _ => .pure hh' hn
  · refine .bind (hI.keeps_field hh hn hgrows name) fun child h' _ hh' hchild => ?_
    exact (hI.keeps_validate hh' hchild rules).mono fun m hm => hm ▸ hchild

theorem keeps_optional {n : NodeId} (hn : s.changes n) (hgrows : s.grows h n)
    (name rules : Value κ) : Keeps I s.changes (Build.optional n name rules) h := by
  have hmark {child : NodeId} {h' : Heap κ} (hh : I h') (hchild : s.changes child) :
      Keeps I s.changes (do
        modifyNode child fun p => { p with required := false }
        return child : Build κ NodeId) h' :=
    .bind (hI.keeps_flags hh hchild rfl id) fun _ _ _ hh' _ => .pure hh' hchild
  unfold Build.optional
  split
  · exact hmark hh hn
  · refine .bind (hI.keeps_field hh hn hgrows name) fun child h' _ hh' hchild => ?_
    refine .bind (hI.keeps_validate hh' hchild rules) fun m h'' _ hh'' hm => ?_
    exact hmark hh'' (hm ▸ hchild)

theorem keeps_strict {n : NodeId} (hn : s.changes n) (flag : Value κ) :
    Keeps I (fun _ => True) (strict n flag) h :=
  .of_except hh fun _ _ => .bind (hI.keeps_flags hh hn rfl id) fun _ _ _ hh' _ => .pure hh' trivial

theorem keeps_takeFlags {n : NodeId} (hn : s.changes n) (flags : Flags κ) :
    Keeps I (fun _ => True) (takeFlags n flags) h := by
  refine .of_except hh fun _ _ => .bind (hI.keeps_flags hh hn rfl id) fun _ _ _ hh' _ => ?_
  refine .of_except hh' fun array _ =>
    .bind (hI.keeps_flags hh' hn rfl fun hsome => ?_) fun _ _ _ hh'' _ => ?_
  · split
    · assumption
    · exact hsome
  · exact .of_except hh'' fun _ _ =>
      .bind (hI.keeps_flags hh'' hn rfl id) fun _ _ _ hh' _ => .pure hh' trivial

theorem keeps_like {n : NodeId} (hn : s.changes n) (other : Likeness κ) :
    Keeps I (fun _ => True) (like n other) h := by
  cases other with
  | node m => exact .of_node (hI.keeps_takeFlags hh hn _)
  | object flags => exact hI.keeps_takeFlags hh hn flags

theorem keeps_setArray {n : NodeId} (hn : s.changes n) (flag : Bool) :
    Keeps I (fun _ => True) (setArray n flag) h :=
  .bind (hI.keeps_flags hh hn rfl fun _ => rfl) fun _ _ _ hh' _ => .pure hh' trivial

theorem keeps_clone (n : NodeId) : Keeps I s.changes (Build.clone n) h := by
  rcases run_clone_cases h n with ⟨f, hrun⟩ | ⟨t, ht, hrun⟩
  · exact .of_error hrun hh
  · exact .of_ok hrun (hI.copy hh ht) (hI.new hh (Nat.le_add_right ..))

/-- A field that is copied comes of a clone that is put under the node as it stands by then. -/
theorem keeps_attachCopies {before : Heap κ} (hbefore : I before) {m n : NodeId}
    (hn : s.changes n) (hgrows : s.grows h n) (fields : List (String × NodeId))
    (hfields : ∀ f ∈ fields, f ∈ (before.node m).fields.getD []) :
    Keeps I (fun _ => True) (attachCopies n fields) h := by
  induction fields generalizing h with
  | nil => exact .pure hh trivial
  | cons f fields ih =>
      obtain ⟨name, c⟩ := f
      rw [List.forall_mem_cons] at hfields
      rcases run_clone_cases h c with ⟨f, hclone⟩ | ⟨t, ht, hclone⟩
      · exact .of_error (by rw [attachCopies, run_bind, hclone]) hh
      refine .of_bind hclone ?_
      by_cases hmem :
          name ∈ (((h.extend (t.layout h.nodes.length)).node n).fields.getD []).map (·.1)
      · obtain ⟨names, hattach⟩ := run_attach_of_mem hmem (h.nodes.length + t.descendants)
        exact .of_error (by rw [run_bind, hattach]) (hI.copy hh ht)
      · refine .of_bind (run_attach hmem) (ih ?_ (s.grows_mono ?_ hgrows) hfields.2)
        · exact hI.copiedField hbefore (List.mem_map_of_mem hfields.1) hh hn hgrows ht hmem
        · rw [length_addField, nodes_extend, List.length_append]
          exact Nat.le_add_right ..

theorem keeps_similar {n : NodeId} (hn : s.changes n) (hgrows : s.grows h n) (source : NodeId) :
    Keeps I (fun _ => True) (similar n source) h := by
  refine .of_node (.bind (hI.keeps_attachCopies hh hh hn hgrows _ fun f hf => hf)
    fun _ h' _ hh' _ => ?_)
  refine .of_node (.of_except hh' fun rules hrules => ?_)
  cases rules with
  | none => exact .of_modify (.pure (hI.flags hh' hn _ _ _ id) trivial)
  | some xs => exact .of_modify (.pure (hI.copiedRules hh' hn hrules _) trivial)

end Heap.Invariant

end invariant

end SchemaTree
