import Mathlib.Data.List.Nodup
import SchemaTree.Proofs.Copying
import SchemaTree.Proofs.Courses

/-!
Fields are only added. Whatever a program does, a node has no empty record of fields and no two
fields of one name; and what it has once, be it a field, rules or the mark of an array, it has from
then on.
-/

namespace SchemaTree

variable {κ : Type}

/-- A node whose fields and rules are none or some, under names that differ and are not empty. -/
structure Node.Sound (p : Node κ) : Prop where
  fields : p.fields ≠ some []
  rules : p.rules ≠ some []
  distinct : ((p.fields.getD []).map (·.1)).Nodup
  named : "" ∉ (p.fields.getD []).map (·.1)

/-- What the first node has, the second one has, and of fields it may have later ones. -/
structure Node.GrowsTo (p q : Node κ) : Prop where
  fields : p.fields.getD [] <+: q.fields.getD []
  rules : p.rules.isSome → q.rules.isSome
  array : p.array.isSome → q.array.isSome

namespace Node

theorem sound_of_blank {p : Node κ} (hfields : p.fields = none) (hrules : p.rules = none) :
    p.Sound := by
  refine ⟨?_, ?_, ?_, ?_⟩ <;> simp [hfields, hrules]

theorem GrowsTo.refl (p : Node κ) : p.GrowsTo p := ⟨List.prefix_rfl, id, id⟩

theorem GrowsTo.trans {p q r : Node κ} (h₁ : p.GrowsTo q) (h₂ : q.GrowsTo r) : p.GrowsTo r :=
  ⟨h₁.fields.trans h₂.fields, h₂.rules ∘ h₁.rules, h₂.array ∘ h₁.array⟩

theorem Sound.lookup_of_mem {p : Node κ} (hp : p.Sound) {f : String × NodeId}
    (hf : f ∈ p.fields.getD []) : (p.fields.getD []).lookup f.1 = some f.2 := by
  obtain ⟨before, after, hfields⟩ := List.append_of_mem hf
  have hdistinct := hp.distinct
  rw [hfields] at hdistinct ⊢
  rw [List.map_append, List.map_cons, List.nodup_append] at hdistinct
  rw [List.lookup_eq_some_iff]
  refine ⟨before, after, rfl, fun g hg => bne_iff_ne.mpr fun heq => ?_⟩
  exact hdistinct.2.2 g.1 (List.mem_map_of_mem hg) f.1 List.mem_cons_self heq.symm

end Node

theorem Node.growsTo_of_blank {p : Node κ} (hfields : p.fields = none) (hrules : p.rules = none)
    (harray : p.array = none) (q : Node κ) : p.GrowsTo q := by
  refine ⟨?_, ?_, ?_⟩ <;> simp [hfields, hrules, harray]

theorem nodup_names_concat {fields : List (String × NodeId)} (hfields : (fields.map (·.1)).Nodup)
    {name : String} (hname : name ∉ fields.map (·.1)) (child : NodeId) :
    ((fields ++ [(name, child)]).map (·.1)).Nodup := by
  rw [List.map_append, List.map_singleton]
  refine List.nodup_append.mpr ⟨hfields, List.nodup_singleton name, fun other hother => ?_⟩
  rintro last hlast rfl
  rw [List.mem_singleton.mp hlast] at hother
  exact hname hother

/-- A node with one more field, of a name that it takes. -/
theorem Node.Sound.addField {p : Node κ} (hp : p.Sound) {name : String} (hname : p.Takes name)
    (child : NodeId) :
    ({ p with fields := some (p.fields.getD [] ++ [(name, child)]) } : Node κ).Sound where
  fields := by simp
  rules := hp.rules
  distinct := nodup_names_concat hp.distinct hname.2 child
  named := by
    rw [Option.getD_some, List.map_append, List.mem_append, List.map_singleton,
      List.mem_singleton]
    exact fun hmem => hmem.elim hp.named hname.1.symm

theorem Node.growsTo_addField (p : Node κ) (name : String) (child : NodeId) :
    p.GrowsTo { p with fields := some (p.fields.getD [] ++ [(name, child)]) } :=
  ⟨List.prefix_append _ _, id, id⟩

/-- A node under whose names stand other fields, and with other rules if any. -/
theorem Node.Sound.of_names {p q : Node κ} (hp : p.Sound)
    (hnames : q.fields.map (·.map (·.1)) = p.fields.map (·.map (·.1)))
    (hrules : q.rules ≠ some []) : q.Sound := by
  have hlist : (q.fields.getD []).map (·.1) = (p.fields.getD []).map (·.1) := by
    have hgetD : ∀ fields : Option (List (String × NodeId)),
        (fields.getD []).map (·.1) = (fields.map (·.map (·.1))).getD [] := by
      rintro (_ | fields) <;> rfl
    rw [hgetD, hgetD, hnames]
  refine ⟨fun hempty => hp.fields ?_, hrules, hlist ▸ hp.distinct, hlist ▸ hp.named⟩
  rw [hempty] at hnames
  cases hfields : p.fields with
  | none => rw [hfields] at hnames; exact nomatch hnames
  | some fields =>
      rw [hfields] at hnames
      exact congrArg some (List.map_eq_nil_iff.mp (Option.some.inj hnames).symm)

theorem map_eq_of_forall₂ {α β γ : Type} {f : α → γ} {g : β → γ} {xs : List α} {ys : List β}
    (hall : List.Forall₂ (fun x y => f x = g y) xs ys) : xs.map f = ys.map g := by
  induction hall with
  | nil => rfl
  | cons hxy _ ih => rw [List.map_cons, List.map_cons, hxy, ih]

section copies

variable [Inspect κ]

theorem copyRules_ne_nil {rules copies : Option (List (Value κ))}
    (hcopies : Heap.copyRules rules = .ok copies) (hrules : rules ≠ some []) :
    copies ≠ some [] := by
  rintro rfl
  cases rules with
  | none => exact nomatch hcopies
  | some xs =>
      obtain ⟨ys, hys, heq⟩ := map_eq_ok.mp hcopies
      obtain rfl := Option.some.inj heq
      cases xs with
      | nil => exact hrules rfl
      | cons x xs =>
          obtain ⟨copy, rest, -, -, hcons⟩ := Value.deepCopyAll_cons.mp hys
          exact nomatch hcons

end copies

/-- A tree of which sound nodes are made. -/
def Tree.Sound (t : Tree κ) : Prop := ∀ a, (t.rootAt a).Sound

theorem Tree.names_fieldsAt (fs : List (String × Tree κ)) (a : Nat) :
    (fieldsAt fs a).map (·.1) = fs.map (·.1) := by
  induction fs generalizing a with
  | nil => rfl
  | cons f fs ih => rw [fieldsAt, List.map_cons, List.map_cons, ih]

theorem Tree.sound_of_layout {t : Tree κ} (ht : t.Each Sound) {a : Nat} {x : Node κ}
    (hx : x ∈ t.layout a) : x.Sound :=
  forall_mem_layout (P := Node.Sound) (ht.mono fun _ hu b _ => hu b) hx

theorem Heap.forall₂_fieldList_of_copyTreeTo [Inspect κ] {h : Heap κ} {depth : Nat} {n : NodeId}
    {t : Tree κ} (ht : h.copyTreeTo (depth + 1) n = .ok t) :
    List.Forall₂ (fun f g => f.1 = g.1 ∧ h.copyTreeTo depth f.2 = .ok g.2)
      ((h.node n).fields.getD []) t.fieldList := by
  obtain ⟨ts, hts, -, hfields⟩ := copyTreeTo_succ_eq_ok ht
  rw [Tree.fieldList, hfields]
  cases hrecord : (h.node n).fields with
  | none => exact .nil
  | some fs =>
      rw [hrecord] at hts
      exact hts

/-- Copies of sound nodes are sound. -/
theorem Heap.each_sound_of_copyTreeTo [Inspect κ] {h : Heap κ} (hh : ∀ n, (h.node n).Sound)
    {depth : Nat} {n : NodeId} {t : Tree κ} (ht : h.copyTreeTo depth n = .ok t) :
    t.Each Tree.Sound := by
  induction depth generalizing n t with
  | zero => exact nomatch ht
  | succ depth ih =>
      obtain ⟨ts, hts, hrules, hfields⟩ := copyTreeTo_succ_eq_ok ht
      refine ⟨fun a => (hh n).of_names ?_ (copyRules_ne_nil hrules (hh n).rules), fun g hg => ?_⟩
      · have hnames := (map_eq_of_forall₂ (hts.imp fun f g hfg => hfg.1)).symm
        rw [Tree.rootAt, hfields]
        cases hsource : (h.node n).fields with
        | none => rfl
        | some fs =>
            rw [hsource] at hnames
            exact congrArg some ((Tree.names_fieldsAt ts a).trans hnames)
      · obtain ⟨f, -, -, hcopy⟩ := exists_left_of_mem (forall₂_fieldList_of_copyTreeTo ht) hg
        exact ih hcopy

namespace Heap

/-- The second heap came of the first one by growth: no two nodes share anything, all are sound, and
each has what it had. -/
structure GrownFrom (before h : Heap κ) : Prop where
  unshared : h.Unshared
  sound : ∀ n, (h.node n).Sound
  grows : ∀ n, (before.node n).GrowsTo (h.node n)
  length : before.nodes.length ≤ h.nodes.length

namespace GrownFrom

variable {before h : Heap κ} (hh : GrownFrom before h)

include hh

theorem setNode {n : NodeId} {q : Node κ} (hq : q.Sound) (hgrows : (h.node n).GrowsTo q)
    (hmarks : q.rulesMark = .fresh ∧ q.fieldsMark = .fresh) :
    GrownFrom before (h.setNode n q) where
  unshared := hh.unshared.setNode n hmarks
  sound m := by
    rcases node_setNode_cases h n m q with hm | ⟨-, hm⟩
    all_goals rw [hm]
    · exact hh.sound m
    · exact hq
  grows m := by
    rcases node_setNode_cases h n m q with hm | ⟨rfl, hm⟩
    all_goals rw [hm]
    · exact hh.grows m
    · exact (hh.grows m).trans hgrows
  length := by
    rw [length_setNode]
    exact hh.length

theorem extend {nodes : List (Node κ)}
    (hnodes : ∀ p ∈ nodes, p.Sound ∧ p.rulesMark = .fresh ∧ p.fieldsMark = .fresh) :
    GrownFrom before (h.extend nodes) where
  unshared := hh.unshared.extend fun p hp => (hnodes p hp).2
  sound n := by
    rcases node_extend_cases h nodes n with hn | ⟨-, hn⟩
    · exact hn ▸ hh.sound n
    · exact (hnodes _ hn).1
  grows n := by
    rcases node_extend_cases h nodes n with hn | ⟨hle, -⟩
    · exact hn ▸ hh.grows n
    · rw [node_of_le (Nat.le_trans hh.length hle)]
      exact Node.growsTo_of_blank rfl rfl rfl _
  length := by
    rw [nodes_extend, List.length_append]
    exact Nat.le_add_right_of_le hh.length

theorem addField {n : NodeId} {name : String} (hname : (h.node n).Takes name) (child : NodeId) :
    GrownFrom before (h.addField n name child) := by
  rw [addField_of_fresh (hh.unshared.node n).2]
  exact hh.setNode ((hh.sound n).addField hname child) (Node.growsTo_addField _ name child)
    (hh.unshared.node n)

theorem create (r : RegistryId) : GrownFrom before (h.addNode { registry := r }) :=
  hh.extend (by simp [Node.sound_of_blank])

theorem copy [Inspect κ] {n : NodeId} {t : Tree κ} (ht : h.copyTree n = .ok t) :
    GrownFrom before (h.extend (t.layout h.nodes.length)) :=
  hh.extend fun _ hp => ⟨Tree.sound_of_layout (each_sound_of_copyTreeTo hh.sound ht) hp,
    Tree.marks_of_layout hp⟩

end GrownFrom

theorem GrownFrom.invariant [Inspect κ] (before : Heap κ) : Invariant .all (GrownFrom before) where
  new _ _ := trivial
  create hh r := hh.create r
  copy hh ht := hh.copy ht
  flags hh _ _ _ _ harray :=
    hh.setNode ((hh.sound _).of_names rfl (hh.sound _).rules) ⟨List.prefix_rfl, id, harray⟩
      (hh.unshared.node _)
  rules hh _ hadded := by
    rw [addRules_of_fresh (hh.unshared.node _).1]
    exact hh.setNode ((hh.sound _).of_names rfl (by simp [hadded]))
      ⟨List.prefix_rfl, fun _ => rfl, id⟩ (hh.unshared.node _)
  copiedRules hh _ hxs _ :=
    hh.setNode ((hh.sound _).of_names rfl (copyRules_ne_nil hxs (hh.sound _).rules))
      ⟨List.prefix_rfl, fun _ => rfl, id⟩ ⟨rfl, (hh.unshared.node _).2⟩
  newField {h n name} hh _ _ hname r := by
    refine (hh.create r).addField ?_ _
    rwa [Node.Takes, fields_node_addNode]
  copiedField hbefore hcopied hh _ _ ht hname :=
    (hh.copy ht).addField ⟨fun hempty => (hbefore.sound _).named (hempty ▸ hcopied), hname⟩ _
  attached hh _ _ hname := hh.addField hname _

end Heap

/-- Whatever a program does, from the first node on and with operations that fail among it: fields
and rules of a node are none or some, and names of fields differ and are not empty. What comes later
leaves each node in its place, adds fields after the ones that are there, and takes away neither all
rules nor the mark that tells whether it is an array. -/
theorem fields_only_grow (past future : List (Moment κ)) :
    let h := Heap.initial.course past
    let h' := h.course future
    (∀ n, (h.node n).Sound ∧ (h.node n).GrowsTo (h'.node n) ∧ (h'.node n).Sound) ∧
      h.nodes.length ≤ h'.nodes.length ∧
      ∀ n, ∀ f ∈ (h.node n).fields.getD [],
        ((h'.node n).fields.getD []).lookup f.1 = some f.2 := by
  have hcourse {before h : Heap κ} (hh : Heap.GrownFrom before h) (moments : List (Moment κ)) :
      Heap.GrownFrom before (h.course moments) := by
    refine Heap.Invariant.course (fun answers => @Heap.GrownFrom.invariant κ answers before)
      (fun hh _ => ⟨hh.unshared, hh.sound, hh.grows, hh.length⟩) hh moments ?_
    exact Heap.courseEach_of_forall (fun answers => @Operation.inScope_all κ answers) _ moments
  have hinitial : Heap.GrownFrom (Heap.initial : Heap κ) Heap.initial :=
    ⟨nofun, fun _ => Node.sound_of_blank rfl rfl, fun _ => .refl _, Nat.le_refl _⟩
  have hpast := hcourse hinitial past
  have hfuture := hcourse ⟨hpast.unshared, hpast.sound, fun n => .refl _, Nat.le_refl _⟩ future
  refine ⟨fun n => ⟨hpast.sound n, hfuture.grows n, hfuture.sound n⟩, hfuture.length, ?_⟩
  exact fun n f hf => (hfuture.sound n).lookup_of_mem ((hfuture.grows n).fields.subset hf)

end SchemaTree
