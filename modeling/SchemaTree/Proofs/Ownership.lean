import Mathlib.Data.Fintype.EquivFin
import SchemaTree.Proofs.Courses
import SchemaTree.Proofs.Description
import SchemaTree.Proofs.Forests
import SchemaTree.Proofs.OwnCopies

/-!
Who holds whom in the course of a program. A program that puts only such nodes under others as no
field holds yet and as do not reach the other one has a forest of nodes at all times, so each node
has a tree and can be described, cloned and compiled.
-/

namespace SchemaTree

variable {κ : Type}

/-- Fields are given to nodes that are there, and a node is put under another one only if no field
holds it yet and it does not reach the other one. -/
def Scope.forest : Scope κ where
  changes _ := True
  grows h n := n < h.nodes.length
  attaches h parent child := parent < h.nodes.length ∧ child < h.nodes.length ∧
    child ∉ h.held ∧ ¬ h.Reaches child parent
  grows_mono hle hn := Nat.lt_of_lt_of_le hn hle

theorem Heap.Forest.invariant [Inspect κ] : Heap.Invariant (κ := κ) .forest Heap.Forest where
  new _ _ := trivial
  create hh r := hh.plant (.node r true none false none none)
  copy hh _ := hh.plant _
  flags hh _ _ _ _ _ := hh.setNode _ rfl (hh.unshared.node _)
  rules hh _ _ := by
    rw [Heap.addRules_of_fresh (hh.unshared.node _).1]
    exact hh.setNode _ rfl (hh.unshared.node _)
  copiedRules hh _ _ _ := hh.setNode _ rfl ⟨rfl, (hh.unshared.node _).2⟩
  newField hh _ hgrows _ r := hh.plant_addField hgrows (.node r true none false none none) _
  copiedField _ _ hh _ hgrows _ _ := hh.plant_addField hgrows _ _
  attached {h n child name} hh _ hattaches _ :=
    (hh.addField_iff hattaches.1 hattaches.2.1 name).mpr hattaches.2.2

theorem exists_forall₂ {α β : Type} {R : α → β → Prop} {xs : List α} (h : ∀ x ∈ xs, ∃ y, R x y) :
    ∃ ys, List.Forall₂ R xs ys := by
  induction xs with
  | nil => exact ⟨[], .nil⟩
  | cons x xs ih =>
      rw [List.forall_mem_cons] at h
      obtain ⟨⟨y, hy⟩, hxs⟩ := h
      obtain ⟨ys, hys⟩ := ih hxs
      exact ⟨y :: ys, .cons hy hys⟩

namespace Heap

theorem Forest.exists_tree {h : Heap κ} (hh : h.Forest) {n : NodeId} (hn : n < h.nodes.length) :
    ∃ t, h.Holds n t := by
  let Below (a b : Fin h.nodes.length) : Prop := ∃ c ∈ (h.node b).children, h.Reaches c a
  have htrans : IsTrans _ Below := ⟨fun a b c ⟨d, hd, hda⟩ ⟨e, he, heb⟩ =>
    ⟨e, he, (heb.child hd).trans hda⟩⟩
  have hirrefl : Std.Irrefl Below := ⟨fun a ⟨c, hc, hca⟩ => hh.acyclic a c hc hca⟩
  -- there are finitely many nodes, so a way down that never comes back ends
  have hwf : WellFounded Below := Finite.wellFounded_of_trans_of_irrefl Below
  suffices hall : ∀ a : Fin h.nodes.length, ∃ t, h.Holds a t from hall ⟨n, hn⟩
  intro a
  induction a using hwf.induction with
  | _ a ih =>
      have hfields : ∀ f ∈ (h.node a).fields.getD [], ∃ g, h.HoldsField f g := by
        intro f hf
        have hc : f.2 ∈ (h.node a).children := List.mem_map_of_mem hf
        obtain ⟨t, ht⟩ := ih ⟨f.2, hh.lt_of_child hc⟩ ⟨f.2, hc, .refl⟩
        exact ⟨(f.1, t), rfl, ht⟩
      obtain ⟨ts, hts⟩ := exists_forall₂ hfields
      refine ⟨.node (h.node a).registry (h.node a).required (h.node a).array (h.node a).strict
        (h.node a).rules ((h.node a).fields.map fun _ => ts),
        holds_iff.mpr ⟨a.2, rfl, rfl, rfl, rfl, rfl, ?_⟩⟩
      show Option.Rel _ (h.node a).fields ((h.node a).fields.map fun _ => ts)
      cases hnone : (h.node a).fields with
      | none => exact .none
      | some fields =>
          rw [hnone] at hts
          exact .some hts

theorem foldl_ends {h : Heap κ} {depth : Nat} {fields : List (String × NodeId)}
    (hfields : ∀ f ∈ fields, (h.postOrderTo depth f.2).ends = true) {done : Walk}
    (hdone : done.ends = true) :
    (fields.foldl (fun (done : Walk) f =>
      if done.ends then done.append (h.postOrderTo depth f.2) else done) done).ends = true := by
  induction fields generalizing done with
  | nil => exact hdone
  | cons f fields ih =>
      rw [List.forall_mem_cons] at hfields
      refine ih hfields.2 ?_
      simp only [hdone, if_true, Walk.append]
      exact hfields.1

theorem Holds.postOrderTo_ends {h : Heap κ} {n : NodeId} {t : Tree κ} {depth : Nat}
    (hn : h.Holds n t) (hdepth : t.Within depth) : (h.postOrderTo depth n).ends = true := by
  induction hdepth generalizing n with
  | @intro depth t _ ih =>
      have hends : ∀ f ∈ (h.node n).fields.getD [], (h.postOrderTo depth f.2).ends = true := by
        intro f hf
        obtain ⟨g, hg, hfield⟩ := exists_right_of_mem (holds_iff.mp hn).fieldList hf
        exact ih g hg hfield.2
      rw [postOrderTo, Walk.append, if_pos (foldl_ends hends rfl)]

theorem copyable_of_copyTreeTo [Inspect κ] {h : Heap κ} {n : NodeId} {t u : Tree κ} {depth : Nat}
    (hdepth : t.Within depth) (hn : h.Holds n t) (hu : h.copyTreeTo depth n = .ok u) :
    t.Each fun v => CopyableRules v.rules := by
  induction hdepth generalizing n u with
  | @intro depth t _ ih =>
      obtain ⟨ts, hts, hrules, -⟩ := copyTreeTo_succ_eq_ok hu
      refine ⟨copyableRules_of_copyRules ((holds_iff.mp hn).rules ▸ hrules), fun g hg => ?_⟩
      obtain ⟨f, hf, -, hheld⟩ := exists_left_of_mem (holds_iff.mp hn).fieldList hg
      obtain ⟨v, -, -, hcopy⟩ := exists_right_of_mem hts hf
      exact ih g hg hheld hcopy

section serves

variable [Inspect κ]

/-- A node can be described, cloned and compiled: it holds a tree, and nothing but rules that cannot
be copied stands in the way. -/
structure Serves (h : Heap κ) (n : NodeId) (t : Tree κ) : Prop where
  holds : h.Holds n t
  described : (∃ d, h.describe n = .ok d) ↔ t.Each fun u => CopyableRules u.rules
  cloned : (∃ c, ((Build.clone n).run h).1 = .ok c) ↔ t.Each fun u => CopyableRules u.rules
  walked : (h.postOrder n).ends = true
  compiled : t.Each Tree.CopiedTwice → ∀ {host : Host κ} {m : κ} {rulesOf},
    host.MapsBy m rulesOf → ∀ {options : OptionsArg κ} {o : Options κ} {extra : Entries κ},
    options.resolve = .ok o → Options.entriesOf o.extra = .ok extra → ∀ pipeline,
    ∃ c, (compile host (.node n) (.object m) options pipeline h).1.outcome = .ok c

theorem Holds.serves {h : Heap κ} {n : NodeId} {t : Tree κ} (hn : h.Holds n t) :
    h.Serves n t := by
  refine ⟨hn, ⟨fun ⟨d, hd⟩ => ?_, fun ht => ?_⟩, ⟨fun ⟨c, hc⟩ => ?_, fun ht => ?_⟩,
    hn.postOrderTo_ends hn.within, fun ht _ _ _ hmaps _ _ _ ho hextra pipeline => ?_⟩
  · rw [hn.describe_eq] at hd
    exact Tree.copyable_of_mapRules hd
  · rw [hn.describe_eq]
    exact ⟨_, Tree.mapRules_of_copyable ht⟩
  · rcases Build.run_clone_cases h n with ⟨f, hrun⟩ | ⟨u, hu, -⟩
    · rw [hrun] at hc
      exact nomatch hc
    · exact copyable_of_copyTreeTo hn.within hn hu
  · rw [Build.clone_eq hn ht]
    exact ⟨_, rfl⟩
  · obtain ⟨root, houtcome, -⟩ := compile_eq hmaps hn ho hextra ht pipeline
    exact ⟨_, houtcome⟩

end serves

end Heap

theorem SchemaArg.Refers.unique {h : Heap κ} {r : RegistryId} {arg : SchemaArg} {n m : NodeId}
    (hn : arg.Refers h r n) (hm : arg.Refers h r m) : n = m := by
  cases arg with
  | node k => exact hn.symm.trans hm
  | named name => exact Option.some.inj (hn.symm.trans hm)
  | other kind => exact hn.elim

/-- Nothing asks who holds a node that is put under another one, or what it reaches. -/
theorem Heap.Forest.attachTo_iff [Inspect κ] {h : Heap κ} (hh : h.Forest) {p c : NodeId}
    (hp : p < h.nodes.length) (hc : c < h.nodes.length) {parent : SchemaArg}
    (hparent : parent.Refers h (h.node c).registry p) {name : Value κ}
    (hok : ∃ d, ((Build.attachTo c parent name).run h).1 = .ok d) :
    ((Build.attachTo c parent name).run h).2.Forest ↔ c ∉ h.held ∧ ¬ h.Reaches c p := by
  rcases Build.run_attachTo_cases h c parent name with ⟨f, hrun⟩ | ⟨q, text, hq, -, -, hrun⟩
  · obtain ⟨d, hd⟩ := hok
    rw [hrun] at hd
    exact nomatch hd
  · rw [hrun, hq.unique hparent]
    exact hh.addField_iff hp hc text

/-- Whatever a program does, as long as it puts only nodes under others that no field holds and that
do not reach the other one, every node is held once at most and is not inside itself, and each one
can be described, cloned and compiled. To put any other node under one is to leave the forest. -/
theorem forest_of_grafts (moments : List (Moment κ))
    (hmoments : Heap.initial.CourseEach (fun answers => @Operation.InScope κ answers .forest)
      moments) :
    let h := Heap.initial.course moments
    h.Forest ∧
      (∀ n < h.nodes.length, ∃ t, ∀ _ : Inspect κ, h.Serves n t) ∧
      ∀ (_ : Inspect κ) (p c : NodeId) (parent : SchemaArg) (name : Value κ),
        p < h.nodes.length → c < h.nodes.length → parent.Refers h (h.node c).registry p →
        (∃ d, ((Build.attachTo c parent name).run h).1 = .ok d) →
        (((Build.attachTo c parent name).run h).2.Forest ↔ c ∉ h.held ∧ ¬ h.Reaches c p) := by
  intro h
  have hforest : h.Forest := Heap.Invariant.course (fun answers => @Heap.Forest.invariant κ answers)
    (fun hh _ => hh.of_children hh.unshared rfl rfl fun _ => rfl) .initial moments hmoments
  refine ⟨hforest, fun n hn => ?_, fun _ p c parent name hp hc hparent hok =>
    hforest.attachTo_iff hp hc hparent hok⟩
  obtain ⟨t, ht⟩ := hforest.exists_tree hn
  exact ⟨t, fun answers => ht.serves⟩

namespace OrderFunction

/-- The schema of an order is registered, and a node for a note is put under it by its name. -/
def grafts : List (Moment OrderFunction) :=
  [.create (.str "order") Heap.defaultRegistry,
    .operate 0 (.required (.str "items") .null),
    .operate 1 .array,
    .create .null Heap.defaultRegistry,
    .operate 2 (.attachTo (.named "order") (.str "note"))].map fun act => ⟨inferInstance, act⟩

def tangle : List (Moment OrderFunction) :=
  [.create .null Heap.defaultRegistry,
    .create .null Heap.defaultRegistry,
    .create .null Heap.defaultRegistry,
    .operate 2 (.attachTo (.node 0) (.str "first")),
    .operate 2 (.attachTo (.node 1) (.str "second")),
    .operate 0 (.attachTo (.node 0) (.str "itself"))].map fun act => ⟨inferInstance, act⟩

end OrderFunction

open OrderFunction in
theorem order_grafted :
    Heap.initial.CourseEach (fun answers => @Operation.InScope OrderFunction answers .forest)
      grafts ∧
    (Heap.initial.course grafts).held = [1, 2] ∧
      ∃ t, (Heap.initial.course grafts).Serves 0 t := by
  have hgrafts : Heap.initial.CourseEach
      (fun answers => @Operation.InScope OrderFunction answers .forest) grafts := by
    refine ⟨trivial, ?_, ?_, trivial, ?_, trivial⟩
    · exact ⟨trivial, Nat.one_pos⟩
    · exact ⟨trivial, Nat.one_lt_two⟩
    · -- the node for the note is new, so it is free and reaches nothing else
      rintro - p hp
      obtain rfl : 0 = p := Option.some.inj hp
      refine ⟨trivial, by decide, by decide, by decide, fun hreach => ?_⟩
      have hnote : 0 = 2 := hreach.mem_of_closed (P := (· = 2)) rfl fun k hk f hf => by
        subst hk
        exact nomatch hf
      exact nomatch hnote
  obtain ⟨-, hserves, -⟩ := forest_of_grafts grafts hgrafts
  obtain ⟨t, ht⟩ := hserves 0 (by decide)
  exact ⟨hgrafts, rfl, t, ht _⟩

open OrderFunction in
theorem tangle_is_no_forest :
    ¬ (Heap.initial.course tangle).held.Nodup ∧
      (0 ∈ ((Heap.initial.course tangle).node 0).children) ∧
      (Heap.initial.course tangle).describe 0 = .error (.misuse .endless) ∧
      ((Build.clone 0).run (Heap.initial.course tangle)).1 = .error (.misuse .endless) := by
  have hheld : (Heap.initial.course tangle).held = [2, 0, 2] := rfl
  refine ⟨?_, ?_, rfl, rfl⟩
  · rw [hheld]
    decide
  · decide

end SchemaTree
