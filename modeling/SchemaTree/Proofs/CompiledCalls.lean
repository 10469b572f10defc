import Mathlib.Data.Nat.Find
import SchemaTree.Proofs.BrokenRules
import SchemaTree.Proofs.CompiledTree
import SchemaTree.Proofs.FailedCalls
import SchemaTree.Proofs.OwnCopies

/-!
The calls of a mapper when a schema is compiled. It is called once for each node, for the fields of
a node before the node, with copies of the descriptors and whatever it may have been told before;
the compiled schema holds what it answered, node by node, and nothing comes after an answer that
does not stand for rules.
-/

namespace SchemaTree

variable {κ : Type}

def Node.SameButRules (y x : Node κ) : Prop := ∃ rules, y = x.withRules fun _ => rules

namespace Tree

mutual

/-- The nodes of a tree, those of its fields in their order before its root, each as the tree below
it. -/
def postOrder : Tree κ → List (Tree κ)
  | .node registry required array strict rules fields =>
    match fields with
    | none => [.node registry required array strict rules none]
    | some fs => postOrderAll fs ++ [.node registry required array strict rules (some fs)]

def postOrderAll : List (String × Tree κ) → List (Tree κ)
  | [] => []
  | (_, t) :: fs => t.postOrder ++ postOrderAll fs

end

mutual

theorem map_rules_layout (t : Tree κ) (a : Nat) :
    (t.layout a).map (·.rules) = t.postOrder.map rules := by
  obtain ⟨registry, required, array, strict, rules, _ | fs⟩ := t
  · rfl
  · simp only [layout, postOrder, List.map_append, map_rules_layoutAll fs a]
    rfl

theorem map_rules_layoutAll (fs : List (String × Tree κ)) (a : Nat) :
    (layoutAll fs a).map (·.rules) = (postOrderAll fs).map rules := by
  cases fs with
  | nil => rfl
  | cons f fs =>
      obtain ⟨name, t⟩ := f
      simp only [layoutAll, postOrderAll, List.map_append, map_rules_layout t a,
        map_rules_layoutAll fs]

end

theorem postOrder_eq (t : Tree κ) : t.postOrder = postOrderAll t.fieldList ++ [t] := by
  obtain ⟨registry, required, array, strict, rules, _ | fs⟩ := t <;> rfl

theorem mem_postOrderAll {fs : List (String × Tree κ)} {u : Tree κ} (hu : u ∈ postOrderAll fs) :
    ∃ f ∈ fs, u ∈ f.2.postOrder := by
  induction fs with
  | nil => exact nomatch hu
  | cons f fs ih =>
      rcases List.mem_append.mp hu with hu | hu
      · exact ⟨f, by simp, hu⟩
      · obtain ⟨g, hg, hu⟩ := ih hu
        exact ⟨g, by simp [hg], hu⟩

theorem Each.of_mem_postOrder {P : Tree κ → Prop} {t u : Tree κ} (ht : t.Each P)
    (hu : u ∈ t.postOrder) : P u := by
  induction t using induction_on_fields with
  | step t ih =>
      rw [postOrder_eq] at hu
      rcases List.mem_append.mp hu with hu | hu
      · obtain ⟨f, hf, hu⟩ := mem_postOrderAll hu
        exact ih f hf (ht.field hf) hu
      · rw [List.mem_singleton.mp hu]
        exact ht.root

theorem length_postOrder (t : Tree κ) : t.postOrder.length = t.descendants + 1 := by
  have hlength := congrArg List.length (map_rules_layout t 0)
  rw [List.length_map, List.length_map, length_layout] at hlength
  exact hlength.symm

def shape (t : Tree κ) : Tree κ := t.withRules fun _ => none

theorem descendants_of_shape {t u : Tree κ} (h : u.shape = t.shape) :
    u.descendants = t.descendants := by
  rw [← descendants_withRules (fun _ => none) u, ← descendants_withRules (fun _ => none) t]
  exact congrArg descendants h

theorem fieldsAt_of_shape {fs gs : List (String × Tree κ)}
    (h : withRulesAll (fun _ => none) gs = withRulesAll (fun _ => none) fs) (a : Nat) :
    fieldsAt gs a = fieldsAt fs a := by
  rw [← fieldsAt_withRulesAll (fun _ => none) gs, h, fieldsAt_withRulesAll]

mutual

/-- Nodes that stand where a tree would, and differ from its nodes in their rules only, are those of
a tree of its shape. -/
theorem exists_layout (t : Tree κ) {a : Nat} {nodes : List (Node κ)}
    (hnodes : List.Forall₂ Node.SameButRules nodes (t.layout a)) :
    ∃ u : Tree κ, u.layout a = nodes ∧ u.shape = t.shape := by
  obtain ⟨registry, required, array, strict, rules, _ | fs⟩ := t
  · obtain ⟨y, _, ⟨rules', rfl⟩, hnil, rfl⟩ := List.forall₂_cons_right_iff.mp hnodes
    rw [List.forall₂_nil_right_iff.mp hnil]
    exact ⟨.node registry required array strict rules' none, rfl, rfl⟩
  · rw [layout] at hnodes
    obtain ⟨gs, hgs, hshape⟩ := exists_layoutAll fs (List.forall₂_take_append _ _ _ hnodes)
    have hroot := List.forall₂_drop_append _ _ _ hnodes
    obtain ⟨y, _, ⟨rules', hy⟩, hnil, hdrop⟩ := List.forall₂_cons_right_iff.mp hroot
    rw [List.forall₂_nil_right_iff.mp hnil, hy] at hdrop
    refine ⟨.node registry required array strict rules' (some gs), ?_, ?_⟩
    · rw [layout, hgs, fieldsAt_of_shape hshape]
      exact (congrArg _ hdrop.symm).trans (List.take_append_drop ..)
    · rw [shape, shape, withRules, withRules, hshape]

theorem exists_layoutAll (fs : List (String × Tree κ)) {a : Nat} {nodes : List (Node κ)}
    (hnodes : List.Forall₂ Node.SameButRules nodes (layoutAll fs a)) :
    ∃ gs : List (String × Tree κ), layoutAll gs a = nodes ∧
      withRulesAll (fun _ => none) gs = withRulesAll (fun _ => none) fs := by
  cases fs with
  | nil =>
      rw [List.forall₂_nil_right_iff.mp hnodes]
      exact ⟨[], rfl, rfl⟩
  | cons f fs =>
      obtain ⟨name, t⟩ := f
      rw [layoutAll] at hnodes
      obtain ⟨u, hu, hshape⟩ := exists_layout t (List.forall₂_take_append _ _ _ hnodes)
      obtain ⟨gs, hgs, hshapes⟩ := exists_layoutAll fs (List.forall₂_drop_append _ _ _ hnodes)
      refine ⟨(name, u) :: gs, ?_, ?_⟩
      · rw [layoutAll, descendants_of_shape hshape, hu, hgs, List.take_append_drop]
      · rw [withRulesAll, withRulesAll, hshapes]
        exact congrArg (fun v => (name, v) :: _) hshape

end

end Tree

variable [Inspect κ]

namespace Tree

/-- The copies of a node's descriptors that a mapper is given: those of the copies in the clone. -/
def given (u : Tree κ) : List (Value κ) := (copiedRules (copiedRules u.rules)).getD []

def calls (m : κ) (t : Tree κ) : List (Event κ) :=
  t.postOrder.map fun u => .map m (.list .fresh u.given)

theorem CopiedTwice.given_eq {u : Tree κ} (hu : u.CopiedTwice) :
    ∃ copies, Value.deepCopyAll (u.rules.getD []) = .ok copies ∧
      Value.deepCopyAll copies = .ok u.given :=
  ⟨_, hu.copyableRules.copies_eq, hu.again.copies_eq⟩

theorem rules_clone (t : Tree κ) (a : Nat) :
    ((t.withRules copiedRules).layout a).map (·.rules) =
      t.postOrder.map fun u => copiedRules u.rules := by
  rw [layout_withRules, List.map_map]
  change List.map (copiedRules ∘ fun x : Node κ => x.rules) _ = _
  rw [← List.map_map, map_rules_layout, List.map_map]
  rfl

theorem exists_cloned {t : Tree κ} {a i : Nat} {x : Node κ}
    (hx : ((t.withRules copiedRules).layout a)[i]? = some x) :
    ∃ u, t.postOrder[i]? = some u ∧ x.rules = copiedRules u.rules := by
  have hrules := congrArg (·[i]?) (t.rules_clone a)
  simp only [List.getElem?_map, hx, Option.map_some] at hrules
  obtain ⟨u, hu, hrules⟩ := Option.map_eq_some_iff.mp hrules.symm
  exact ⟨u, hu, hrules.symm⟩

theorem exists_clone {t : Tree κ} {i : Nat} {u : Tree κ} (hu : t.postOrder[i]? = some u)
    (a : Nat) :
    ∃ x, ((t.withRules copiedRules).layout a)[i]? = some x ∧ x.rules = copiedRules u.rules := by
  have hrules := congrArg (·[i]?) (t.rules_clone a)
  simp only [List.getElem?_map, hu, Option.map_some] at hrules
  exact Option.map_eq_some_iff.mp hrules

theorem calls_eq (m : κ) (t : Tree κ) (a : Nat) :
    ((t.withRules copiedRules).layout a).map (Node.call m) = t.calls m := by
  have hcall : Node.call m = (fun r => .map m (.list .fresh ((copiedRules r).getD []))) ∘
      fun x : Node κ => x.rules := rfl
  rw [hcall, ← List.map_map, rules_clone, List.map_map]
  rfl

end Tree

def Mapping.answer (mapping : Mapping κ) (m : κ) (options : OptionsArg κ) (t : Tree κ) (i : Nat)
    (u : Tree κ) : Except (Fault κ) (Value κ) :=
  mapping ((t.calls m).take i) (.list .fresh u.given) options

/-- The mapper answers with rules, or with none at all, which leaves a node the rules it has. -/
def Settles (answer : Except (Fault κ) (Value κ)) : Prop :=
  ∃ a, answer = .ok a ∧ (a = .null ∨ ∃ rules, a.StandsFor rules)

/-- The mapper raises, or it answers with something else than rules, or with a sequence that does
not yield them. -/
inductive BreaksOff : Except (Fault κ) (Value κ) → Fault κ → Prop
  | raises {f : Fault κ} : BreaksOff (.error f) f
  | malformed {a : Value κ} (ha : a.Malformed) : BreaksOff (.ok a) (.mappedKind a.kind)
  | unread {a : Value κ} {f : Fault κ} (ha : a.Unread f) : BreaksOff (.ok a) f

/-- The rules of a node that has had `old` ones, after an answer. -/
inductive Value.RulesOver (old : Option (List (Value κ))) :
    Value κ → Option (List (Value κ)) → Prop
  | kept : RulesOver old .null old
  | replaced {a : Value κ} {rules : List (Value κ)} (ha : a.StandsFor rules) :
    RulesOver old a (some rules)

theorem Settles.exists_rules {answer : Except (Fault κ) (Value κ)} (h : Settles answer) :
    ∃ rules, answer >>= normalizeRules = .ok rules := by
  obtain ⟨a, rfl, rfl | ⟨rules, hrules⟩⟩ := h
  · exact ⟨none, rfl⟩
  · exact ⟨some rules, normalizeRules_of_standsFor hrules⟩

theorem BreaksOff.bind_eq {answer : Except (Fault κ) (Value κ)} {f : Fault κ}
    (h : BreaksOff answer f) : answer >>= normalizeRules = .error f := by
  cases h with
  | raises => rfl
  | malformed ha => exact normalizeRules_of_malformed ha
  | unread ha => exact normalizeRules_of_unread ha

theorem exists_breaksOff {answer : Except (Fault κ) (Value κ)} (h : ¬ Settles answer) :
    ∃ f, BreaksOff answer f := by
  cases answer with
  | error f => exact ⟨f, .raises⟩
  | ok a =>
      rcases normalizeRules_cases a with hnull | hrules | hmalformed | ⟨f, hunread⟩
      · exact absurd ⟨a, rfl, .inl hnull⟩ h
      · exact absurd ⟨a, rfl, .inr hrules⟩ h
      · exact ⟨_, .malformed hmalformed⟩
      · exact ⟨f, .unread hunread⟩

theorem Value.rulesOver_of_normalizeRules {a : Value κ} {rules : Option (List (Value κ))}
    (h : normalizeRules a = .ok rules) (old : Option (List (Value κ))) :
    a.RulesOver old (rules.or old) := by
  rcases normalizeRules_cases a with rfl | ⟨made, hmade⟩ | hmalformed | ⟨f, hunread⟩
  · obtain rfl := Except.ok.inj h
    exact .kept
  · obtain rfl := Except.ok.inj ((normalizeRules_of_standsFor hmade).symm.trans h)
    exact .replaced hmade
  · exact nomatch (normalizeRules_of_malformed hmalformed).symm.trans h
  · exact nomatch (normalizeRules_of_unread hunread).symm.trans h

section run

variable {hosts : List (Event κ) → Host κ} {m : κ} {mapping : Mapping κ}
  (hm : ∀ made, (hosts made).mapper m = some (mapping made))

include hm

theorem mapNodes_settled {h : Heap κ} {front nodes rest : List (Node κ)}
    (hnodes : h.nodes = front ++ nodes ++ rest)
    (hcopies : ∀ x ∈ nodes, CopyableRules x.rules ∧ x.rulesMark = .fresh) (options : OptionsArg κ)
    (hsettles : ∀ i x, nodes[i]? = some x →
      Settles (mapping ((nodes.map (Node.call m)).take i) (.list .fresh x.given) options)) :
    ∃ mapped : List (Node κ × Option (List (Value κ))), mapped.map (·.1) = nodes ∧
      (∀ i x, mapped[i]? = some x →
        mapping ((nodes.map (Node.call m)).take i) (.list .fresh x.1.given) options >>=
          normalizeRules = .ok x.2) ∧
      ∀ left, mapNodes hosts (.object m) options []
          (List.range' front.length nodes.length ++ left) h =
        let done := mapNodes hosts (.object m) options (nodes.map (Node.call m)) left
          { h with nodes := front ++ mapped.map (fun x => x.1.withRules (x.2.or ·)) ++ rest }
        (⟨nodes.map (Node.call m) ++ done.1.events, done.1.outcome⟩, done.2) := by
  let rules (i : Nat) (x : Node κ) : Option (List (Value κ)) :=
    (mapping ((nodes.map (Node.call m)).take i) (.list .fresh x.given) options >>=
      normalizeRules).toOption.getD none
  obtain ⟨mapped, hmapped⟩ : ∃ mapped, mapped = nodes.mapIdx fun i x => (x, rules i x) := ⟨_, rfl⟩
  have hfirst : mapped.map (·.1) = nodes :=
    List.ext_getElem? fun i => by simp [hmapped, Function.comp_def]
  have hanswers : ∀ i x, mapped[i]? = some x →
      mapping ((nodes.map (Node.call m)).take i) (.list .fresh x.1.given) options >>=
        normalizeRules = .ok x.2 := by
    intro i x hx
    rw [hmapped, List.getElem?_mapIdx] at hx
    obtain ⟨y, hy, rfl⟩ := Option.map_eq_some_iff.mp hx
    obtain ⟨made, hmade⟩ := (hsettles i y hy).exists_rules
    simp only [rules, hmade]
    rfl
  have hcalls : mapped.map (·.1.call m) = nodes.map (Node.call m) := by
    rw [← hfirst, List.map_map]
    rfl
  refine ⟨mapped, hfirst, hanswers, fun left => ?_⟩
  have hrun := mapNodes_append hm mapped (hfirst.symm ▸ hnodes) (fun x hx => hcopies x.1 (by
    rw [← hfirst]
    exact List.mem_map_of_mem hx)) options [] (fun i x hx => by
      rw [List.map_take, hcalls]
      exact hanswers i x hx) left
  have hlength : mapped.length = nodes.length := by rw [← hfirst, List.length_map]
  rwa [hcalls, hlength] at hrun

end run

omit [Inspect κ] in
/-- Later operations change no nodes but those that they are aimed at, whatever a program does. -/
def Heap.ChangesWhereAimed (h : Heap κ) : Prop :=
  ∀ kept : NodeId → Prop, (∀ k, kept k → k < h.nodes.length) → ∀ moments,
    h.CourseEach (fun answers => @Operation.InScope κ answers (.only fun k => ¬ kept k)) moments →
    ∀ k, kept k → (h.course moments).node k = h.node k

omit [Inspect κ] in
theorem Heap.Unshared.changesWhereAimed {h : Heap κ} (hunshared : h.Unshared) :
    h.ChangesWhereAimed := by
  intro kept hkept moments hmoments k hk
  have hstart : h.ChangedAt (fun k => ¬ kept k) h :=
    ⟨fun k hle hk => Nat.not_lt.mpr hle (hkept k hk), hunshared, Nat.le_refl _, fun _ _ => rfl⟩
  have hchanged := Heap.Invariant.course (fun answers => @ChangedAt.invariant κ answers _ h)
    (fun hh _ => ⟨hh.new, hh.unshared, hh.grows, hh.same⟩) hstart moments hmoments
  exact hchanged.same k (not_not_intro hk)

/-- The heap holds a compiled schema of the shape of `t`, made of nodes that were not there before,
where each node has the rules that come of the mapper's answer for it. -/
structure Heap.CompiledFrom (h before : Heap κ) (root : NodeId) (t t' : Tree κ)
    (answer : Nat → Tree κ → Except (Fault κ) (Value κ)) : Prop where
  holds : h.Holds root t'
  new : ∀ k, h.Reaches root k → before.nodes.length ≤ k
  shape : t'.shape = t.shape
  rules : ∀ i u a, t.postOrder[i]? = some u → answer i u = .ok a →
    ∃ rules, a.RulesOver (Tree.copiedRules u.rules) rules ∧
      t'.postOrder[i]?.map Tree.rules = some rules

section compile

variable {hosts : List (Event κ) → Host κ} {m : κ} {mapping : Mapping κ} {t : Tree κ}
  {o : Options κ} (hm : ∀ made, (hosts made).mapper m = some (mapping made))
  (hcopies : t.Each Tree.CopiedTwice)

include hm hcopies

/-- The first nodes of a clone, as many as have their rules settled, get what comes of the answers,
and the mapper goes on with the nodes that are left. -/
theorem mapNodes_clone (h : Heap κ) {k : Nat} (hk : k ≤ t.descendants + 1)
    (hsettles : ∀ i < k, ∀ u, t.postOrder[i]? = some u →
      Settles (mapping.answer m (.options o) t i u)) :
    let nodes := (t.withRules Tree.copiedRules).layout h.nodes.length
    ∃ mapped : List (Node κ × Option (List (Value κ))), mapped.map (·.1) = nodes.take k ∧
      (∀ i x u a, mapped[i]? = some x → t.postOrder[i]? = some u →
        mapping.answer m (.options o) t i u = .ok a →
        a.RulesOver (Tree.copiedRules u.rules) (x.2.or x.1.rules)) ∧
      ∀ left, mapNodes hosts (.object m) (.options o) [] (List.range' h.nodes.length k ++ left)
          (h.extend nodes) =
        let done := mapNodes hosts (.object m) (.options o) ((t.calls m).take k) left
          (h.extend (mapped.map (fun x => x.1.withRules (x.2.or ·)) ++ nodes.drop k))
        (⟨(t.calls m).take k ++ done.1.events, done.1.outcome⟩, done.2) := by
  intro nodes
  have hcopied (x : Node κ) (hx : x ∈ nodes.take k) :
      CopyableRules x.rules ∧ x.rulesMark = .fresh := by
    have hx := List.mem_of_mem_take hx
    exact ⟨Tree.rules_layout (Tree.each_withRules (hcopies.mono fun u hu => hu.again)) hx,
      (Tree.marks_of_layout hx).1⟩
  have hlength : (nodes.take k).length = k := by
    rw [List.length_take, Tree.length_layout, Tree.descendants_withRules, Nat.min_eq_left hk]
  have hcalls : (nodes.take k).map (Node.call m) = (t.calls m).take k := by
    rw [List.map_take, Tree.calls_eq]
  -- what the mapper answers for a node of the clone is its answer for the node of the tree
  have hanswer {i : Nat} {x : Node κ} (hx : (nodes.take k)[i]? = some x) :
      i < k ∧ ∃ u, t.postOrder[i]? = some u ∧ x.rules = Tree.copiedRules u.rules ∧
        mapping (((t.calls m).take k).take i) (.list .fresh x.given) (.options o) =
          mapping.answer m (.options o) t i u := by
    have hi : i < k := by
      have hi := (List.getElem?_eq_some_iff.mp hx).1
      rwa [hlength] at hi
    rw [List.getElem?_take_of_lt hi] at hx
    obtain ⟨u, hu, hrules⟩ := Tree.exists_cloned hx
    refine ⟨hi, u, hu, hrules, ?_⟩
    rw [List.take_take, Nat.min_eq_left (Nat.le_of_lt hi), Node.given, hrules]
    rfl
  have hnodes : (h.extend nodes).nodes = h.nodes ++ nodes.take k ++ nodes.drop k := by
    rw [Heap.nodes_extend, List.append_assoc, List.take_append_drop]
  obtain ⟨mapped, hfirst, hanswers, hrun⟩ := mapNodes_settled hm hnodes hcopied (.options o)
    fun i x hx => by
      obtain ⟨hi, u, hu, -, hsame⟩ := hanswer hx
      rw [hcalls, hsame]
      exact hsettles i hi u hu
  rw [hlength, hcalls] at hrun
  refine ⟨mapped, hfirst, fun i x u a hx hu ha => ?_, fun left => ?_⟩
  · have hfirst : (nodes.take k)[i]? = some x.1 := by
      rw [← hfirst, List.getElem?_map, hx, Option.map_some]
    obtain ⟨-, v, hv, hrules, hsame⟩ := hanswer hfirst
    obtain rfl := Option.some.inj (hu.symm.trans hv)
    have hmade := hanswers i x hx
    rw [hcalls, hsame, ha] at hmade
    rw [hrules]
    exact Value.rulesOver_of_normalizeRules hmade _
  · rw [hrun]
    simp only [Heap.extend, List.append_assoc]

theorem mapNodes_settles (h : Heap κ)
    (hsettles : ∀ i u, t.postOrder[i]? = some u → Settles (mapping.answer m (.options o) t i u)) :
    ∃ t' : Tree κ, mapNodes hosts (.object m) (.options o) []
        (List.range' h.nodes.length (t.descendants + 1))
        (h.extend ((t.withRules Tree.copiedRules).layout h.nodes.length)) =
      (⟨t.calls m, .ok ()⟩, h.extend (t'.layout h.nodes.length)) ∧ t'.shape = t.shape ∧
      ∀ i u a, t.postOrder[i]? = some u → mapping.answer m (.options o) t i u = .ok a →
        ∃ rules, a.RulesOver (Tree.copiedRules u.rules) rules ∧
          t'.postOrder[i]?.map Tree.rules = some rules := by
  obtain ⟨mapped, hfirst, hrules, hrun⟩ := mapNodes_clone hm hcopies h (Nat.le_refl _)
    fun i _ => hsettles i
  have hlength : ((t.withRules Tree.copiedRules).layout h.nodes.length).length ≤
      t.descendants + 1 := by
    rw [Tree.length_layout, Tree.descendants_withRules]
  have hall : (t.calls m).take (t.descendants + 1) = t.calls m := by
    rw [← Tree.length_postOrder]
    exact List.take_of_length_le (by rw [Tree.calls, List.length_map])
  rw [List.take_of_length_le hlength] at hfirst
  have hsame : List.Forall₂ Node.SameButRules (mapped.map fun x => x.1.withRules (x.2.or ·))
      ((t.withRules Tree.copiedRules).layout h.nodes.length) := by
    rw [← hfirst, List.forall₂_map_left_iff, List.forall₂_map_right_iff]
    exact List.forall₂_same.mpr fun x _ => ⟨x.2.or x.1.rules, rfl⟩
  obtain ⟨t', hlayout, hshape⟩ := Tree.exists_layout _ hsame
  refine ⟨t', ?_, ?_, fun i u a hu ha => ?_⟩
  · have hrun := hrun []
    rw [List.append_nil, hall, List.drop_of_length_le hlength, List.append_nil, ← hlayout] at hrun
    rw [hrun, mapNodes]
    simp
  · rw [hshape, Tree.shape, Tree.withRules_withRules]
    rfl
  · obtain ⟨x, hx, -⟩ := Tree.exists_clone hu h.nodes.length
    rw [← hfirst, List.getElem?_map] at hx
    obtain ⟨y, hy, rfl⟩ := Option.map_eq_some_iff.mp hx
    refine ⟨_, hrules i y u a hy hu ha, ?_⟩
    rw [← List.getElem?_map, ← Tree.map_rules_layout t' h.nodes.length, hlayout, List.map_map,
      List.getElem?_map, hy]
    rfl

theorem mapNodes_breaksOff (h : Heap κ) {i : Nat} {u : Tree κ} (hu : t.postOrder[i]? = some u)
    (hearlier : ∀ j < i, ∀ v, t.postOrder[j]? = some v →
      Settles (mapping.answer m (.options o) t j v)) {f : Fault κ}
    (hf : BreaksOff (mapping.answer m (.options o) t i u) f) :
    (mapNodes hosts (.object m) (.options o) []
        (List.range' h.nodes.length (t.descendants + 1))
        (h.extend ((t.withRules Tree.copiedRules).layout h.nodes.length))).1 =
      ⟨(t.calls m).take (i + 1), .error f⟩ := by
  have hi : i < t.descendants + 1 := by
    rw [← Tree.length_postOrder]
    exact (List.getElem?_eq_some_iff.mp hu).1
  obtain ⟨mapped, hfirst, -, hrun⟩ := mapNodes_clone hm hcopies h (Nat.le_of_lt hi) hearlier
  obtain ⟨x, hx, hrules⟩ := Tree.exists_clone hu h.nodes.length
  have hgiven : x.given = u.given := by
    rw [Node.given, hrules]
    rfl
  have hrange : List.range' h.nodes.length (t.descendants + 1) =
      List.range' h.nodes.length i ++
        (h.nodes.length + i) :: List.range' (h.nodes.length + i + 1) (t.descendants - i) := by
    rw [← List.range'_succ, List.range'_append_1, ← Nat.add_assoc,
      Nat.add_sub_of_le (Nat.le_of_lt_succ hi)]
  obtain ⟨later, hlater⟩ : ∃ later, later = h.extend
    (mapped.map (fun x => x.1.withRules (x.2.or ·)) ++
      ((t.withRules Tree.copiedRules).layout h.nodes.length).drop i) := ⟨_, rfl⟩
  -- the node stands where it stood, as the ones before it were changed in place
  have hnode : later.node (h.nodes.length + i) = x := by
    have hlength := congrArg List.length hfirst
    rw [List.length_map, List.length_take, Tree.length_layout, Tree.descendants_withRules,
      Nat.min_eq_left (Nat.le_of_lt hi)] at hlength
    simp [hlater, Heap.node, List.getElem?_append_right, hlength, hx]
  have hcopyable : CopyableRules (later.node (h.nodes.length + i)).rules := by
    rw [hnode, hrules]
    exact (hcopies.of_mem_postOrder (List.mem_of_getElem? hu)).again
  have hmapped := mapNode_eq hm hcopyable (.options o) ((t.calls m).take i)
  rw [hnode, Node.call, hgiven, show mapping _ _ _ >>= normalizeRules = .error f from hf.bind_eq]
    at hmapped
  rw [hrange, hrun, ← hlater, mapNodes_cons_of_error hmapped, List.take_add_one, Tree.calls,
    List.getElem?_map, hu]
  rfl

end compile

/-- Compiling a schema calls the mapper once for each node, those of the fields of a node in their
order before the node, each time with copies of the node's own descriptors and with the options that
are meant. If each call settles the rules of its node, the compiled schema looks like the schema and
holds at each node what came of the answer for it; at the first one that does not, compiling fails
with what the mapper raised, or for its answer, and makes no other call. What was there is as it
was, and neither the schema nor the compiled one changes by what is done to other nodes later. -/
theorem compile_calls {hosts : List (Event κ) → Host κ} {m : κ} {mapping : Mapping κ} {h : Heap κ}
    {n : NodeId} {t : Tree κ} {options : OptionsArg κ} {o : Options κ} (hn : h.Holds n t)
    (hcopies : t.Each Tree.CopiedTwice) (ho : options.resolve = .ok o)
    (hcallable : Inspect.callable m = true)
    (hm : ∀ made, (hosts made).mapper m = some (mapping made)) (pipeline : Pipeline κ) :
    let answer := mapping.answer m (.options o) t
    let compiled := compileWith hosts (.node n) (.object m) options pipeline h
    (∀ u ∈ t.postOrder, ∃ copies, Value.deepCopyAll (u.rules.getD []) = .ok copies ∧
      Value.deepCopyAll copies = .ok u.given) ∧
    h.Kept compiled.2 ∧ (h.Unshared → compiled.2.ChangesWhereAimed) ∧
    ((∀ i u, t.postOrder[i]? = some u → Settles (answer i u)) ∧
        (∃ root t', compiled.2.CompiledFrom h root t t' answer ∧ compiled.1 =
          ⟨t.calls m, o.withoutValidator.map fun options => ⟨root, options, pipeline⟩⟩) ∨
      ∃ i u f, t.postOrder[i]? = some u ∧
        (∀ j < i, ∀ v, t.postOrder[j]? = some v → Settles (answer j v)) ∧
        BreaksOff (answer i u) f ∧ compiled.1 = ⟨(t.calls m).take (i + 1), .error f⟩) := by
  intro answer compiled
  refine ⟨fun u hu => (hcopies.of_mem_postOrder hu).given_eq,
    .compileWith hosts (.object m) options (.node n) pipeline h, fun hunshared =>
      ((Heap.QuietFrom.refl hunshared).compileWith hosts (.node n) (.object m) options
        pipeline).unshared.changesWhereAimed, ?_⟩
  have hrun : compiled = _ := compileWith_eq hosts hn
    (hcopies.mono fun u hu => hu.copyableRules) ho hcallable pipeline
  rw [hrun]
  by_cases hsettles : ∀ i u, t.postOrder[i]? = some u → Settles (answer i u)
  · obtain ⟨t', hmapped, hshape, hrules⟩ := mapNodes_settles hm hcopies h hsettles
    have hholds : (h.extend (t'.layout h.nodes.length)).Holds
        (h.nodes.length + t'.descendants) t' := Tree.holds_of_layout t' (List.append_nil _).symm
    rw [Tree.descendants_of_shape hshape] at hholds
    rw [hmapped]
    refine .inl ⟨hsettles, h.nodes.length + t.descendants, t', ⟨hholds, fun k hk => ?_, hshape,
      hrules⟩, ?_⟩
    · exact (Tree.between_of_reaches_planted (Nat.le_add_right ..) hk).1
    · cases o.withoutValidator <;> exact Run.ext (List.append_nil _) rfl
  · classical
    simp only [not_forall] at hsettles
    obtain ⟨u, hu, hnot⟩ := Nat.find_spec hsettles
    obtain ⟨f, hf⟩ := exists_breaksOff hnot
    have hearlier : ∀ j < Nat.find hsettles, ∀ v, t.postOrder[j]? = some v →
        Settles (answer j v) := by
      intro j hj v hv
      by_contra hnot
      exact Nat.find_min hsettles hj ⟨v, hv, hnot⟩
    have hmapped := mapNodes_breaksOff hm hcopies h hu hearlier hf
    refine .inr ⟨_, u, f, hu, hearlier, hf, ?_⟩
    dsimp only
    rw [hmapped]
    rfl

namespace OrderFunction

/-- A mapper that makes a rule when it is called for the first time, and nothing afterwards. -/
def once : Mapping OrderFunction := fun made _ _ =>
  .ok (if made.isEmpty then .object .positive else .null)

def onceHost (made : List (Event OrderFunction)) : Host OrderFunction where
  rule := host.rule
  mapper
    | positive => none
    | callables => some (once made)

end OrderFunction

open OrderFunction in
/-- The mapper is called for the count, the items and the order. The rule that it makes is that of
the count, as it is called for the count first. -/
theorem order_compiled_once :
    let compiled := compileWith onceHost (.node 2) (.object .callables) (.value .null)
      Pipeline.standard (heap [.str "positive"])
    compiled.1.events = [[.str "positive"], [], []].map (.map .callables <| .list .fresh ·) ∧
      ∃ root t', compiled.2.Holds root t' ∧ t'.shape = (order []).shape ∧
        t'.postOrder[0]?.map Tree.rules = some (some [.object .positive]) ∧
        t'.postOrder[2]?.map Tree.rules = some none := by
  have hm (made : List (Event OrderFunction)) :
      (onceHost made).mapper .callables = some (once made) := rfl
  have hoptions : (OptionsArg.value (.null : Value OrderFunction)).resolve = .ok {} := rfl
  obtain ⟨-, -, -, ⟨-, root, t', hcompiled, hrun⟩ | ⟨i, u, f, -, -, hf, -⟩⟩ :=
    compile_calls (heap_holds [.str "positive"])
      (Tree.each_of_forall Tree.copiedTwice_of_ownCopies _) hoptions rfl hm Pipeline.standard
  · obtain ⟨_, hmade, hcount⟩ := hcompiled.rules 0 _ _ rfl rfl
    obtain ⟨_, hkept, horder⟩ := hcompiled.rules 2 _ _ rfl rfl
    refine ⟨congrArg Run.events hrun, root, t', hcompiled.holds, hcompiled.shape, ?_, ?_⟩
    · rw [hcount]
      cases hmade with
      | replaced hrules =>
          cases hrules with
          | rule => rfl
          | sequence hnot => cases hnot
    · rw [horder]
      cases hkept with
      | kept => rfl
      | replaced hrules =>
          cases hrules with
          | rule hcallable => cases hcallable
          | sequence _ hsequence => cases hsequence
  · have hrules := hf.bind_eq
    rw [Mapping.answer, once] at hrules
    split at hrules <;> exact nomatch hrules

/-- The functions of a program, and a queue of rules. -/
inductive QueueFunction where
  | rule
  /-- Holds the rule. -/
  | queue
  /-- A mapper that answers with the queue. -/
  | queued
  deriving DecidableEq

namespace QueueFunction

instance : Inspect QueueFunction where
  kind o := if o = queue then "deque" else "function"
  render _ := .ok "<function>"
  text _ := .ok "<function>"
  truth _ := .ok true
  callable o := o != queue
  identical a b := a == b
  same a b := a == b
  canBeKey _ := true
  items
    | queue => .ok [.object rule]
    | _ => .error (.misuse .unsupported)
  sequence o := o == queue
  deepCopy := .ok
  shallowCopy := .ok
  fixed _ := true
  replace _ o := o

def host : Host QueueFunction where
  rule _ := none
  mapper
    | queued => some fun _ _ => .ok (.object queue)
    | _ => none

def heap : Heap QueueFunction where
  nodes := [
    { registry := Heap.defaultRegistry },
    { registry := Heap.defaultRegistry, fields := some [("count", 0)] }]

end QueueFunction

open QueueFunction in
/-- A queue is neither a callable nor a list or tuple, and yet compiling takes the rule that is in
it, and the mapper is called again. -/
theorem queue_taken_for_rules :
    (Value.object queue).isCallable = false ∧ (Value.object queue).isArray = false ∧
      let compiled := compile host (.node 1) (.object queued) (.value .null) Pipeline.standard heap
      compiled.1.events = List.replicate 2 (.map queued (.list .fresh [])) ∧
        ∃ c, compiled.1.outcome = .ok c :=
  ⟨rfl, rfl, rfl, _, rfl⟩

end SchemaTree
