import SchemaTree.Proofs.RuleChange
import SchemaTree.Proofs.TreeLayout

/-!
What compiling makes of a schema. The schema is planted anew at the end of the heap, and each of the
new nodes gets the rules that the mapper makes of a copy of its descriptors, once.
-/

namespace SchemaTree

variable {κ : Type}

def Node.withRules (f : Option (List (Value κ)) → Option (List (Value κ))) (x : Node κ) : Node κ :=
  { x with rules := f x.rules, rulesMark := .fresh }

namespace Tree

section layout

variable (f : Option (List (Value κ)) → Option (List (Value κ)))

mutual

theorem descendants_withRules (t : Tree κ) : (t.withRules f).descendants = t.descendants := by
  obtain ⟨registry, required, array, strict, rules, _ | fs⟩ := t
  · rfl
  · exact descendantsAll_withRulesAll fs

theorem descendantsAll_withRulesAll (fs : List (String × Tree κ)) :
    descendantsAll (withRulesAll f fs) = descendantsAll fs := by
  cases fs with
  | nil => rfl
  | cons g fs =>
      simp [withRulesAll, descendantsAll, descendants_withRules g.2,
        descendantsAll_withRulesAll fs]

end

theorem fieldsAt_withRulesAll (fs : List (String × Tree κ)) (a : Nat) :
    fieldsAt (withRulesAll f fs) a = fieldsAt fs a := by
  induction fs generalizing a with
  | nil => rfl
  | cons g fs ih => simp [withRulesAll, fieldsAt, descendants_withRules, ih]

mutual

theorem layout_withRules (t : Tree κ) (a : Nat) :
    (t.withRules f).layout a = (t.layout a).map (Node.withRules f) := by
  obtain ⟨registry, required, array, strict, rules, _ | fs⟩ := t
  · rfl
  · simp [withRules, layout, layoutAll_withRulesAll fs a, fieldsAt_withRulesAll, Node.withRules]

theorem layoutAll_withRulesAll (fs : List (String × Tree κ)) (a : Nat) :
    layoutAll (withRulesAll f fs) a = (layoutAll fs a).map (Node.withRules f) := by
  cases fs with
  | nil => rfl
  | cons g fs =>
      simp [withRulesAll, layoutAll, descendants_withRules, layout_withRules g.2 a,
        layoutAll_withRulesAll fs (a + g.2.descendants + 1)]

end

end layout

end Tree

variable [Inspect κ]

/-- What a mapper answers, which may depend on the calls made before. -/
abbrev Mapping (κ : Type) :=
  (made : List (Event κ)) → Value κ → OptionsArg κ → Except (Fault κ) (Value κ)

namespace Node

/-- The copies of a node's descriptors that a mapper is given. -/
def given (x : Node κ) : List (Value κ) := (Tree.copiedRules x.rules).getD []

/-- The call of a mapper for a node. -/
def call (m : κ) (x : Node κ) : Event κ := .map m (.list .fresh x.given)

omit [Inspect κ] in
theorem withRules_id {x : Node κ} (hx : x.rulesMark = .fresh) : x.withRules id = x := by
  rw [withRules, ← hx]
  rfl

end Node

section answers

variable {hosts : List (Event κ) → Host κ} {m : κ} {mapping : Mapping κ}
  (hm : ∀ made, (hosts made).mapper m = some (mapping made))

include hm

theorem mapNode_eq {h : Heap κ} {n : NodeId} (hcopies : CopyableRules (h.node n).rules)
    (options : OptionsArg κ) (made : List (Event κ)) :
    mapNode (hosts made) (.object m) options h n = ⟨[(h.node n).call m],
      mapping made (.list .fresh (h.node n).given) options >>= normalizeRules⟩ := by
  rw [mapNode, hcopies.copies_eq, Run.of_ok, pure_bind]
  apply Run.ext
  · simp [applyMapper, callMapper, hm, Run.events_bind, Node.call, Node.given]
    split <;> rfl
  · simp only [applyMapper, callMapper, hm, Run.outcome_bind, Run.outcome_tell, Run.outcome_of,
      Node.given]
    cases mapping made (.list .fresh ((Tree.copiedRules (h.node n).rules).getD [])) options <;> rfl

omit hm in
/-- A node that the mapper answers for gets the rules that it answers with, or keeps its own. -/
theorem mapNodes_cons {mapper : Value κ} {options : OptionsArg κ} {made : List (Event κ)}
    {h : Heap κ} {n : NodeId} {e : Event κ} {rules : Option (List (Value κ))}
    (hfresh : (h.node n).rulesMark = .fresh)
    (hmapped : mapNode (hosts made) mapper options h n = ⟨[e], .ok rules⟩) (left : List NodeId) :
    mapNodes hosts mapper options made (n :: left) h =
      let done := mapNodes hosts mapper options (made ++ [e]) left
        (h.setNode n ((h.node n).withRules (rules.or ·)))
      (⟨e :: done.1.events, done.1.outcome⟩, done.2) := by
  rw [mapNodes, hmapped]
  cases rules with
  | none =>
      have hsame : h.setNode n ((h.node n).withRules (none.or ·)) = h :=
        (congrArg (h.setNode n) (Node.withRules_id hfresh)).trans (h.setNode_node n)
      rw [hsame]
      rfl
  | some rules => rfl

omit hm in
theorem mapNodes_cons_of_error {mapper : Value κ} {options : OptionsArg κ}
    {made : List (Event κ)} {h : Heap κ} {n : NodeId} {e : Event κ} {f : Fault κ}
    (hmapped : mapNode (hosts made) mapper options h n = ⟨[e], .error f⟩) (left : List NodeId) :
    mapNodes hosts mapper options made (n :: left) h = (⟨[e], .error f⟩, h) := by
  rw [mapNodes, hmapped]

/-- Nodes that stand one after the other, for each of which the mapper answers with rules or with
none, get these rules or keep theirs, and the mapper goes on with the nodes that are left. -/
theorem mapNodes_append (mapped : List (Node κ × Option (List (Value κ)))) {h : Heap κ}
    {front rest : List (Node κ)} (hnodes : h.nodes = front ++ mapped.map (·.1) ++ rest)
    (hcopies : ∀ x ∈ mapped, CopyableRules x.1.rules ∧ x.1.rulesMark = .fresh)
    (options : OptionsArg κ) (made : List (Event κ))
    (hanswers : ∀ i x, mapped[i]? = some x →
      (mapping (made ++ (mapped.take i).map (·.1.call m)) (.list .fresh x.1.given) options >>=
        normalizeRules) = .ok x.2) (left : List NodeId) :
    mapNodes hosts (.object m) options made
        (List.range' front.length mapped.length ++ left) h =
      let done := mapNodes hosts (.object m) options (made ++ mapped.map (·.1.call m)) left
        { h with nodes := front ++ mapped.map (fun x => x.1.withRules (x.2.or ·)) ++ rest }
      (⟨mapped.map (·.1.call m) ++ done.1.events, done.1.outcome⟩, done.2) := by
  induction mapped generalizing h front made with
  | nil =>
      rw [List.map_nil, List.append_nil] at hnodes
      simp [← hnodes]
  | cons x mapped ih =>
      have hnode : h.node front.length = x.1 := by
        simp [Heap.node, hnodes]
      obtain ⟨hx, hfresh⟩ := hcopies x (by simp)
      have hmapped := mapNode_eq hm (hnode.symm ▸ hx) options made
      have hanswer := hanswers 0 x rfl
      rw [List.take_zero, List.map_nil, List.append_nil] at hanswer
      rw [hnode, hanswer] at hmapped
      have hset : (h.setNode front.length (x.1.withRules (x.2.or ·))).nodes =
          (front ++ [x.1.withRules (x.2.or ·)]) ++ mapped.map (·.1) ++ rest := by
        rw [Heap.setNode, hnodes]
        simp
      -- The node that is done joins those in front, and no later call comes back to it.
      have hrest := ih hset (fun z hz => hcopies z (by simp [hz])) (made ++ [x.1.call m])
        fun i z hz => by
          have hz := hanswers (i + 1) z hz
          rwa [List.take_succ_cons, List.map_cons, List.append_cons] at hz
      rw [List.length_append, List.length_singleton] at hrest
      rw [List.length_cons, List.range'_succ, List.cons_append,
        mapNodes_cons (hnode.symm ▸ hfresh) hmapped, hnode, hrest]
      simp [Heap.setNode]

end answers

/-- The mapper makes rules of descriptors by a function of its own, whatever the options are, and
does not tell copies of descriptors from their originals. Of no descriptors it makes no rules. -/
structure Host.MapsBy (host : Host κ) (m : κ) (rulesOf : List (Value κ) → List (Value κ)) :
    Prop where
  callable : Inspect.callable m = true
  answers : ∃ f, host.mapper m = some f ∧ ∀ xs options, ∃ answer,
    f (.list .fresh xs) options = .ok answer ∧ normalizeRules answer = .ok (some (rulesOf xs))
  copies : ∀ xs copies, Value.deepCopyAll xs = .ok copies → rulesOf copies = rulesOf xs
  none : rulesOf [] = []

section mapsBy

variable {host : Host κ} {m : κ} {rulesOf : List (Value κ) → List (Value κ)}
  (hmaps : host.MapsBy m rulesOf)

include hmaps

theorem Host.MapsBy.applyMapper_eq (xs : List (Value κ)) (options : OptionsArg κ) :
    applyMapper host (.object m) (.list .fresh xs) options =
      ⟨[.map m (.list .fresh xs)], .ok (some (rulesOf xs))⟩ := by
  obtain ⟨f, hf, hanswers⟩ := hmaps.answers
  obtain ⟨answer, hanswer, hrules⟩ := hanswers xs options
  apply Run.ext
  · simp [applyMapper, callMapper, hf, hanswer, Run.events_bind]
  · simp only [applyMapper, callMapper, hf, hanswer, hrules, Run.outcome_bind, Run.outcome_tell,
      Run.outcome_of]

/-- Nodes that stand one after the other are given the rules that the mapper makes of theirs, and no
other node is. -/
theorem mapNodes_eq (nodes : List (Node κ)) {h : Heap κ} {front rest : List (Node κ)}
    (hnodes : h.nodes = front ++ nodes ++ rest)
    (hcopies : ∀ x ∈ nodes, CopyableRules x.rules ∧ x.rulesMark = .fresh)
    (options : OptionsArg κ) :
    mapNodes (fun _ => host) (.object m) options [] (List.range' front.length nodes.length) h =
      (⟨nodes.map (Node.call m), .ok ()⟩, { h with
        nodes := front ++ nodes.map (Node.withRules fun r => some (rulesOf (r.getD []))) ++
          rest }) := by
  obtain ⟨f, hf, hanswers⟩ := hmaps.answers
  let mapped (x : Node κ) : Node κ × Option (List (Value κ)) :=
    (x, some (rulesOf (x.rules.getD [])))
  have hfirst : (nodes.map mapped).map (·.1) = nodes := by
    simp [mapped, Function.comp_def]
  have hrun := @mapNodes_append κ _ (fun _ => host) m (fun _ => f) (fun _ => hf)
    (nodes.map mapped) h front rest (hfirst.symm ▸ hnodes) (by simpa [mapped] using hcopies)
    options [] (fun i x hx => by
      obtain ⟨y, hy, rfl⟩ := List.mem_map.mp (List.mem_of_getElem? hx)
      obtain ⟨answer, hanswer, hrules⟩ := hanswers y.given options
      rw [Node.given, hmaps.copies _ _ (hcopies y hy).1.copies_eq] at hrules
      exact bind_eq_ok.mpr ⟨answer, hanswer, hrules⟩) []
  rw [List.append_nil, List.length_map] at hrun
  rw [hrun]
  simp [mapNodes, mapped, Function.comp_def, Node.withRules]

end mapsBy

/-- The descriptors of a node can be copied, and so can the copies. -/
def Tree.CopiedTwice (t : Tree κ) : Prop :=
  ∃ copies again, Value.deepCopyAll (t.rules.getD []) = .ok copies ∧
    Value.deepCopyAll copies = .ok again

theorem Tree.CopiedTwice.copyableRules {t : Tree κ} (ht : t.CopiedTwice) :
    CopyableRules t.rules := by
  obtain ⟨copies, -, hcopies, -⟩ := ht
  exact ⟨copies, hcopies⟩

theorem Tree.CopiedTwice.again {t : Tree κ} (ht : t.CopiedTwice) :
    CopyableRules (copiedRules t.rules) := by
  have hcopied := ht.copyableRules.copies_eq
  obtain ⟨copies, again, hcopies, hagain⟩ := ht
  rw [hcopies] at hcopied
  exact ⟨again, by rw [← Except.ok.inj hcopied, hagain]⟩

theorem Heap.Holds.copyTree_eq {h : Heap κ} {n : NodeId} {t : Tree κ} (hn : h.Holds n t)
    (hcopies : t.Each fun u => CopyableRules u.rules) :
    h.copyTree n = .ok (t.withRules Tree.copiedRules) :=
  copyTreeTo_eq hn.within hn (hcopies.mono fun _ hu => hu.copyRules_eq)

theorem Build.clone_eq {h : Heap κ} {n : NodeId} {t : Tree κ} (hn : h.Holds n t)
    (hcopies : t.Each fun u => CopyableRules u.rules) :
    (Build.clone n).run h = (.ok (h.nodes.length + t.descendants),
      h.extend ((t.withRules Tree.copiedRules).layout h.nodes.length)) := by
  rw [Build.run_clone_of_ok (hn.copyTree_eq hcopies), Tree.descendants_withRules]

section compile

variable {h : Heap κ} {n : NodeId} {t : Tree κ} {options : OptionsArg κ} {o : Options κ} {m : κ}

theorem compileNodeWith_eq (hosts : List (Event κ) → Host κ) (mapper : Value κ)
    (options : OptionsArg κ) (t : Tree κ) (h : Heap κ) :
    compileNodeWith hosts mapper options (h.nodes.length + t.descendants)
        (h.extend (t.layout h.nodes.length)) =
      mapNodes hosts mapper options [] (List.range' h.nodes.length (t.descendants + 1))
        (h.extend (t.layout h.nodes.length)) := by
  rw [compileNodeWith, Tree.postOrder_planted]
  exact Prod.ext bind_pure_unit rfl

/-- A schema is compiled in the clone that is planted of it, node by node. -/
theorem compileWith_eq (hosts : List (Event κ) → Host κ) (hn : h.Holds n t)
    (hcopies : t.Each fun u => CopyableRules u.rules) (ho : options.resolve = .ok o)
    (hm : Inspect.callable m = true) (pipeline : Pipeline κ) :
    compileWith hosts (.node n) (.object m) options pipeline h =
      let mapped := mapNodes hosts (.object m) (.options o) []
        (List.range' h.nodes.length (t.descendants + 1))
        (h.extend ((t.withRules Tree.copiedRules).layout h.nodes.length))
      (do
        mapped.1
        let options ← Run.of o.withoutValidator
        return { root := h.nodes.length + t.descendants, options, pipeline }, mapped.2) := by
  have hmapped := compileNodeWith_eq hosts (.object m) (.options o)
    (t.withRules Tree.copiedRules) h
  rw [Tree.descendants_withRules] at hmapped
  simp only [compileWith, Value.isCallable, hm, ho, Build.clone_eq hn hcopies, hmapped]
  rfl

variable {host : Host κ} {rulesOf : List (Value κ) → List (Value κ)} {extra : Entries κ}

/-- Compiling a schema comes to an end with a schema that looks like it, but for the rules, which
are those that the mapper makes. -/
theorem compile_eq (hmaps : host.MapsBy m rulesOf) (hn : h.Holds n t)
    (ho : options.resolve = .ok o) (hextra : Options.entriesOf o.extra = .ok extra)
    (hcopies : t.Each Tree.CopiedTwice) (pipeline : Pipeline κ) :
    ∃ root, (compile host (.node n) (.object m) options pipeline h).1.outcome =
        .ok ⟨root, { o with validator := .null, extra := .mapping .fresh extra }, pipeline⟩ ∧
      (compile host (.node n) (.object m) options pipeline h).2.Holds root
        (t.withRules fun rules => some (rulesOf (rules.getD []))) := by
  obtain ⟨c, hc⟩ : ∃ c, c = t.withRules Tree.copiedRules := ⟨_, rfl⟩
  have hagain : c.Each fun u => CopyableRules u.rules := by
    rw [hc]
    exact Tree.each_withRules (hcopies.mono fun u hu => hu.again)
  have hnodes : (h.extend (c.layout h.nodes.length)).nodes =
      h.nodes ++ c.layout h.nodes.length ++ [] := (List.append_nil _).symm
  have hmapped := mapNodes_eq hmaps (c.layout h.nodes.length) hnodes
    (fun x hx => ⟨Tree.rules_layout hagain hx, (Tree.marks_of_layout hx).1⟩) (.options o)
  -- The mapper is given copies of the copies in the clone, and makes the same rules of them.
  have hrules : c.withRules (fun r => some (rulesOf (r.getD []))) =
      t.withRules fun r => some (rulesOf (r.getD [])) := by
    rw [hc, Tree.withRules_withRules]
    exact Tree.withRules_congr (hcopies.mono fun u hu =>
      congrArg some (hmaps.copies _ _ hu.copyableRules.copies_eq))
  rw [List.append_nil, ← Tree.layout_withRules, hrules, Tree.length_layout, hc,
    Tree.descendants_withRules] at hmapped
  have hoptions : o.withoutValidator =
      .ok { o with validator := .null, extra := .mapping .fresh extra } := by
    rw [Options.withoutValidator, hextra]
    rfl
  rw [compile, compileWith_eq _ hn (hcopies.mono fun u hu => hu.copyableRules) ho hmaps.callable,
    hmapped]
  refine ⟨h.nodes.length + t.descendants, ?_, ?_⟩
  · rw [hoptions]
    rfl
  · rw [← Tree.descendants_withRules fun r => some (rulesOf (r.getD []))]
    exact Tree.holds_of_layout _ (List.append_nil _).symm

end compile

end SchemaTree
