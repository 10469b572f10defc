import SchemaTree.Proofs.FailureReport
import SchemaTree.Verify

/-!
A run of checks goes through the agenda of the schema in order. Where the check of a node recurses,
stops softly or goes from item to item, the agenda has the same checks one after the other.
-/

namespace SchemaTree

variable {κ : Type} [Inspect κ]

namespace Setting

variable (s : Setting κ)

def perform (x : Probe κ) : Run (Event κ) κ (Signal κ) :=
  ⟨x.calls s.host,
    (x.finding s.host s.options.ignoreExcess).report s.wording x.value x.place⟩

/-- Goes through an agenda up to the first check that does not pass. -/
def performAll (xs : List (Probe κ)) : Run (Event κ) κ (Signal κ) :=
  Run.inSequence (xs.map s.perform)

theorem settled_perform (x : Probe κ) : (s.perform x).Settled := by
  intro f hf
  simp only [perform] at hf
  cases hfinding : x.finding s.host s.options.ignoreExcess with
  | rejects name params =>
      rw [hfinding] at hf
      obtain ⟨e, he, -⟩ := s.wording.failure_eq_ok hf
      obtain rfl := Signal.fail.inj he
      rfl
  | breaks g =>
      rw [hfinding] at hf
      obtain rfl := Signal.fail.inj (Except.ok.inj hf)
      exact Test.truth_of_breaks hfinding
  | _ =>
      rw [hfinding] at hf
      exact nomatch hf

theorem settle_perform (x : Probe κ) : (s.perform x).settle = s.perform x :=
  Run.settle_of_settled (s.settled_perform x)

theorem settle_performAll (xs : List (Probe κ)) :
    (s.performAll xs).settle = s.performAll xs := by
  refine Run.settle_of_settled (Run.settled_inSequence fun r hr => ?_)
  obtain ⟨x, -, rfl⟩ := List.mem_map.mp hr
  exact s.settled_perform x

theorem neverStops_perform (x : Probe κ) : (s.perform x).NeverStops :=
  Finding.report_ne_stop

theorem neverStops_of_mem_map {xs : List (Probe κ)} : ∀ r ∈ xs.map s.perform, r.NeverStops := by
  simp only [List.mem_map]
  rintro r ⟨x, -, rfl⟩
  exact s.neverStops_perform x

theorem performAll_flatMap {α : Type} (xs : List α) (g : α → List (Probe κ)) :
    Run.inSequence (xs.map fun x => s.performAll (g x)) = s.performAll (xs.flatMap g) := by
  have hstops : ∀ x ∈ xs, ∀ r ∈ (g x).map s.perform, r.NeverStops :=
    fun x _ => s.neverStops_of_mem_map
  rw [performAll, List.map_flatMap, ← Run.inSequence_flatMap hstops]
  rfl

theorem performAll_append (xs ys : List (Probe κ)) :
    Run.inSequence [s.performAll xs, s.performAll ys] = s.performAll (xs ++ ys) := by
  simpa using s.performAll_flatMap [xs, ys] id

/-- What the call of a mapper comes to: the rules that it makes, or a fault. -/
def mapperTests (mapped : Run (Event κ) κ (Option (List (Value κ)))) : List (Test κ) :=
  match mapped.outcome with
  | .ok (some made) => .mapper mapped.events none :: made.map .rule
  | .ok none => [.mapper mapped.events (some (.mappedKind "NoneType"))]
  | .error f => [.mapper mapped.events (some f)]

/-- What becomes of the rules of a node: they are called as they are, or the mapper of the options
makes others of them. -/
def tests : Option (List (Value κ)) → List (Test κ)
  | none | some [] => []
  | some rules =>
    match s.options.validator with
    | .null => rules.map .rule
    | _ => mapperTests (s.mappedRules rules)

theorem checkRequired_eq {n : NodeId} {v : Value κ} (p : Position)
    (h : (v.isMissing && !(s.heap.node n).required) = false) :
    s.checkRequired n v p = s.perform ⟨.required (s.heap.node n).required, v, p⟩ := by
  cases v with
  | missing =>
      have hrequired : (s.heap.node n).required = true := by simpa [Value.isMissing] using h
      simp [checkRequired, hrequired, Wording.failure_eq, perform, Probe.finding, Probe.calls,
        Test.finding, Test.calls, Value.isMissing]
  | _ => rfl

theorem checkShape_eq (n : NodeId) (v : Value κ) (p : Position) :
    s.checkShape n v p = s.perform ⟨.shape (s.isArray n), v, p⟩ := by
  simp only [checkShape, perform, Probe.finding, Probe.calls, Test.finding, Test.calls,
    Wording.failure_eq]
  split <;> rfl

theorem settle_failure (name params v : Value κ) (p : Position) :
    (s.wording.failure name params v p).settle =
      ⟨[], (Finding.rejects name params).report s.wording v p⟩ := by
  rw [← Wording.failure_eq]
  refine Run.settle_of_settled fun f hf => ?_
  obtain ⟨e, he, -⟩ := s.wording.failure_eq_ok hf
  obtain rfl := Signal.fail.inj he
  rfl

theorem settle_fail (f : Fault κ) (v : Value κ) (p : Position) :
    (pure (.fail f) : Run (Event κ) κ (Signal κ)).settle =
      ⟨[], (Finding.ofBroken f).report s.wording v p⟩ := by
  simp only [Run.settle, pure_bind, Finding.ofBroken]
  rcases f.truth with g | _ | _ <;> rfl

theorem settle_refuse (f : Fault κ) (v : Value κ) (p : Position) :
    (s.refuse f v p).settle = ⟨[], (Finding.ofFault f).report s.wording v p⟩ := by
  unfold refuse Finding.ofFault
  match f.failure with
  | some (.ok (name, params)) => exact s.settle_failure name params v p
  | some (.error g) => rfl
  | none => exact s.settle_fail f v p

theorem settle_truth (truth : Except (Fault κ) Bool) (v : Value κ) (p : Position) :
    (match truth with
      | .ok true => (pure .pass : Run (Event κ) κ (Signal κ))
      | .ok false => s.wording.failure .null .null v p
      | .error f => s.refuse f v p).settle =
        ⟨[], (Finding.ofTruth truth).report s.wording v p⟩ := by
  match truth with
  | .ok true => rfl
  | .ok false => exact s.settle_failure .null .null v p
  | .error f => exact s.settle_refuse f v p

theorem settle_judge (answer : Except (Fault κ) (Value κ)) (v : Value κ) (p : Position) :
    (s.judge answer v p).settle = ⟨[], (Finding.ofAnswer answer).report s.wording v p⟩ := by
  cases answer with
  | error f => exact s.settle_refuse f v p
  | ok a =>
      cases a with
      | null => rfl
      | invalid m name params => exact s.settle_failure name params v p
      | missing => exact s.settle_truth (.ok false) v p
      | _ => exact s.settle_truth _ v p

omit [Inspect κ] in
theorem events_callRule (host : Host κ) (r v : Value κ) :
    (callRule host r v).events = ruleCalls host r v := by
  cases r with
  | object o =>
      simp only [callRule, ruleCalls]
      cases host.rule o <;> rfl
  | _ => rfl

theorem settle_runRule (r v : Value κ) (p : Position) :
    (s.runRule r v p).settle = s.perform ⟨.rule r, v, p⟩ := by
  have hrun : (s.runRule r v p).settle =
      (⟨(callRule s.host r v).events, .ok ()⟩ : Run (Event κ) κ Unit) >>= fun _ =>
        (s.judge (callRule s.host r v).outcome v p).settle := bind_assoc _ _ _
  rw [hrun, settle_judge, events_callRule]
  apply Run.ext
  · simp [Run.events_bind, perform, Probe.calls, Test.calls]
  · rfl

theorem runRules_eq (rules : List (Value κ)) (v : Value κ) (p : Position) :
    s.runRules rules v p = s.performAll ((rules.map Test.rule).map (⟨·, v, p⟩)) := by
  rw [runRules, iterateList, Run.ofReport_iterate,
    map_indexed (fun rule => (s.runRule rule v p).settle)]
  simp only [settle_runRule, performAll, List.map_map]
  rfl

theorem settle_mapped (mapped : Run (Event κ) κ (Option (List (Value κ)))) (v : Value κ)
    (p : Position) :
    ((⟨mapped.events, .ok ()⟩ : Run (Event κ) κ Unit) >>= fun _ =>
      match mapped.outcome with
      | .ok (some rules) => s.runRules rules v p
      | .ok none => return .fail (.mappedKind "NoneType")
      | .error f => return .fail f).settle =
      s.performAll ((mapperTests mapped).map (⟨·, v, p⟩)) := by
  rw [Run.settle, bind_assoc]
  rcases mapped with ⟨events, f | _ | made⟩
  · refine (congrArg (Bind.bind _) (funext fun _ => s.settle_fail f v p)).trans ?_
    refine Eq.trans ?_ (Run.inSequence_singleton (s.neverStops_perform _)).symm
    exact Run.ext (List.append_nil events) rfl
  · rfl
  · have hrules := s.settle_performAll ((made.map Test.rule).map (⟨·, v, p⟩))
    rw [← runRules_eq] at hrules
    refine (congrArg (Bind.bind _) (funext fun _ => hrules)).trans ?_
    rw [runRules_eq]
    rfl

theorem settle_checkRules (n : NodeId) (v : Value κ) (p : Position) :
    (s.checkRules n v p).settle =
      s.performAll ((s.tests (s.heap.node n).rules).map (⟨·, v, p⟩)) := by
  unfold checkRules tests
  match (s.heap.node n).rules with
  | none | some [] => rfl
  | some (r :: rules) =>
      cases s.options.validator with
      | null =>
          simp only [runRules_eq]
          exact s.settle_performAll _
      | _ => exact s.settle_mapped (s.mappedRules (r :: rules)) v p

theorem checkMapping_eq (n : NodeId) (v : Value κ) (p : Position) :
    s.checkMapping n v p = s.perform ⟨.object, v, p⟩ := by
  simp only [checkMapping, perform, Probe.finding, Probe.calls, Test.finding, Test.calls,
    Wording.failure_eq]
  split <;> rfl

theorem checkExcess_eq {n : NodeId} {v : Value κ} (p : Position) (hv : v.isMapping = true) :
    s.checkExcess n v p =
      s.perform ⟨.excess (s.heap.node n).strict (((s.heap.node n).fields.getD []).map (·.1)),
        v, p⟩ := by
  simp only [checkExcess, Value.items_of_isMapping hv, perform, Probe.finding, Probe.calls,
    Test.finding, Test.calls, Wording.failure_eq, Finding.ofKeys_eq]
  cases s.options.ignoreExcess.isTrue with
  | error f => rfl
  | ok ignore =>
      simp only [Run.of_ok, pure_bind]
      split
      · rfl
      · cases allDeclared (((s.heap.node n).fields.getD []).map (·.1)) v.keys with
        | error f => rfl
        | ok declared => cases declared <;> rfl

omit [Inspect κ] in
theorem inTurn_eq (checks : List (Local κ)) (n : NodeId) (v : Value κ) (p : Position) :
    inTurn checks n v p = Run.inSequence (checks.map fun check => (check n v p).settle) := by
  rw [inTurn, iterateList, Run.ofReport_iterate,
    map_indexed (fun check : Local κ => (check n v p).settle)]

variable {s} {n : NodeId} {t : Tree κ} {v : Value κ} {p : Position} {visit : Local κ}

omit [Inspect κ] in
theorem isArray_eq (hn : s.heap.HoldsHere n t) : s.isArray n = t.isArray := by
  rw [isArray, hn.array, Tree.isArray]

theorem checkNested_eq (hn : s.heap.HoldsHere n t) (hv : v.isMapping = true)
    (hvisit : ∀ f ∈ t.fieldList, ∀ m, s.heap.Holds m f.2 →
      visit m (v.under f.1) (p.child f.1) =
        s.performAll (f.2.agenda s.tests (v.under f.1) (p.child f.1))) :
    checkNested s visit n v p = s.performAll (t.fieldProbes s.tests (v, p)) := by
  have hsettled (f : String × Tree κ) (hf : f ∈ t.fieldList) (m : NodeId)
      (hm : s.heap.Holds m f.2) : (visit m (v.under f.1) (p.child f.1)).settle =
        s.performAll (f.2.agenda s.tests (v.under f.1) (p.child f.1)) := by
    rw [hvisit f hf m hm, settle_performAll]
  have hfields := Heap.map_heldFields
    (fun name m => (visit m (v.under name) (p.child name)).settle) _ hn.fieldList hsettled
  simp only [checkNested, Run.ofReport_iterate, Value.fieldValue_of_isMapping hv, Run.of_ok,
    pure_bind]
  rw [hfields, performAll_flatMap]
  rfl

theorem checkFields_eq (hs : s.pipeline = Pipeline.standard) (hn : s.heap.HoldsHere n t)
    (hvisit : v.isMapping = true → ∀ f ∈ t.fieldList, ∀ m, s.heap.Holds m f.2 →
      visit m (v.under f.1) (p.child f.1) =
        s.performAll (f.2.agenda s.tests (v.under f.1) (p.child f.1))) :
    s.checkFields visit n v p =
      s.performAll (t.partProbes (v, p) ++ t.fieldProbes s.tests (v, p)) := by
  simp only [checkFields, inTurn_eq, stage, hs, Pipeline.standard, List.map_cons, List.map_nil,
    checkMapping_eq, settle_perform]
  refine Run.inSequence_cons_congr fun hpass => ?_
  have hv : v.isMapping = true := Test.object_accepts_iff.mp (Finding.report_eq_pass_iff.mp hpass)
  rw [checkExcess_eq s p hv, settle_perform, checkNested_eq hn hv (hvisit hv), settle_performAll,
    hn.names, hn.strict]
  exact Run.inSequence_cons_congr fun _ =>
    Run.inSequence_inSequence s.neverStops_of_mem_map

theorem checkContents_eq (hs : s.pipeline = Pipeline.standard) (hn : s.heap.HoldsHere n t)
    (hv : v.isArray = t.isArray)
    (hvisit : ∀ x ∈ t.parts v p, x.1.isMapping = true → ∀ f ∈ t.fieldList, ∀ m,
      s.heap.Holds m f.2 → visit m (x.1.under f.1) (x.2.child f.1) =
        s.performAll (f.2.agenda s.tests (x.1.under f.1) (x.2.child f.1))) :
    s.checkContents visit n v p =
      s.performAll ((t.parts v p).flatMap fun x => t.partProbes x ++ t.fieldProbes s.tests x) := by
  have hpart : ∀ x ∈ t.parts v p, (s.checkFields visit n x.1 x.2).settle =
      s.performAll (t.partProbes x ++ t.fieldProbes s.tests x) := by
    intro x hx
    rw [checkFields_eq hs hn (hvisit x hx), settle_performAll]
  simp only [checkContents, hn.isNone_fields, isArray_eq hn, stage, hs, Pipeline.standard]
  rw [← performAll_flatMap, ← List.map_congr_left hpart]
  unfold Tree.parts at hpart ⊢
  split
  · rfl
  · split
    · rename_i harray
      rw [Value.elements_of_isArray (hv.trans harray), Run.of_ok, pure_bind, iterateList,
        Run.ofReport_iterate, List.map_map]
      rfl
    · rename_i hfields harray
      have hone := hpart (v, p) (by simp [hfields, harray])
      rw [List.map_singleton, hone,
        checkFields_eq hs hn (hvisit (v, p) (by simp [Tree.parts, hfields, harray]))]
      exact (Run.inSequence_inSequence s.neverStops_of_mem_map).symm

/-- A run of checks goes through the agenda of the schema, and the bound on its depth is never
met. -/
theorem verifyTo_eq (hs : s.pipeline = Pipeline.standard) (t : Tree κ) {depth : Nat} {n : NodeId}
    {v : Value κ} {p : Position} (hn : s.heap.Holds n t) (hdepth : v.depth < depth) :
    s.verifyTo depth n v p = s.performAll (t.agenda s.tests v p) := by
  induction t using Tree.induction_on_fields generalizing depth n v p with
  | step t ih =>
      obtain _ | depth := depth
      · simp at hdepth
      have hn := Heap.holds_iff.mp hn
      simp only [verifyTo, checkNode, inTurn_eq, stage, hs, Pipeline.standard, List.map_cons,
        List.map_nil]
      rw [Tree.agenda_eq]
      by_cases hmissing : (v.isMissing && !t.required) = true
      -- The first check stops softly, where it passes in the agenda and nothing follows.
      · obtain ⟨hv, hrequired⟩ := Bool.and_eq_true_iff.mp hmissing
        obtain rfl := Value.isMissing_iff.mp hv
        have hoptional : t.required = false := by simpa using hrequired
        simp only [checkRequired, hn.required, hoptional]
        rfl
      · rw [checkRequired_eq s p (by rw [hn.required]; simpa using hmissing), if_neg hmissing,
          hn.required, settle_perform]
        refine Run.inSequence_cons_congr fun _ => ?_
        rw [checkShape_eq, isArray_eq hn, settle_perform]
        refine Run.inSequence_cons_congr fun hshape => ?_
        have hv : v.isArray = t.isArray :=
          Test.shape_accepts_iff.mp (Finding.report_eq_pass_iff.mp hshape)
        rw [settle_checkRules, hn.rules, checkContents_eq hs hn hv]
        · rw [settle_performAll]
          exact s.performAll_append _ _
        · intro x hx hmapping f hf m hm
          refine ih f hf hm ?_
          have hpart := Tree.depth_parts hx
          have hunder := Value.depth_under hmapping f.1
          omega

end Setting

end SchemaTree
