import SchemaTree.Proofs.EarliestFailure

/-!
When a value conforms to a schema. Conformance knows no order and no positions. A value is found
valid if and only if it conforms, where a rule that raises what counts as false is passed over.
-/

namespace SchemaTree

variable {κ : Type}

/-- The values that have to be mappings with the fields of the tree: the items of an array, or else
the value itself, and none where no fields are declared. -/
def Tree.holders (t : Tree κ) (v : Value κ) : List (Value κ) :=
  if t.fields.isNone then [] else if t.isArray then v.arrayItems else [v]

theorem Tree.map_parts (t : Tree κ) (v : Value κ) (p : Position) :
    (t.parts v p).map (·.1) = t.holders v := by
  unfold parts holders
  split
  · rfl
  · split
    · rw [List.map_map]
      exact (map_indexed id 0 v.arrayItems).trans (List.map_id _)
    · rfl

variable [Inspect κ]

/-- A rule accepts a value if it answers and the answer is nothing at all, or counts as true and is
not "invalid". -/
def Host.Accepts (host : Host κ) (rule v : Value κ) : Prop :=
  ∃ o f answer, rule = .object o ∧ host.rule o = some f ∧ f v = .ok answer ∧
    (answer = .null ∨
      (∀ m name params, answer ≠ .invalid m name params) ∧ answer.isTrue = .ok true)

def Fault.PassedOver (f : Fault κ) : Prop := f.failure = none ∧ f.truth = .ok false

/-- A rule is passed over where it raises such a fault, or its answer does when asked for its truth.
What ends an iteration does not get so far. -/
def Host.PassesOver (host : Host κ) (rule v : Value κ) : Prop :=
  ∃ o f fault, rule = .object o ∧ host.rule o = some f ∧ fault.PassedOver ∧
    (f v = .error fault ∧ fault.isA .stopIteration = false ∨
      ∃ answer, f v = .ok answer ∧ (∀ m name params, answer ≠ .invalid m name params) ∧
        answer.isTrue = .error fault)

/-- A value conforms to a tree, where `accepts` says which rule accepts which value, and `ignore`
whether excess keys are ignored. -/
inductive Conforms (accepts : Value κ → Value κ → Prop) (ignore : Bool) :
    Tree κ → Value κ → Prop
  | missing {t : Tree κ} (hoptional : t.required = false) : Conforms accepts ignore t .missing
  | present {t : Tree κ} {v : Value κ} (hthere : v ≠ .missing)
      (hshape : v.isArray = true ↔ t.array = some true)
      (hrules : ∀ r ∈ t.rules.getD [], accepts r v)
      (hmapping : ∀ x ∈ t.holders v, x.isMapping = true)
      (hkeys : ∀ x ∈ t.holders v, ignore = true ∧ t.strict = false ∨
        ∀ key ∈ x.keys, ∃ name ∈ t.names, key.asText = some name)
      (hfields : ∀ x ∈ t.holders v, ∀ f ∈ t.fieldList, Conforms accepts ignore f.2 (x.under f.1)) :
      Conforms accepts ignore t v

theorem Conforms.mono {accepts accepts' : Value κ → Value κ → Prop} {ignore : Bool}
    (h : ∀ r v, accepts r v → accepts' r v) {t : Tree κ} {v : Value κ}
    (hv : Conforms accepts ignore t v) : Conforms accepts' ignore t v := by
  induction hv with
  | missing hoptional => exact .missing hoptional
  | present hthere hshape hrules hmapping hkeys _ ih =>
      exact .present hthere hshape (fun r hr => h r _ (hrules r hr)) hmapping hkeys ih

omit [Inspect κ] in
theorem Fault.passedOver_outOf {f : Fault κ} (maker : String) :
    (f.outOf maker).PassedOver ↔ f.isA .stopIteration = false ∧ f.PassedOver := by
  unfold outOf
  split
  · simp_all [PassedOver, stopped, truth]
  · simp_all

namespace Finding

omit [Inspect κ] in
theorem ofFault_accepts_iff {f : Fault κ} : ofFault f = .accepts ↔ f.PassedOver := by
  unfold ofFault ofBroken Fault.PassedOver
  split
  · simp [*]
  · simp [*]
  · split <;> simp [*]

omit [Inspect κ] in
theorem ofTruth_accepts_iff {truth : Except (Fault κ) Bool} :
    ofTruth truth = .accepts ↔
      truth = .ok true ∨ ∃ f : Fault κ, truth = .error f ∧ f.PassedOver := by
  rcases truth with f | _ | _
  · simp [ofTruth, ofFault_accepts_iff]
  · simp [ofTruth]
  · simp [ofTruth]

theorem ofAnswer_ok_accepts_iff {a : Value κ} :
    ofAnswer (.ok a) = .accepts ↔ a = .null ∨ (∀ m name params, a ≠ .invalid m name params) ∧
      (a.isTrue = .ok true ∨ ∃ f : Fault κ, a.isTrue = .error f ∧ f.PassedOver) := by
  cases a with
  | null => simp [ofAnswer]
  | invalid m name params => simp [ofAnswer]
  | _ => simp [ofAnswer, ofTruth_accepts_iff]

end Finding

namespace Test

variable {host : Host κ} {ignoring : Value κ} {v : Value κ}

theorem rule_accepts_iff {r : Value κ} :
    (rule r).finding host ignoring v = .accepts ↔ host.Accepts r v ∨ host.PassesOver r v := by
  constructor
  · intro h
    obtain ⟨o, f, rfl, hrule, hanswer⟩ := exists_answer (r := r) (v := v) (by rw [h]; exact nofun)
    have haccepts := hanswer.symm.trans h
    cases hf : f v with
    | ok a =>
        rw [hf, Finding.ofAnswer_ok_accepts_iff] at haccepts
        rcases haccepts with rfl | ⟨hvalid, htrue | ⟨fault, hfault, hpassed⟩⟩
        · exact .inl ⟨o, f, _, rfl, hrule, hf, .inl rfl⟩
        · exact .inl ⟨o, f, a, rfl, hrule, hf, .inr ⟨hvalid, htrue⟩⟩
        · exact .inr ⟨o, f, fault, rfl, hrule, hpassed, .inr ⟨a, hf, hvalid, hfault⟩⟩
    | error fault =>
        simp only [finding, callRule_outcome hrule, hf, Except.mapError, Finding.ofAnswer,
          Finding.ofFault_accepts_iff, Fault.passedOver_outOf] at h
        exact .inr ⟨o, f, fault, rfl, hrule, h.2, .inl ⟨hf, h.1⟩⟩
  · rintro (⟨o, f, a, rfl, hrule, hf, haccepts⟩ | ⟨o, f, fault, rfl, hrule, hpassed, h⟩)
    · rw [finding, callRule_outcome hrule, hf]
      refine Finding.ofAnswer_ok_accepts_iff.mpr (haccepts.imp_right ?_)
      exact And.imp_right .inl
    · rw [finding, callRule_outcome hrule]
      rcases h with ⟨hf, hstop⟩ | ⟨a, hf, hvalid, hfault⟩
      · rw [hf]
        exact Finding.ofFault_accepts_iff.mpr
          ((Fault.passedOver_outOf "coroutine").mpr ⟨hstop, hpassed⟩)
      · rw [hf]
        exact Finding.ofAnswer_ok_accepts_iff.mpr (.inr ⟨hvalid, .inr ⟨fault, hfault, hpassed⟩⟩)

theorem excess_accepts_iff {strict ignore : Bool} {names : List String}
    (hignore : ignoring.isTrue = .ok ignore) :
    (excess strict names).finding host ignoring v = .accepts ↔
      ignore = true ∧ strict = false ∨ ∀ key ∈ v.keys, ∃ name ∈ names, key.asText = some name := by
  rw [← Finding.ofKeys_accepts_iff]
  simp only [finding, hignore]
  cases ignore <;> cases strict <;> simp

end Test

section accepted

variable {host : Host κ} {ignoring : Value κ} {ignore : Bool}

theorem part_accepts_iff (hignore : ignoring.isTrue = .ok ignore) {t : Tree κ}
    {x : Value κ × Position} :
    (∀ y ∈ t.partProbes x ++ t.fieldProbes Test.ofRules x, y.finding host ignoring = .accepts) ↔
      x.1.isMapping = true ∧
        (ignore = true ∧ t.strict = false ∨
          ∀ key ∈ x.1.keys, ∃ name ∈ t.names, key.asText = some name) ∧
        ∀ f ∈ t.fieldList, ∀ y ∈ f.2.agenda Test.ofRules (x.1.under f.1) (x.2.child f.1),
          y.finding host ignoring = .accepts := by
  rw [List.forall_mem_append, Tree.partProbes, Tree.fieldProbes, List.forall_mem_flatMap]
  simp only [List.forall_mem_cons, Probe.finding, Test.object_accepts_iff,
    Test.excess_accepts_iff hignore]
  simp [and_assoc]

/-- All checks of an agenda accept if and only if the value conforms. -/
theorem agenda_accepts_iff (hignore : ignoring.isTrue = .ok ignore) (t : Tree κ) {v : Value κ}
    {p : Position} :
    (∀ x ∈ t.agenda Test.ofRules v p, x.finding host ignoring = .accepts) ↔
      Conforms (fun r w => host.Accepts r w ∨ host.PassesOver r w) ignore t v := by
  induction t using Tree.induction_on_fields generalizing v p with
  | step t ih =>
      rw [Tree.agenda_eq, List.forall_mem_cons, Probe.finding, Test.required_accepts_iff]
      by_cases hmissing : (v.isMissing && !t.required) = true
      · obtain ⟨hv, hrequired⟩ := Bool.and_eq_true_iff.mp hmissing
        obtain rfl := Value.isMissing_iff.mp hv
        have hoptional : t.required = false := by simpa using hrequired
        simp [hoptional, Value.isMissing, Conforms.missing hoptional]
      · rw [if_neg hmissing]
        have hparts : (∀ x ∈ (t.parts v p).flatMap fun x => t.partProbes x ++
            t.fieldProbes Test.ofRules x, x.finding host ignoring = .accepts) ↔
            ∀ x ∈ t.holders v, x.isMapping = true ∧
              (ignore = true ∧ t.strict = false ∨
                ∀ key ∈ x.keys, ∃ name ∈ t.names, key.asText = some name) ∧
              ∀ f ∈ t.fieldList, Conforms (fun r w => host.Accepts r w ∨ host.PassesOver r w)
                ignore f.2 (x.under f.1) := by
          rw [List.forall_mem_flatMap, ← t.map_parts v p, List.forall_mem_map]
          refine forall₂_congr fun x _ => (part_accepts_iff hignore).trans ?_
          exact and_congr_right fun _ => and_congr_right fun _ => forall₂_congr fun f hf => ih f hf
        rw [List.cons_append, List.forall_mem_cons, List.forall_mem_append, hparts, Test.ofRules,
          List.map_map, List.forall_mem_map]
        simp only [Probe.finding, Test.shape_accepts_iff, Function.comp_apply,
          Test.rule_accepts_iff]
        constructor
        · rintro ⟨hrequired, hshape, hrules, hparts⟩
          have hthere : v ≠ .missing := by
            rintro rfl
            simp_all [Value.isMissing]
          refine .present hthere ?_ hrules (fun x hx => (hparts x hx).1)
            (fun x hx => (hparts x hx).2.1) (fun x hx => (hparts x hx).2.2)
          simp [hshape, Tree.isArray]
        · intro h
          cases h with
          | missing hoptional => simp [hoptional, Value.isMissing] at hmissing
          | present hthere hshape hrules hmapping hkeys hfields =>
              have hv : v.isMissing = false := by simpa [← Value.isMissing_iff] using hthere
              refine ⟨by simp [hv], ?_, hrules,
                fun x hx => ⟨hmapping x hx, hkeys x hx, hfields x hx⟩⟩
              rw [Bool.eq_iff_iff, hshape, Tree.isArray, beq_iff_eq]

end accepted

theorem Verdict.Tells.valid_eq_false {verdict : Verdict κ} {x : Probe κ} {found : Finding κ}
    (htells : verdict.Tells x found) : verdict.valid = false := by
  cases found with
  | rejects name params =>
      obtain ⟨e, rfl, -⟩ := htells
      rfl
  | breaks f => rw [htells]
  | _ => exact htells.elim

section plain

variable (wording : Wording κ) {host : Host κ} {heap : Heap κ} {n : NodeId} {t : Tree κ}
  {value : Value κ} {options : OptionsArg κ} {o : Options κ} {ignore : Bool}
  (hn : heap.Holds n t) (ho : options.resolve = .ok o) (hmapper : o.validator = .null)

include hn ho hmapper

theorem exists_verdict_of_reported
    (hreported : ∀ x ∈ t.agenda Test.ofRules value {}, ∀ f,
      ¬ (x.finding host o.ignoreExcess).Unreported x.value f) :
    ∃ verdict, (verify host wording heap (.node n) value options).outcome = .ok verdict := by
  rcases forall_or_exists_first (fun x => x.finding host o.ignoreExcess = .accepts)
      (t.agenda Test.ofRules value {}) with hall | ⟨before, x, after, hagenda, hbefore, hx⟩
  · rw [verify_of_accepts wording hn ho hmapper hall]
    exact ⟨_, rfl⟩
  · rcases outcome_of_first wording hn ho hmapper hagenda hbefore hx with
      ⟨verdict, hverdict, -⟩ | ⟨f, hf, -⟩
    · exact ⟨verdict, hverdict⟩
    · exact absurd hf (hreported x (by simp [hagenda]) f)

theorem exists_verdict (hignore : o.ignoreExcess.isTrue = .ok ignore) (hhost : host.Reportable)
    (hcopy : value.Copyable) (hkeys : value.KeysFit) :
    ∃ verdict, (verify host wording heap (.node n) value options).outcome = .ok verdict :=
  exists_verdict_of_reported wording hn ho hmapper fun _ hx =>
    not_unreported hhost hcopy hkeys hignore hx

theorem exists_valid_iff :
    (∃ verdict, (verify host wording heap (.node n) value options).outcome = .ok verdict ∧
      verdict.valid = true) ↔
      ∀ x ∈ t.agenda Test.ofRules value {}, x.finding host o.ignoreExcess = .accepts := by
  rcases forall_or_exists_first (fun x => x.finding host o.ignoreExcess = .accepts)
      (t.agenda Test.ofRules value {}) with hall | ⟨before, x, after, hagenda, hbefore, hx⟩
  · rw [verify_of_accepts wording hn ho hmapper hall]
    exact iff_of_true ⟨_, rfl, rfl⟩ hall
  · refine iff_of_false ?_ fun hall => hx (hall x (by simp [hagenda]))
    rintro ⟨verdict, hverdict, hvalid⟩
    rcases outcome_of_first wording hn ho hmapper hagenda hbefore hx with
      ⟨verdict', hverdict', htells⟩ | ⟨f, -, hf⟩
    · obtain rfl := Except.ok.inj (hverdict.symm.trans hverdict')
      exact nomatch hvalid.symm.trans htells.valid_eq_false
    · exact nomatch hverdict.symm.trans hf

/-- A value is found valid if and only if it conforms to the schema, where rules that raise what
counts as false are passed over. Where no rule is, this is conformance to what the rules accept. A
verdict comes out wherever what rules find can be reported. -/
theorem verify_valid_iff_conforms (hignore : o.ignoreExcess.isTrue = .ok ignore) :
    ((∃ verdict, (verify host wording heap (.node n) value options).outcome = .ok verdict ∧
        verdict.valid = true) ↔
      Conforms (fun r v => host.Accepts r v ∨ host.PassesOver r v) ignore t value) ∧
    ((∀ r v, ¬ host.PassesOver r v) →
      ((∃ verdict, (verify host wording heap (.node n) value options).outcome = .ok verdict ∧
          verdict.valid = true) ↔ Conforms host.Accepts ignore t value)) ∧
    (host.Reportable → value.Copyable → value.KeysFit →
      ∃ verdict, (verify host wording heap (.node n) value options).outcome = .ok verdict) := by
  have hconforms : (∃ verdict, (verify host wording heap (.node n) value options).outcome =
      .ok verdict ∧ verdict.valid = true) ↔
        Conforms (fun r v => host.Accepts r v ∨ host.PassesOver r v) ignore t value :=
    (exists_valid_iff wording hn ho hmapper).trans (agenda_accepts_iff hignore t)
  refine ⟨hconforms, fun hnone => hconforms.trans ⟨?_, ?_⟩,
    exists_verdict wording hn ho hmapper hignore⟩
  · exact Conforms.mono fun r v h => h.resolve_right (hnone r v)
  · exact Conforms.mono fun r v => .inl

end plain

theorem OrderFunction.host_not_passesOver (r v : Value OrderFunction) :
    ¬ OrderFunction.host.PassesOver r v := by
  rintro ⟨o, f, fault, rfl, hrule, hpassed, ⟨hf, -⟩ | ⟨a, hf, -, hfault⟩⟩
  · cases o with
    | positive =>
        obtain rfl := Option.some.inj hrule
        exact nomatch hf
    | callables => exact nomatch hrule
  · cases a with
    | object o => exact nomatch hfault
    | _ => exact nomatch hfault

/-- An order with positive counts conforms to its schema. -/
theorem order_conforms : Conforms OrderFunction.host.Accepts false
    (OrderFunction.order [.object .positive]) (OrderFunction.ofCounts [2, 5]) := by
  obtain ⟨-, hiff, -⟩ := verify_valid_iff_conforms OrderFunction.wording
    (OrderFunction.heap_holds [.object .positive]) (rfl : (OptionsArg.value .null).resolve = _)
    rfl rfl
  exact (hiff OrderFunction.host_not_passesOver).mp ⟨⟨none, true, none⟩, rfl, rfl⟩

/-- An order is found valid where the rule for counts only complains, and does not conform. -/
theorem complaint_passed_over :
    (∃ verdict, (verify OrderFunction.complaints OrderFunction.wording
        (OrderFunction.heap [.object .positive]) (.node 2) (OrderFunction.ofCounts [0])
        (.value .null)).outcome = .ok verdict ∧ verdict.valid = true) ∧
      ¬ Conforms OrderFunction.complaints.Accepts false
        (OrderFunction.order [.object .positive]) (OrderFunction.ofCounts [0]) := by
  refine ⟨⟨⟨none, true, none⟩, by with_unfolding_all rfl, rfl⟩, ?_⟩
  rintro (_ | ⟨-, -, -, -, -, horder⟩)
  rcases horder _ (List.mem_singleton_self _) _ (List.mem_singleton_self _) with
    _ | ⟨-, -, -, -, -, hitems⟩
  rcases hitems _ (List.mem_singleton_self _) _ (List.mem_singleton_self _) with
    _ | ⟨-, -, hrules, -, -, -⟩
  obtain ⟨o, f, answer, -, hrule, hanswer, -⟩ := hrules _ (List.mem_singleton_self _)
  obtain rfl := Option.some.inj hrule
  cases hanswer

end SchemaTree
