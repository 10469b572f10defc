import SchemaTree.Proofs.DocumentOrder
import SchemaTree.Proofs.OwnCopies

/-!
The verdict on a value is the finding of the earliest check in document order that does not accept,
and the rules called are those of the agenda up to there. Where values and parameters can be copied,
nothing but a verdict comes out of a run.
-/

namespace SchemaTree

variable {κ : Type} [Inspect κ]

def Verdict.Tells (verdict : Verdict κ) (x : Probe κ) : Finding κ → Prop
  | .accepts | .escapes _ => False
  | .rejects name params => ∃ e : ResultError κ,
      verdict = ⟨none, false, some e⟩ ∧ e.Reports name params x.value x.place
  | .breaks f => verdict = ⟨some f, false, none⟩

/-- One fault comes out of both, or both return, and what they return is as `R` tells. -/
inductive ReturnsAlike {α : Type} (R : α → α → Prop) :
    Except (Fault κ) α → Except (Fault κ) α → Prop
  | returns {a b : α} (h : R a b) : ReturnsAlike R (.ok a) (.ok b)
  | raises (f : Fault κ) : ReturnsAlike R (.error f) (.error f)

namespace ReturnsAlike

omit [Inspect κ]

theorem of_refl {α : Type} {R : α → α → Prop} (hR : ∀ a, R a a) (outcome : Except (Fault κ) α) :
    ReturnsAlike R outcome outcome := by
  cases outcome with
  | error f => exact .raises f
  | ok a => exact .returns (hR a)

theorem verdicts {R : Verdict κ → Verdict κ → Prop} {r r' : Run (Event κ) κ (Signal κ)}
    (h : ReturnsAlike (fun a b => R (.ofSignal a) (.ofSignal b)) r.outcome r'.outcome) :
    ReturnsAlike R (Verdict.ofSignal <$> r).awaited.outcome
      (Verdict.ofSignal <$> r').awaited.outcome := by
  simp only [Run.outcome_awaited, Run.outcome_map]
  generalize r.outcome = outcome at h ⊢
  generalize r'.outcome = outcome' at h ⊢
  cases h with
  | returns h => exact .returns h
  | raises f => exact .raises _

end ReturnsAlike

namespace Finding

theorem ofAnswer_ne_breaks_result (answer : Except (Fault κ) (Value κ)) (e : ResultError κ) :
    ofAnswer answer ≠ .breaks (.result e) :=
  fun h => nomatch (ofAnswer_eq_breaks.mp h).1

omit [Inspect κ] in
theorem ofFault_stopped (maker : String) :
    ofFault (Fault.stopped maker : Fault κ) = .breaks (.stopped maker) :=
  rfl

/-- An end of iteration that a rule raises is broken, so what else is found is found of the rule's
own answer. -/
theorem ofAnswer_outOf (maker : String) (answer : Except (Fault κ) (Value κ)) :
    ofAnswer (answer.mapError (Fault.outOf maker)) = ofAnswer answer ∨
      ofAnswer (answer.mapError (Fault.outOf maker)) = .breaks (.stopped maker) := by
  cases answer with
  | ok a => exact .inl rfl
  | error f =>
      simp only [Except.mapError, Fault.outOf]
      split
      · exact .inr (ofFault_stopped maker)
      · exact .inl rfl

end Finding

namespace Setting

variable {s : Setting κ}

theorem performAll_cons_of_accepts {x : Probe κ} {xs : List (Probe κ)}
    (hx : x.finding s.host s.options.ignoreExcess = .accepts) :
    s.performAll (x :: xs) =
      ⟨x.calls s.host ++ (s.performAll xs).events, (s.performAll xs).outcome⟩ := by
  have hperform : s.perform x = ⟨x.calls s.host, .ok .pass⟩ := by
    rw [perform, hx, Finding.report]
  rw [performAll, List.map_cons, hperform]
  rfl

theorem performAll_cons_of_ne {x : Probe κ} {xs : List (Probe κ)}
    (hx : x.finding s.host s.options.ignoreExcess ≠ .accepts) :
    s.performAll (x :: xs) = s.perform x := by
  have hpass : (s.perform x).outcome ≠ .ok .pass := fun h => hx (Finding.report_eq_pass_iff.mp h)
  have hstop : (s.perform x).outcome ≠ .ok .stop := s.neverStops_perform x
  rw [performAll, List.map_cons]
  generalize s.perform x = r at hpass hstop
  obtain ⟨events, f | signal⟩ := r
  · rfl
  · cases signal with
    | pass => exact absurd rfl hpass
    | stop => exact absurd rfl hstop
    | fail f => simp [Run.inSequence, bind, pure]

theorem performAll_of_accepts {xs : List (Probe κ)}
    (hxs : ∀ x ∈ xs, x.finding s.host s.options.ignoreExcess = .accepts) :
    s.performAll xs = ⟨xs.flatMap (·.calls s.host), .ok .pass⟩ := by
  induction xs with
  | nil => rfl
  | cons x xs ih =>
      rw [performAll_cons_of_accepts (hxs x (by simp)), ih fun y hy => hxs y (by simp [hy]),
        List.flatMap_cons]

/-- The first check that does not accept ends the run: its finding is reported, and no call is made
after its own. -/
theorem performAll_of_first {before after : List (Probe κ)} {x : Probe κ}
    (hbefore : ∀ y ∈ before, y.finding s.host s.options.ignoreExcess = .accepts)
    (hx : x.finding s.host s.options.ignoreExcess ≠ .accepts) :
    s.performAll (before ++ x :: after) =
      ⟨(before ++ [x]).flatMap (·.calls s.host), (s.perform x).outcome⟩ := by
  induction before with
  | nil =>
      rw [List.nil_append, performAll_cons_of_ne hx]
      simp [perform]
  | cons y before ih =>
      rw [List.cons_append, performAll_cons_of_accepts (hbefore y (by simp)),
        ih fun z hz => hbefore z (by simp [hz]), List.cons_append, List.flatMap_cons]

end Setting

/-- A list splits at its first member that has not the property, unless all have it. -/
theorem forall_or_exists_first {α : Type} (P : α → Prop) (xs : List α) :
    (∀ x ∈ xs, P x) ∨
      ∃ before x after, xs = before ++ x :: after ∧ (∀ y ∈ before, P y) ∧ ¬ P x := by
  induction xs with
  | nil => exact .inl (by simp)
  | cons x xs ih =>
      by_cases hx : P x
      · rcases ih with hall | ⟨before, y, after, rfl, hbefore, hy⟩
        · exact .inl (by simpa [hx] using hall)
        · exact .inr ⟨x :: before, y, after, rfl, by simpa [hx] using hbefore, hy⟩
      · exact .inr ⟨[], x, xs, rfl, by simp, hx⟩

namespace Test

variable {host : Host κ} {ignoring : Value κ}

omit [Inspect κ] in
theorem callRule_outcome {o : κ} {f : Value κ → Except (Fault κ) (Value κ)}
    (hrule : host.rule o = some f) (v : Value κ) :
    (callRule host (.object o) v).outcome = (f v).mapError (Fault.outOf "coroutine") := by
  simp [callRule, hrule, Run.outcome_bind]

/-- A rule that is not found broken is one that can be called, and its own answer is what is
found. -/
theorem exists_answer {r v : Value κ}
    (h : ∀ f, (rule r).finding host ignoring v ≠ .breaks f) :
    ∃ o f, r = .object o ∧ host.rule o = some f ∧
      (rule r).finding host ignoring v = Finding.ofAnswer (f v) := by
  have hbroken : (callRule host r v).outcome ≠ .error (.misuse .unsupported) := by
    intro hcall
    refine h (.misuse .unsupported) ?_
    rw [finding, hcall]
    rfl
  cases r with
  | object o =>
      cases hrule : host.rule o with
      | none => exact absurd (by simp only [callRule, hrule]; rfl) hbroken
      | some f =>
          refine ⟨o, f, rfl, hrule, ?_⟩
          rw [finding, callRule_outcome hrule] at h ⊢
          exact (Finding.ofAnswer_outOf "coroutine" (f v)).resolve_right (h _)
  | _ => exact absurd rfl hbroken

/-- The failures that are of every schema have texts for names, and plain data for parameters. -/
theorem told_of_isBuiltIn {test : Test κ} (hbuiltIn : test.isBuiltIn = true)
    {v name params : Value κ} (h : test.finding host ignoring v = .rejects name params) :
    (∃ text, name.text = .ok text) ∧ params.Copyable := by
  rcases finding_of_isBuiltIn hbuiltIn host ignoring v with
    hfinding | ⟨text, params', hcopy, hfinding⟩ | ⟨f, hfinding⟩ <;> rw [hfinding] at h
  · cases h
  · obtain ⟨rfl, rfl⟩ := Finding.rejects.inj h
    exact ⟨⟨text, rfl⟩, hcopy⟩
  · cases h

theorem not_escapes_of_isBuiltIn {test : Test κ} (hbuiltIn : test.isBuiltIn = true) {v : Value κ}
    (hv : v.KeysFit) {ignore : Bool} (hignore : ignoring.isTrue = .ok ignore) (f : Fault κ) :
    test.finding host ignoring v ≠ .escapes f := by
  cases test with
  | rule r => exact absurd hbuiltIn Bool.false_ne_true
  | mapper calls broken => exact absurd hbuiltIn Bool.false_ne_true
  | excess strict names =>
      simp only [finding, hignore]
      split
      · simp
      · exact Finding.ofKeys_ne_escapes (fun key hkey => hv.canBeKey hkey) f
  | _ =>
      simp only [finding]
      split <;> simp

theorem copyable_of_rejects (hhost : host.ParamsCopyable) {test : Test κ} {v name params : Value κ}
    (h : test.finding host ignoring v = .rejects name params) : params.Copyable := by
  cases test with
  | rule r =>
      have hworks : ∀ f, (rule r).finding host ignoring v ≠ .breaks f := by simp [h]
      obtain ⟨o, f, -, hrule, hanswer⟩ := exists_answer hworks
      exact hhost o f hrule v name params (hanswer.symm.trans h)
  | mapper calls broken =>
      cases broken with
      | none => cases h
      | some f =>
          simp only [finding, Finding.ofBroken] at h
          split at h <;> simp at h
  | _ => exact (told_of_isBuiltIn rfl h).2

theorem reportable_of_isBuiltIn {test : Test κ} (hbuiltIn : test.isBuiltIn = true) {v : Value κ}
    (hreturns : ∀ f, test.finding host ignoring v ≠ .escapes f) :
    (test.finding host ignoring v).Reportable := by
  cases hfinding : test.finding host ignoring v with
  | rejects name params => exact told_of_isBuiltIn hbuiltIn hfinding
  | escapes f => exact absurd hfinding (hreturns f)
  | _ => trivial

theorem reportable_rule (hhost : host.Reportable) (r v : Value κ) :
    ((rule r).finding host ignoring v).Reportable := by
  by_cases hbreaks : ∃ f, (rule r).finding host ignoring v = .breaks f
  · obtain ⟨f, hf⟩ := hbreaks
    rw [hf]
    trivial
  · obtain ⟨o, f, -, hrule, hanswer⟩ := exists_answer (not_exists.mp hbreaks)
    rw [hanswer]
    exact hhost o f hrule v

/-- Where what rules find can be reported, so can what any test finds that can be told from what it
does not find. -/
theorem reportable (hhost : host.Reportable) {test : Test κ}
    (hmapper : ∀ calls broken, test ≠ .mapper calls broken) {v : Value κ}
    (hreturns : test.isBuiltIn = true → ∀ f, test.finding host ignoring v ≠ .escapes f) :
    (test.finding host ignoring v).Reportable := by
  by_cases hbuiltIn : test.isBuiltIn = true
  · exact reportable_of_isBuiltIn hbuiltIn (hreturns hbuiltIn)
  · cases test with
    | rule r => exact reportable_rule hhost r v
    | mapper calls broken => exact absurd rfl (hmapper calls broken)
    | _ => exact absurd rfl hbuiltIn

/-- A test that is broken does not look like a failure of the value, unless a mapper that broke
does. -/
theorem finding_ne_breaks_result {test : Test κ}
    (hmapper : ∀ calls e, test ≠ .mapper calls (some (.result e))) (v : Value κ)
    (e : ResultError κ) : test.finding host ignoring v ≠ .breaks (.result e) := by
  cases test with
  | rule r => exact Finding.ofAnswer_ne_breaks_result _ e
  | mapper calls broken =>
      cases broken with
      | none => simp [finding]
      | some f =>
          intro h
          obtain ⟨rfl, -⟩ := Finding.ofBroken_eq_breaks.mp h
          exact hmapper calls e rfl
  | _ => exact ne_breaks_of_isBuiltIn rfl

omit [Inspect κ] in
theorem ofRules_ne_mapper {rules : Option (List (Value κ))} {test : Test κ}
    (htest : test ∈ ofRules rules) (calls : List (Event κ)) (broken : Option (Fault κ)) :
    test ≠ .mapper calls broken := by
  obtain ⟨r, -, rfl⟩ := List.mem_map.mp htest
  exact nofun

end Test

theorem Finding.tells_of_report {w : Wording κ} {x : Probe κ} {found : Finding κ}
    {signal : Signal κ} (h : found.report w x.value x.place = .ok signal)
    (hfound : found ≠ .accepts) (hbreaks : ∀ e, found ≠ .breaks (.result e)) :
    (Verdict.ofSignal signal).Tells x found := by
  cases found with
  | accepts => exact absurd rfl hfound
  | escapes f => exact nomatch h
  | rejects name params =>
      obtain ⟨e, rfl, he⟩ := w.failure_eq_ok h
      exact ⟨e, rfl, he⟩
  | breaks f =>
      obtain rfl := Except.ok.inj h
      cases f with
      | result e => exact absurd rfl (hbreaks e)
      | _ => rfl

theorem Tree.agenda_ne_mapper {t : Tree κ} {v : Value κ} {p : Position} {x : Probe κ}
    (hx : x ∈ t.agenda Test.ofRules v p) (calls : List (Event κ)) (broken : Option (Fault κ)) :
    x.test ≠ .mapper calls broken := by
  refine t.agenda_tests (P := fun test => ∀ calls broken, test ≠ .mapper calls broken) ?_
    (t.each_of_forall fun u test htest => Test.ofRules_ne_mapper htest) hx calls broken
  rintro test hbuiltIn calls broken rfl
  exact nomatch hbuiltIn

theorem Setting.tests_of_null {s : Setting κ} (hs : s.options.validator = .null) :
    s.tests = Test.ofRules := by
  funext rules
  unfold Setting.tests
  match rules with
  | none | some [] => rfl
  | some (r :: rs) =>
      simp only [hs]
      rfl

theorem verify_eq {host : Host κ} {wording : Wording κ} {heap : Heap κ} {n : NodeId} {t : Tree κ}
    {value : Value κ} {options : OptionsArg κ} {o : Options κ} {s : Setting κ}
    (hs : s = { host, wording, heap, options := o }) (hn : heap.Holds n t)
    (ho : options.resolve = .ok o) :
    verify host wording heap (.node n) value options =
      (Verdict.ofSignal <$> s.performAll (t.agenda s.tests value {})).awaited := by
  subst hs
  rw [← Setting.verifyTo_eq rfl t hn (Nat.lt_succ_self value.depth)]
  simp only [verify, ho, Run.of_ok, pure_bind, bind_pure_comp]
  rfl

section plain

variable (wording : Wording κ) {host : Host κ} {heap : Heap κ} {n : NodeId} {t : Tree κ}
  {value : Value κ} {options : OptionsArg κ} {o : Options κ}
  (hn : heap.Holds n t) (ho : options.resolve = .ok o) (hmapper : o.validator = .null)

include hn ho hmapper

variable (host value) in
theorem verify_eq_performAll : ∃ s : Setting κ, s.host = host ∧ s.options = o ∧
    s.wording = wording ∧ verify host wording heap (.node n) value options =
      (Verdict.ofSignal <$> s.performAll (t.agenda Test.ofRules value {})).awaited := by
  obtain ⟨s, hs⟩ : ∃ s : Setting κ, s = { host, wording, heap, options := o } := ⟨_, rfl⟩
  have htests : s.tests = Test.ofRules := s.tests_of_null (by rw [hs]; exact hmapper)
  refine ⟨s, by rw [hs], by rw [hs], by rw [hs], ?_⟩
  rw [verify_eq hs hn ho, htests]

theorem verify_of_accepts
    (hall : ∀ x ∈ t.agenda Test.ofRules value {}, x.finding host o.ignoreExcess = .accepts) :
    verify host wording heap (.node n) value options =
      ⟨(t.agenda Test.ofRules value {}).flatMap (·.calls host), .ok ⟨none, true, none⟩⟩ := by
  obtain ⟨s, rfl, rfl, rfl, hverify⟩ := verify_eq_performAll wording host value hn ho hmapper
  rw [hverify, s.performAll_of_accepts hall]
  refine Run.ext ?_ rfl
  rw [Run.events_awaited, Run.events_map]

section first

variable {before after : List (Probe κ)} {x : Probe κ}
  (hagenda : t.agenda Test.ofRules value {} = before ++ x :: after)
  (hbefore : ∀ y ∈ before, y.finding host o.ignoreExcess = .accepts)
  (hx : x.finding host o.ignoreExcess ≠ .accepts)

include hagenda hbefore hx

theorem verify_of_first :
    verify host wording heap (.node n) value options =
      ⟨(before ++ [x]).flatMap (·.calls host),
        (((x.finding host o.ignoreExcess).report wording x.value x.place).map
          Verdict.ofSignal).mapError (Fault.outOf "coroutine")⟩ := by
  obtain ⟨s, rfl, rfl, rfl, hverify⟩ := verify_eq_performAll wording host value hn ho hmapper
  rw [hverify, hagenda, s.performAll_of_first hbefore hx]
  apply Run.ext
  · rw [Run.events_awaited, Run.events_map]
  · rw [Run.outcome_awaited, Run.outcome_map]
    rfl

theorem outcome_of_first :
    (∃ verdict, (verify host wording heap (.node n) value options).outcome = .ok verdict ∧
      verdict.Tells x (x.finding host o.ignoreExcess)) ∨
    ∃ f, (x.finding host o.ignoreExcess).Unreported x.value f ∧
      (verify host wording heap (.node n) value options).outcome =
        .error (f.outOf "coroutine") := by
  rw [verify_of_first wording hn ho hmapper hagenda hbefore hx]
  cases hreport : (x.finding host o.ignoreExcess).report wording x.value x.place with
  | error f => exact .inr ⟨f, Finding.report_eq_error_iff.mp hreport, rfl⟩
  | ok signal =>
      refine .inl ⟨_, rfl, Finding.tells_of_report hreport hx ?_⟩
      have hmem : x ∈ t.agenda Test.ofRules value {} := by simp [hagenda]
      exact Test.finding_ne_breaks_result
        (fun calls e => Tree.agenda_ne_mapper hmem calls (some (.result e))) x.value

end first

omit hn ho hmapper in
/-- Where what rules find can be reported and the value be copied, no check is left unreported. -/
theorem not_unreported (hhost : host.Reportable) (hcopy : value.Copyable) (hkeys : value.KeysFit)
    {ignore : Bool} (hignore : o.ignoreExcess.isTrue = .ok ignore) {x : Probe κ}
    (hx : x ∈ t.agenda Test.ofRules value {}) (f : Fault κ) :
    ¬ (x.finding host o.ignoreExcess).Unreported x.value f := by
  have hfit := t.agenda_values Value.KeysFit.arrayItems Value.KeysFit.under hkeys hx
  have hcopies := t.agenda_values Value.Copyable.arrayItems Value.Copyable.under hcopy hx
  have hreportable : (x.finding host o.ignoreExcess).Reportable :=
    Test.reportable hhost (Tree.agenda_ne_mapper hx)
      fun hbuiltIn => Test.not_escapes_of_isBuiltIn hbuiltIn hfit hignore
  exact hreportable.not_unreported hcopies f

variable (host value) in
/-- The rules called are those that stand in the agenda up to the first check that does not accept,
and all if there is none. What comes out is the verdict that tells what this check found, and none
where that cannot be reported. -/
theorem verify_tells_earliest :
    ((∀ x ∈ t.agenda Test.ofRules value {}, x.finding host o.ignoreExcess = .accepts) →
      verify host wording heap (.node n) value options =
        ⟨(t.agenda Test.ofRules value {}).flatMap (·.calls host), .ok ⟨none, true, none⟩⟩) ∧
    (∀ before x after, t.agenda Test.ofRules value {} = before ++ x :: after →
      (∀ y ∈ before, y.finding host o.ignoreExcess = .accepts) →
      x.finding host o.ignoreExcess ≠ .accepts →
      (verify host wording heap (.node n) value options).events =
          (before ++ [x]).flatMap (·.calls host) ∧
        ((∃ verdict, (verify host wording heap (.node n) value options).outcome = .ok verdict ∧
            verdict.Tells x (x.finding host o.ignoreExcess)) ∨
          ∃ f, (x.finding host o.ignoreExcess).Unreported x.value f ∧
            (verify host wording heap (.node n) value options).outcome =
              .error (f.outOf "coroutine"))) ∧
    (host.Reportable → value.Copyable → value.KeysFit →
      (∃ ignore, o.ignoreExcess.isTrue = .ok ignore) →
      ∀ x ∈ t.agenda Test.ofRules value {}, ∀ f,
        ¬ (x.finding host o.ignoreExcess).Unreported x.value f) := by
  refine ⟨verify_of_accepts wording hn ho hmapper, ?_, ?_⟩
  · intro before x after hagenda hbefore hx
    refine ⟨?_, outcome_of_first wording hn ho hmapper hagenda hbefore hx⟩
    rw [verify_of_first wording hn ho hmapper hagenda hbefore hx]
  · rintro hhost hcopy hkeys ⟨ignore, hignore⟩ x hx
    exact not_unreported hhost hcopy hkeys hignore hx

end plain

/-- Of an order with the counts 2, 0 and 5, the second count is refused, and the rule is not called
for the third. -/
theorem verify_order_tells_earliest :
    ∃ e, (verify OrderFunction.host OrderFunction.wording
        (OrderFunction.heap [.object .positive]) (.node 2) (OrderFunction.ofCounts [2, 0, 5])
        (.value .null)).outcome = .ok ⟨none, false, some e⟩ ∧
      e.Reports (.str "positive") (.int 0) (.int 0) ⟨["items", "1", "count"], some 1⟩ ∧
      (verify OrderFunction.host OrderFunction.wording
        (OrderFunction.heap [.object .positive]) (.node 2) (OrderFunction.ofCounts [2, 0, 5])
        (.value .null)).events = [.rule .positive (.int 2), .rule .positive (.int 0)] := by
  obtain ⟨-, hfirst, hreported⟩ := verify_tells_earliest OrderFunction.wording
    OrderFunction.host (OrderFunction.ofCounts [2, 0, 5])
    (OrderFunction.heap_holds [.object .positive]) (rfl : (OptionsArg.value .null).resolve = _)
    rfl
  obtain ⟨agenda, hagenda⟩ : ∃ agenda, agenda = (OrderFunction.order [.object .positive]).agenda
      Test.ofRules (OrderFunction.ofCounts [2, 0, 5]) {} := ⟨_, rfl⟩
  have hbefore : (agenda.take 15).map (·.finding OrderFunction.host (.bool false)) =
      List.replicate 15 .accepts := by
    rw [hagenda]
    rfl
  rw [← hagenda] at hfirst hreported
  have hsplit : agenda = agenda.take 15 ++
      ⟨.rule (.object .positive), .int 0, ⟨["items", "1", "count"], some 1⟩⟩ :: agenda.drop 16 := by
    rw [hagenda]
    rfl
  obtain ⟨hevents, houtcome⟩ := hfirst _ _ _ hsplit
    (fun y hy => List.eq_of_mem_replicate (hbefore ▸ List.mem_map_of_mem hy)) nofun
  have hmem : (⟨.rule (.object .positive), .int 0, ⟨["items", "1", "count"], some 1⟩⟩ :
      Probe OrderFunction) ∈ agenda := by
    rw [hsplit]
    simp
  rcases houtcome with ⟨verdict, houtcome, e, rfl, he⟩ | ⟨f, hf, -⟩
  · refine ⟨e, houtcome, he, ?_⟩
    rw [hevents, hagenda]
    rfl
  · exact absurd hf (hreported OrderFunction.host_reportable (Value.copyable_of_ownCopies _)
      (OrderFunction.keysFit_ofCounts [2, 0, 5]) ⟨false, rfl⟩ _ hmem f)

/-- Of an order with the counts 0 and 5 nothing is refused where the rule raises what counts as
false, and the rule is called for both. -/
theorem complaint_not_told :
    OrderFunction.complaints.rule .positive = some (fun _ => .error OrderFunction.complaint) ∧
    verify OrderFunction.complaints OrderFunction.wording
      (OrderFunction.heap [.object .positive]) (.node 2) (OrderFunction.ofCounts [0, 5])
      (.value .null) =
    ⟨[.rule .positive (.int 0), .rule .positive (.int 5)], .ok ⟨none, true, none⟩⟩ := by
  refine ⟨rfl, ?_⟩
  with_unfolding_all rfl

end SchemaTree
