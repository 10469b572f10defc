import SchemaTree.Proofs.CopyFaults

/-!
Two kinds of failure, told apart. A rule or a mapper that is broken is an error of the program, and
a value that is rejected is the failure of that value at its place. A mapper is taken for a rule in
one case: it broke with the failure of a value, which then stands for that of the value checked.
-/

namespace SchemaTree

variable {κ : Type} [Inspect κ]

/-- A rule is broken: it comes up with a fault that counts as true, and not to say that the value is
invalid. -/
def Host.RuleBreaks (host : Host κ) (r v : Value κ) (f : Fault κ) : Prop :=
  f.failure = none ∧ f.truth = .ok true ∧ host.RuleMeets r v f

/-- The rules that a mapper answers with: the answer itself, if it can be called, or the items of a
sequence. -/
inductive Value.StandsFor (answer : Value κ) : List (Value κ) → Prop
  | rule (hcallable : answer.isCallable = true) : StandsFor answer [answer]
  | sequence {rules : List (Value κ)} (hnot : answer.isCallable = false)
      (hsequence : answer.isSequence = true) (hitems : answer.items = .ok rules)
      (hrules : ∀ r ∈ rules, r.isCallable = true) : StandsFor answer rules

/-- An answer that is something, and neither one rule nor a sequence of rules. -/
def Value.Malformed (answer : Value κ) : Prop :=
  answer ≠ .null ∧ answer.isCallable = false ∧
    (answer.isSequence = true →
      ∃ items, answer.items = .ok items ∧ ∃ x ∈ items, x.isCallable = false)

def Value.Unread (answer : Value κ) (f : Fault κ) : Prop :=
  answer.isCallable = false ∧ answer.isSequence = true ∧ answer.items = .error f

/-- No rules are made of descriptors, before the mapper is called or after it has answered: they
cannot be copied, or the answer cannot be gone through. -/
inductive Setting.RulesUnmade (s : Setting κ) (descriptors : List (Value κ)) (f : Fault κ) : Prop
  | uncopied (hcopy : Value.deepCopyAll descriptors = .error f) : RulesUnmade s descriptors f
  | unread {copies : List (Value κ)} {answer : Value κ}
      (hcopy : Value.deepCopyAll descriptors = .ok copies)
      (hcall : (callMapper s.host s.options.validator (.list .fresh copies)
        (.options s.options)).outcome = .ok answer)
      (hanswer : answer.Unread f) : RulesUnmade s descriptors f

/-- How the rules of a node may fail to be made of its descriptors. -/
inductive Setting.MapperBreaks (s : Setting κ) (descriptors : List (Value κ)) : Fault κ → Prop
  | unmade {f : Fault κ} (hunmade : s.RulesUnmade descriptors f) : MapperBreaks s descriptors f
  | raises {copies : List (Value κ)} {f : Fault κ}
      (hcopy : Value.deepCopyAll descriptors = .ok copies)
      (hcall : (callMapper s.host s.options.validator (.list .fresh copies)
        (.options s.options)).outcome = .error f) :
      MapperBreaks s descriptors f
  | nothing {copies : List (Value κ)} (hcopy : Value.deepCopyAll descriptors = .ok copies)
      (hcall : (callMapper s.host s.options.validator (.list .fresh copies)
        (.options s.options)).outcome = .ok .null) :
      MapperBreaks s descriptors (.mappedKind "NoneType")
  | malformed {copies : List (Value κ)} {answer : Value κ}
      (hcopy : Value.deepCopyAll descriptors = .ok copies)
      (hcall : (callMapper s.host s.options.validator (.list .fresh copies)
        (.options s.options)).outcome = .ok answer)
      (hanswer : answer.Malformed) : MapperBreaks s descriptors (.mappedKind answer.kind)

/-- A check of a node finds one of its rules broken, or the mapper that makes them. -/
inductive Setting.Breaks (s : Setting κ) (u : Tree κ) (v : Value κ) : Test κ → Fault κ → Prop
  | rule {r : Value κ} {f : Fault κ} (hrule : s.host.RuleBreaks r v f) : Breaks s u v (.rule r) f
  | mapper {calls : List (Event κ)} {f : Fault κ} (hmapper : s.options.validator ≠ .null)
      (hbreaks : s.MapperBreaks (u.rules.getD []) f) (htrue : f.truth = .ok true) :
      Breaks s u v (.mapper calls (some f)) f

omit [Inspect κ] in
theorem Place.exists_node_of_mem_tests {tests : Option (List (Value κ)) → List (Test κ)}
    {place : Place κ} {test : Test κ} (htest : test ∈ place.tests tests)
    (h : test.isBuiltIn = false) :
    ∃ u, place = .node u place.value ∧ test ∈ tests u.rules := by
  cases place with
  | node u v =>
      refine ⟨u, rfl, ?_⟩
      simp only [Place.tests, Tree.ownTests, List.cons_append, List.mem_cons,
        List.mem_append] at htest
      rcases htest with rfl | rfl | htest | htest
      · cases h
      · cases h
      · exact htest
      · split at htest
        · rcases List.mem_pair.mp htest with rfl | rfl
          · cases h
          · cases h
        · simp at htest
  | item u v =>
      rcases List.mem_pair.mp htest with rfl | rfl
      · cases h
      · cases h

theorem Test.rule_breaks_iff {host : Host κ} {ignoring r v : Value κ} {f : Fault κ} :
    (rule r).finding host ignoring v = .breaks f ↔ host.RuleBreaks r v f :=
  Finding.ofAnswer_eq_breaks

section normalizeRules

variable {answer : Value κ} {rules : List (Value κ)} {f : Fault κ}

theorem normalizeRules_of_isCallable (h : answer.isCallable = true) :
    normalizeRules answer = .ok (some [answer]) := by
  cases answer with
  | object o => exact if_pos h
  | _ => cases h

theorem normalizeRules_of_isSequence (hnot : answer.isCallable = false)
    (h : answer.isSequence = true) :
    normalizeRules answer = answer.items >>= fun rules =>
      if rules.all Value.isCallable then .ok (some rules)
      else .error (.mappedKind answer.kind) := by
  cases answer with
  | object o => exact (if_neg (Bool.eq_false_iff.mp hnot)).trans (if_pos h)
  | list m xs => rfl
  | tuple m xs => rfl
  | _ => cases h

theorem normalizeRules_of_neither (hnull : answer ≠ .null) (hnot : answer.isCallable = false)
    (h : answer.isSequence = false) :
    normalizeRules answer = .error (.mappedKind answer.kind) := by
  cases answer with
  | null => exact absurd rfl hnull
  | object o => exact (if_neg (Bool.eq_false_iff.mp hnot)).trans (if_neg (Bool.eq_false_iff.mp h))
  | list m xs => cases h
  | tuple m xs => cases h
  | _ => rfl

theorem normalizeRules_of_standsFor (h : answer.StandsFor rules) :
    normalizeRules answer = .ok (some rules) := by
  cases h with
  | rule hcallable => exact normalizeRules_of_isCallable hcallable
  | sequence hnot hsequence hitems hrules =>
      rw [normalizeRules_of_isSequence hnot hsequence, hitems]
      exact if_pos (List.all_eq_true.mpr hrules)

theorem normalizeRules_of_malformed (h : answer.Malformed) :
    normalizeRules answer = .error (.mappedKind answer.kind) := by
  obtain ⟨hnull, hnot, hsequence⟩ := h
  cases hs : answer.isSequence with
  | false => exact normalizeRules_of_neither hnull hnot hs
  | true =>
      obtain ⟨items, hitems, x, hx, hcallable⟩ := hsequence hs
      rw [normalizeRules_of_isSequence hnot hs, hitems]
      refine if_neg fun hall => ?_
      exact Bool.false_ne_true (hcallable.symm.trans (List.all_eq_true.mp hall x hx))

theorem normalizeRules_of_unread (h : answer.Unread f) : normalizeRules answer = .error f := by
  obtain ⟨hnot, hsequence, hitems⟩ := h
  rw [normalizeRules_of_isSequence hnot hsequence, hitems]
  rfl

theorem normalizeRules_cases (answer : Value κ) :
    answer = .null ∨ (∃ rules, answer.StandsFor rules) ∨ answer.Malformed ∨
      ∃ f, answer.Unread f := by
  by_cases hnull : answer = .null
  · exact .inl hnull
  refine .inr ?_
  cases hcallable : answer.isCallable with
  | true => exact .inl ⟨_, .rule hcallable⟩
  | false =>
      cases hsequence : answer.isSequence with
      | false =>
          refine .inr (.inl ⟨hnull, hcallable, fun h => ?_⟩)
          exact absurd (hsequence.symm.trans h) Bool.false_ne_true
      | true =>
          cases hitems : answer.items with
          | error f => exact .inr (.inr ⟨f, hcallable, hsequence, hitems⟩)
          | ok items =>
              by_cases hall : ∀ x ∈ items, x.isCallable = true
              · exact .inl ⟨items, .sequence hcallable hsequence hitems hall⟩
              · refine .inr (.inl ⟨hnull, hcallable, fun _ => ⟨items, hitems, ?_⟩⟩)
                simpa using hall

theorem normalizeRules_eq_error_iff :
    normalizeRules answer = .error f ↔
      answer.Malformed ∧ f = .mappedKind answer.kind ∨ answer.Unread f := by
  constructor
  · intro h
    rcases normalizeRules_cases answer with rfl | ⟨rules, hrules⟩ | hmalformed | ⟨g, hg⟩
    · cases h
    · cases (normalizeRules_of_standsFor hrules).symm.trans h
    · cases (normalizeRules_of_malformed hmalformed).symm.trans h
      exact .inl ⟨hmalformed, rfl⟩
    · cases (normalizeRules_of_unread hg).symm.trans h
      exact .inr hg
  · rintro (⟨hmalformed, rfl⟩ | hunread)
    · exact normalizeRules_of_malformed hmalformed
    · exact normalizeRules_of_unread hunread

theorem normalizeRules_eq_none_iff : normalizeRules answer = .ok none ↔ answer = .null := by
  constructor
  · intro h
    rcases normalizeRules_cases answer with rfl | ⟨rules, hrules⟩ | hmalformed | ⟨g, hg⟩
    · rfl
    · cases (normalizeRules_of_standsFor hrules).symm.trans h
    · cases (normalizeRules_of_malformed hmalformed).symm.trans h
    · cases (normalizeRules_of_unread hg).symm.trans h
  · rintro rfl
    rfl

end normalizeRules

namespace Setting

variable {s : Setting κ} {descriptors : List (Value κ)} {f : Fault κ}

theorem mappedRules_of_copies {copies : List (Value κ)}
    (hcopy : Value.deepCopyAll descriptors = .ok copies) :
    (s.mappedRules descriptors).outcome = ((callMapper s.host s.options.validator
      (.list .fresh copies) (.options s.options)).outcome >>= normalizeRules) := by
  simp only [mappedRules, applyMapper, hcopy, Run.of_ok, pure_bind, Run.outcome_bind,
    Run.outcome_of]
  cases (callMapper s.host s.options.validator (.list .fresh copies)
    (.options s.options)).outcome <;> rfl

theorem mapperBreaks_iff :
    s.MapperBreaks descriptors f ↔ (s.mappedRules descriptors).outcome = .error f ∨
      (s.mappedRules descriptors).outcome = .ok none ∧ f = .mappedKind "NoneType" := by
  constructor
  · rintro ((hcopy | ⟨hcopy, hcall, hanswer⟩) | ⟨hcopy, hcall⟩ | ⟨hcopy, hcall⟩ |
      ⟨hcopy, hcall, hanswer⟩)
    · left
      simp [mappedRules, hcopy, Run.outcome_bind]
    · left
      rw [mappedRules_of_copies hcopy, hcall]
      exact normalizeRules_of_unread hanswer
    · left
      rw [mappedRules_of_copies hcopy, hcall]
      rfl
    · right
      rw [mappedRules_of_copies hcopy, hcall]
      exact ⟨rfl, rfl⟩
    · left
      rw [mappedRules_of_copies hcopy, hcall]
      exact normalizeRules_of_malformed hanswer
  · intro h
    cases hcopy : Value.deepCopyAll descriptors with
    | error g =>
        obtain rfl : g = f := by simpa [mappedRules, hcopy, Run.outcome_bind] using h
        exact .unmade (.uncopied hcopy)
    | ok copies =>
        rw [mappedRules_of_copies hcopy] at h
        cases hcall : (callMapper s.host s.options.validator (.list .fresh copies)
            (.options s.options)).outcome with
        | error g =>
            obtain rfl : g = f := by simpa [hcall, bind, Except.bind] using h
            exact .raises hcopy hcall
        | ok answer =>
            rw [hcall] at h
            rcases h with h | ⟨h, rfl⟩
            · rcases normalizeRules_eq_error_iff.mp h with ⟨hmalformed, rfl⟩ | hunread
              · exact .malformed hcopy hcall hmalformed
              · exact .unmade (.unread hcopy hcall hunread)
            · obtain rfl := normalizeRules_eq_none_iff.mp h
              exact .nothing hcopy hcall

theorem mapperBreaks_of_mem_tests {u : Tree κ} {calls : List (Event κ)}
    (h : .mapper calls (some f) ∈ s.tests u.rules) :
    s.options.validator ≠ .null ∧ s.MapperBreaks (u.rules.getD []) f := by
  by_cases hnull : s.options.validator = .null
  · rw [s.tests_of_null hnull] at h
    exact absurd rfl (Test.ofRules_ne_mapper h calls (some f))
  · refine ⟨hnull, ?_⟩
    unfold tests at h
    split at h
    · simp at h
    · simp at h
    · rename_i rules _ hrules
      split at h
      · exact absurd ‹_› hnull
      · rw [mapperBreaks_iff, hrules, Option.getD_some]
        unfold mapperTests at h
        split at h
        · simp at h
        · rename_i houtcome
          obtain ⟨-, rfl⟩ : calls = (s.mappedRules rules).events ∧
            f = .mappedKind "NoneType" := by simpa using h
          exact .inr ⟨houtcome, rfl⟩
        · rename_i g houtcome
          obtain ⟨-, rfl⟩ : calls = (s.mappedRules rules).events ∧ f = g := by simpa using h
          exact .inl houtcome

theorem Breaks.finding_eq {u : Tree κ} {x : Probe κ} (h : s.Breaks u x.value x.test f) :
    x.finding s.host s.options.ignoreExcess = .breaks f := by
  obtain ⟨test, v, p⟩ := x
  cases h with
  | rule hrule => exact Test.rule_breaks_iff.mpr hrule
  | mapper hmapper hbreaks htrue => exact Finding.ofBroken_eq_breaks.mpr ⟨rfl, htrue⟩

theorem exists_breaks {place : Place κ} {test : Test κ} (htest : test ∈ place.tests s.tests)
    (h : test.finding s.host s.options.ignoreExcess place.value = .breaks f) :
    ∃ u, place = .node u place.value ∧ s.Breaks u place.value test f := by
  have hbuiltIn : test.isBuiltIn = false := by
    rw [← Bool.not_eq_true]
    exact fun hbuiltIn => Test.ne_breaks_of_isBuiltIn hbuiltIn h
  obtain ⟨u, hplace, hmem⟩ := Place.exists_node_of_mem_tests htest hbuiltIn
  refine ⟨u, hplace, ?_⟩
  cases test with
  | rule r => exact .rule (Test.rule_breaks_iff.mp h)
  | mapper calls broken =>
      cases broken with
      | none => exact nomatch h
      | some g =>
          obtain ⟨rfl, htrue⟩ := Finding.ofBroken_eq_breaks.mp h
          obtain ⟨hmapper, hbreaks⟩ := mapperBreaks_of_mem_tests hmem
          exact .mapper hmapper hbreaks htrue
  | _ => exact nomatch hbuiltIn

namespace FailsFirst

variable {t : Tree κ} {v : Value κ} {x : Probe κ} (hx : s.FailsFirst t v x)

include hx

theorem exists_place :
    ∃ place : Place κ, t.Leads v x.place.path x.place.index place ∧ place.value = x.value ∧
      x.test ∈ place.tests s.tests :=
  t.exists_place .root hx.1

theorem finding_eq_breaks_iff :
    x.finding s.host s.options.ignoreExcess = .breaks f ↔
      ∃ u, t.Leads v x.place.path x.place.index (.node u x.value) ∧
        s.Breaks u x.value x.test f := by
  constructor
  · intro h
    obtain ⟨place, hleads, hvalue, htest⟩ := hx.exists_place
    rw [Probe.finding, ← hvalue] at h
    obtain ⟨u, hplace, hbreaks⟩ := exists_breaks htest h
    rw [hplace, hvalue] at hleads
    rw [hvalue] at hbreaks
    exact ⟨u, hleads, hbreaks⟩
  · rintro ⟨u, -, hbreaks⟩
    exact hbreaks.finding_eq

end FailsFirst

end Setting

omit [Inspect κ] in
theorem Verdict.resultError_ofSignal {signal : Signal κ} {e : ResultError κ} :
    (ofSignal signal).resultError = some e ↔ signal = .fail (.result e) := by
  cases signal with
  | fail f => cases f <;> simp [ofSignal]
  | _ => simp [ofSignal]

omit [Inspect κ] in
theorem Verdict.ofSignal_fail (f : Fault κ) :
    (∃ e, f = .result e ∧ ofSignal (.fail f) = ⟨none, false, some e⟩) ∨
      (∀ e, f ≠ .result e) ∧ ofSignal (.fail f) = ⟨some f, false, none⟩ := by
  cases f with
  | result e => exact .inl ⟨e, rfl, rfl⟩
  | _ => exact .inr ⟨nofun, rfl⟩

omit [Inspect κ] in
theorem Verdict.error_ofSignal_fail {f g : Fault κ} :
    (ofSignal (.fail g)).error = some f ↔ g = f ∧ ∀ e, f ≠ .result e := by
  rcases ofSignal_fail g with ⟨e, rfl, h⟩ | ⟨hg, h⟩
  · rw [h]
    refine iff_of_false nofun ?_
    rintro ⟨rfl, hf⟩
    exact hf e rfl
  · rw [h, Option.some.injEq]
    constructor
    · rintro rfl
      exact ⟨rfl, hg⟩
    · exact And.left

theorem Probe.rejects_of_raised {host : Host κ} {ignoring r : Value κ} {raised : ResultError κ}
    {x : Probe κ} (htest : x.test = .rule r)
    (hcall : (callRule host r x.value).outcome = .error (.result raised)) :
    x.finding host ignoring = .rejects raised.name raised.params := by
  rw [Probe.finding, htest, Test.finding, hcall]
  rfl

section verdict

variable {s : Setting κ} {n : NodeId} {t : Tree κ} {value : Value κ} {options : OptionsArg κ}
  (hs : s.pipeline = Pipeline.standard) (hn : s.heap.Holds n t)
  (ho : options.resolve = .ok s.options) {verdict : Verdict κ}
  (houtcome : (verify s.host s.wording s.heap (.node n) value options).outcome = .ok verdict)

include hs hn ho houtcome

theorem valid_or_failsFirst :
    verdict = ⟨none, true, none⟩ ∧ (∀ x, ¬ s.FailsFirst t value x) ∨
      ∃ x, s.FailsFirst t value x ∧
        ((∃ f, x.finding s.host s.options.ignoreExcess = .breaks f ∧
            verdict = Verdict.ofSignal (.fail f)) ∨
          ∃ name params e, x.finding s.host s.options.ignoreExcess = .rejects name params ∧
            verdict = ⟨none, false, some e⟩ ∧ e.Reports name params x.value x.place) := by
  rcases s.accepts_or_failsFirst t value with hall | ⟨x, hx⟩
  · rw [verify_of_all_accept hs hn ho hall] at houtcome
    exact .inl ⟨(Except.ok.inj houtcome).symm, s.not_failsFirst_of_accepts hall⟩
  · refine .inr ⟨x, hx, ?_⟩
    rw [verify_of_failsFirst hs hn ho hx, mapError_eq_ok] at houtcome
    obtain ⟨signal, hsignal, rfl⟩ := map_eq_ok.mp houtcome
    cases hfinding : x.finding s.host s.options.ignoreExcess with
    | accepts => exact absurd hfinding hx.2
    | escapes f =>
        rw [hfinding] at hsignal
        exact nomatch hsignal
    | breaks f =>
        rw [hfinding] at hsignal
        obtain rfl := Except.ok.inj hsignal
        exact .inl ⟨f, rfl, rfl⟩
    | rejects name params =>
        rw [hfinding, Finding.report] at hsignal
        obtain ⟨e, rfl, hreports⟩ := s.wording.failure_eq_ok hsignal
        exact .inr ⟨name, params, e, rfl, rfl, hreports⟩

theorem verdict_has_one_part :
    verdict.valid = true ∧ verdict.error = none ∧ verdict.resultError = none ∨
      verdict.valid = false ∧ ((∃ f, verdict.error = some f) ∧ verdict.resultError = none ∨
        verdict.error = none ∧ ∃ e, verdict.resultError = some e) := by
  rcases valid_or_failsFirst hs hn ho houtcome with
    ⟨rfl, -⟩ | ⟨x, -, ⟨f, -, rfl⟩ | ⟨name, params, e, -, rfl, -⟩⟩
  · exact .inl ⟨rfl, rfl, rfl⟩
  · rcases Verdict.ofSignal_fail f with ⟨e, -, h⟩ | ⟨-, h⟩
    · exact .inr ⟨by rw [h], .inr ⟨by rw [h], e, by rw [h]⟩⟩
    · exact .inr ⟨by rw [h], .inl ⟨⟨f, by rw [h]⟩, by rw [h]⟩⟩
  · exact .inr ⟨rfl, .inr ⟨rfl, e, rfl⟩⟩

theorem error_eq_some_iff {f : Fault κ} :
    verdict.error = some f ↔ (∀ e, f ≠ .result e) ∧ ∃ x, s.FailsFirst t value x ∧
      x.finding s.host s.options.ignoreExcess = .breaks f := by
  rcases valid_or_failsFirst hs hn ho houtcome with
    ⟨rfl, hnone⟩ | ⟨x, hx, ⟨g, hbreaks, rfl⟩ | ⟨name, params, e, hrejects, rfl, -⟩⟩
  · constructor
    · exact nofun
    · rintro ⟨-, x, hx, -⟩
      exact absurd hx (hnone x)
  · rw [Verdict.error_ofSignal_fail]
    constructor
    · rintro ⟨rfl, hf⟩
      exact ⟨hf, x, hx, hbreaks⟩
    · rintro ⟨hf, y, hy, h⟩
      obtain rfl := hy.unique hx
      exact ⟨Finding.breaks.inj (hbreaks.symm.trans h), hf⟩
  · constructor
    · exact nofun
    · rintro ⟨-, y, hy, h⟩
      obtain rfl := hy.unique hx
      exact nomatch hrejects.symm.trans h

theorem exists_of_resultError {e : ResultError κ} (he : verdict.resultError = some e) :
    ∃ x, s.FailsFirst t value x ∧
      (x.finding s.host s.options.ignoreExcess = .breaks (.result e) ∨
        ∃ name params, x.finding s.host s.options.ignoreExcess = .rejects name params ∧
          e.Reports name params x.value x.place) := by
  rcases valid_or_failsFirst hs hn ho houtcome with
    ⟨rfl, -⟩ | ⟨x, hx, ⟨f, hbreaks, rfl⟩ | ⟨name, params, e', hrejects, rfl, hreports⟩⟩
  · exact nomatch he
  · obtain rfl := Signal.fail.inj (Verdict.resultError_ofSignal.mp he)
    exact ⟨x, hx, .inl hbreaks⟩
  · obtain rfl := Option.some.inj he
    exact ⟨x, hx, .inr ⟨name, params, hrejects, hreports⟩⟩

theorem verdict_of_raised {x : Probe κ} {r : Value κ} {raised : ResultError κ}
    (hx : s.FailsFirst t value x) (htest : x.test = .rule r)
    (hcall : (callRule s.host r x.value).outcome = .error (.result raised)) :
    ∃ e : ResultError κ, verdict = ⟨none, false, some e⟩ ∧
      e.Reports raised.name raised.params x.value x.place := by
  have hfinding : x.finding s.host s.options.ignoreExcess = .rejects raised.name raised.params :=
    Probe.rejects_of_raised htest hcall
  rcases valid_or_failsFirst hs hn ho houtcome with
    ⟨-, hnone⟩ | ⟨y, hy, ⟨f, hbreaks, -⟩ | ⟨name, params, e, hrejects, hverdict, hreports⟩⟩
  · exact absurd hx (hnone x)
  · obtain rfl := hy.unique hx
    exact nomatch hbreaks.symm.trans hfinding
  · obtain rfl := hy.unique hx
    obtain ⟨rfl, rfl⟩ := Finding.rejects.inj (hrejects.symm.trans hfinding)
    exact ⟨e, hverdict, hreports⟩

/-- A valid value has neither an error nor a failure, any other one of the two. The error is what
the rule or the mapper that failed first broke with, unless that is the failure of a value. Any
other failure is that of the value at the place that was checked, also where a rule told of another
one. -/
theorem verdict_tells_broken_from_invalid :
    (verdict.valid = true ∧ verdict.error = none ∧ verdict.resultError = none ∨
      verdict.valid = false ∧ ((∃ f, verdict.error = some f) ∧ verdict.resultError = none ∨
        verdict.error = none ∧ ∃ e, verdict.resultError = some e)) ∧
    (∀ f, verdict.error = some f ↔ (∀ e, f ≠ .result e) ∧ ∃ x u, s.FailsFirst t value x ∧
      t.Leads value x.place.path x.place.index (.node u x.value) ∧ s.Breaks u x.value x.test f) ∧
    (∀ e, verdict.resultError = some e → ∃ x place, s.FailsFirst t value x ∧
      t.Leads value x.place.path x.place.index place ∧ place.value = x.value ∧
      ((∃ name params, x.finding s.host s.options.ignoreExcess = .rejects name params ∧
          e.Reports name params place.value x.place) ∨
        ∃ u, place = .node u x.value ∧ s.Breaks u x.value x.test (.result e))) ∧
    ∀ x r raised, s.FailsFirst t value x → x.test = .rule r →
      (callRule s.host r x.value).outcome = .error (.result raised) →
      ∃ e : ResultError κ, verdict = ⟨none, false, some e⟩ ∧
        e.Reports raised.name raised.params x.value x.place := by
  refine ⟨verdict_has_one_part hs hn ho houtcome, fun f => ?_, fun e he => ?_,
    fun x r raised => verdict_of_raised hs hn ho houtcome⟩
  · rw [error_eq_some_iff hs hn ho houtcome]
    refine and_congr_right fun _ => exists_congr fun x => ?_
    constructor
    · rintro ⟨hx, hbreaks⟩
      obtain ⟨u, hleads, hbreaks⟩ := hx.finding_eq_breaks_iff.mp hbreaks
      exact ⟨u, hx, hleads, hbreaks⟩
    · rintro ⟨u, hx, hleads, hbreaks⟩
      exact ⟨hx, hbreaks.finding_eq⟩
  · obtain ⟨x, hx, hbreaks | ⟨name, params, hrejects, hreports⟩⟩ :=
      exists_of_resultError hs hn ho houtcome he
    · obtain ⟨u, hleads, hbreaks⟩ := hx.finding_eq_breaks_iff.mp hbreaks
      exact ⟨x, .node u x.value, hx, hleads, rfl, .inr ⟨u, rfl, hbreaks⟩⟩
    · obtain ⟨place, hleads, hvalue, -⟩ := hx.exists_place
      rw [← hvalue] at hreports
      exact ⟨x, place, hx, hleads, hvalue, .inl ⟨name, params, hrejects, hreports⟩⟩

end verdict

/-- Where a rule of an order is no rule at all, the error tells of it. -/
theorem order_error_tells_broken :
    ∃ x u, (OrderFunction.setting [.str "a count"]).FailsFirst
        (OrderFunction.order [.str "a count"]) (OrderFunction.ofCounts [2]) x ∧
      (OrderFunction.order [.str "a count"]).Leads (OrderFunction.ofCounts [2]) x.place.path
        x.place.index (.node u x.value) ∧
      (OrderFunction.setting [.str "a count"]).Breaks u x.value x.test (.misuse .unsupported) := by
  have hresolve : (OptionsArg.value .null).resolve =
      .ok (OrderFunction.setting [.str "a count"]).options := rfl
  have houtcome : (verify OrderFunction.host OrderFunction.wording
      (OrderFunction.heap [.str "a count"]) (.node 2) (OrderFunction.ofCounts [2])
      (.value .null)).outcome = .ok ⟨some (.misuse .unsupported), false, none⟩ := rfl
  obtain ⟨-, herror, -⟩ := verdict_tells_broken_from_invalid rfl
    (OrderFunction.heap_holds [.str "a count"]) hresolve houtcome
  exact ((herror (.misuse .unsupported)).mp rfl).2

def OrderFunction.blame : ResultError OrderFunction where
  name := .str "blame"
  params := .null
  value := .str "another value"
  index := none
  path := []
  text := "another value is refused"

/-- A mapper that breaks with the failure of another value passes for a rule that rejects an order,
and the verdict has no error. -/
theorem broken_mapper_not_told :
    (verify
      { OrderFunction.host with
        mapper := fun _ => some fun _ _ => .error (.result OrderFunction.blame) }
      OrderFunction.wording (OrderFunction.heap [.object .positive]) (.node 2)
      (OrderFunction.ofCounts [2]) (.options { validator := .object .callables })).outcome =
      .ok ⟨none, false, some OrderFunction.blame⟩ :=
  rfl

end SchemaTree
