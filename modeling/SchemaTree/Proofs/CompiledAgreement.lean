import SchemaTree.Proofs.CompiledTree
import SchemaTree.Proofs.EarliestFailure

/-!
A compiled schema finds what the schema finds with the mapper among the options. The rules are the
same and are called in the same order; only the calls of the mapper are made at another time.
-/

namespace SchemaTree

variable {κ : Type}

def Event.isRule : Event κ → Bool
  | .rule .. => true
  | .map .. => false

def Test.isMapper : Test κ → Bool
  | .mapper .. => true
  | _ => false

theorem Test.isMapper_of_isBuiltIn {test : Test κ} (h : test.isBuiltIn = true) :
    (!test.isMapper) = true := by
  cases test <;> simp_all [isBuiltIn, isMapper]

theorem Test.filter_calls {test : Test κ} (h : test.isMapper = false) (host : Host κ)
    (v : Value κ) : (test.calls host v).filter Event.isRule = test.calls host v := by
  cases test with
  | rule r =>
      cases r with
      | object o =>
          simp only [calls, ruleCalls]
          split <;> rfl
      | _ => rfl
  | mapper calls broken => simp [isMapper] at h
  | _ => rfl

/-- The test makes calls of rules alone, or it stands for a mapper that did not break. -/
def Test.Passes (test : Test κ) : Prop :=
  ∀ calls broken, test = .mapper calls broken → broken = none ∧ calls.filter Event.isRule = []

theorem Test.passes_of_isBuiltIn {test : Test κ} (h : test.isBuiltIn = true) : test.Passes := by
  rintro calls broken rfl
  simp [isBuiltIn] at h

variable [Inspect κ]

namespace Setting

variable {s : Setting κ}

/-- Mappers that do not break change nothing but the record of calls. -/
theorem performAll_filter (xs : List (Probe κ)) (hxs : ∀ x ∈ xs, x.test.Passes) :
    s.performAll (xs.filter (!·.test.isMapper)) =
      ⟨(s.performAll xs).events.filter Event.isRule, (s.performAll xs).outcome⟩ := by
  induction xs with
  | nil => rfl
  | cons x xs ih =>
      have ih := ih fun y hy => hxs y (by simp [hy])
      cases hmapper : x.test.isMapper with
      | true =>
          obtain ⟨⟨⟩, v, p⟩ := x <;> simp only [Test.isMapper, reduceCtorEq] at hmapper
          rename_i calls broken
          obtain ⟨rfl, hcalls⟩ := hxs ⟨.mapper calls broken, v, p⟩ (by simp) calls broken rfl
          have haccepts : Probe.finding s.host s.options.ignoreExcess
            ⟨.mapper calls none, v, p⟩ = .accepts := rfl
          rw [List.filter_cons_of_neg (by simp [Test.isMapper]), ih,
            performAll_cons_of_accepts haccepts, List.filter_append]
          simp only [Probe.calls, Test.calls, hcalls, List.nil_append]
      | false =>
          have hcalls := Test.filter_calls hmapper s.host x.value
          rw [List.filter_cons_of_pos (by simp [hmapper])]
          by_cases hx : x.finding s.host s.options.ignoreExcess = .accepts
          · rw [performAll_cons_of_accepts hx, performAll_cons_of_accepts hx, ih,
              List.filter_append, Probe.calls, hcalls]
          · rw [performAll_cons_of_ne hx, performAll_cons_of_ne hx]
            exact Run.ext hcalls.symm rfl

variable {m : κ} {rulesOf : List (Value κ) → List (Value κ)}
  (hvalidator : s.options.validator = .object m) (hmaps : s.host.MapsBy m rulesOf)

include hvalidator hmaps

theorem mappedRules_eq {rules copies : List (Value κ)}
    (hcopies : Value.deepCopyAll rules = .ok copies) :
    s.mappedRules rules = ⟨[.map m (.list .fresh copies)], .ok (some (rulesOf rules))⟩ := by
  rw [mappedRules, hcopies, Run.of_ok, pure_bind, hvalidator, hmaps.applyMapper_eq,
    hmaps.copies _ _ hcopies]

/-- The tests of a node's rules are, but for the call of the mapper, those of the rules that the
mapper makes. -/
theorem tests_of_mapsBy {rules : Option (List (Value κ))} (hcopies : CopyableRules rules) :
    (∀ test ∈ s.tests rules, test.Passes) ∧
      Test.ofRules (some (rulesOf (rules.getD []))) = (s.tests rules).filter (!·.isMapper) := by
  match rules, hcopies with
  | none, _ | some [], _ => simp [tests, hmaps.none, Test.ofRules]
  | some (r :: rules), ⟨copies, hcopies⟩ =>
      rw [Option.getD_some] at hcopies
      have htests : s.tests (some (r :: rules)) = .mapper [.map m (.list .fresh copies)] none ::
          (rulesOf (r :: rules)).map .rule := by
        simp only [tests, hvalidator, mapperTests, mappedRules_eq hvalidator hmaps hcopies]
      rw [htests]
      constructor
      · intro test htest calls broken hbroken
        subst hbroken
        obtain ⟨rfl, rfl⟩ : calls = [.map m (.list .fresh copies)] ∧ broken = none := by
          simpa using htest
        exact ⟨rfl, rfl⟩
      · rw [List.filter_cons_of_neg (by simp [Test.isMapper])]
        refine (List.filter_eq_self.mpr fun test htest => ?_).symm
        obtain ⟨made, -, rfl⟩ := List.mem_map.mp htest
        rfl

end Setting

/-- A compiled schema gives the outcome that the schema gives with the mapper among the options,
and calls the same rules. -/
theorem compiled_agrees (wording : Wording κ) {host : Host κ} {m : κ}
    {rulesOf : List (Value κ) → List (Value κ)} {h : Heap κ} {n : NodeId} {t : Tree κ}
    {options : OptionsArg κ} {o : Options κ} {extra : Entries κ} (hmaps : host.MapsBy m rulesOf)
    (hn : h.Holds n t) (ho : options.resolve = .ok o)
    (hextra : Options.entriesOf o.extra = .ok extra) (hcopies : t.Each Tree.CopiedTwice)
    (value : Value κ) :
    ∃ c, (compile host (.node n) (.object m) options Pipeline.standard h).1.outcome = .ok c ∧
      (c.verify host wording (compile host (.node n) (.object m) options Pipeline.standard h).2
          value).outcome =
        (verify host wording h (.node n) value
          (.options { o with validator := .object m })).outcome ∧
      (c.verify host wording (compile host (.node n) (.object m) options Pipeline.standard h).2
          value).events =
        (verify host wording h (.node n) value
          (.options { o with validator := .object m })).events.filter Event.isRule := by
  obtain ⟨root, hcompiled, hroot⟩ := compile_eq hmaps hn ho hextra hcopies Pipeline.standard
  refine ⟨_, hcompiled, ?_⟩
  generalize (compile host (.node n) (.object m) options Pipeline.standard h).2 = planted at hroot
  obtain ⟨s, hs⟩ : ∃ s : Setting κ,
    s = { host, wording, heap := h, options := { o with validator := .object m } } := ⟨_, rfl⟩
  obtain ⟨s', hs'⟩ : ∃ s' : Setting κ,
    s' = { host, wording, heap := planted,
           options := { o with validator := .null, extra := .mapping .fresh extra } } := ⟨_, rfl⟩
  have hrules : s'.tests = Test.ofRules := s'.tests_of_null (by rw [hs'])
  -- A check looks at neither the heap nor the mapper, so an agenda goes the same way in both.
  have hsame (xs : List (Probe κ)) : s'.performAll xs = s.performAll xs := by
    rw [hs, hs']
    rfl
  have htests : t.Each fun u => (∀ test ∈ s.tests u.rules, test.Passes) ∧
      Test.ofRules (some (rulesOf (u.rules.getD []))) = (s.tests u.rules).filter (!·.isMapper) :=
    hcopies.mono fun u hu => Setting.tests_of_mapsBy (by rw [hs]) (by rw [hs]; exact hmaps)
      hu.copyableRules
  have hagenda : (t.withRules fun r => some (rulesOf (r.getD []))).agenda Test.ofRules value {} =
      (t.agenda s.tests value {}).filter (!·.test.isMapper) :=
    t.agenda_withRules (fun test => Test.isMapper_of_isBuiltIn) (htests.mono fun u hu => hu.2)
      value {}
  have hpasses : ∀ x ∈ t.agenda s.tests value {}, x.test.Passes := fun x hx =>
    t.agenda_tests (fun test => Test.passes_of_isBuiltIn) (htests.mono fun u hu => hu.1) hx
  have hverify : verify host wording h (.node n) value
      (.options { o with validator := .object m }) =
      (Verdict.ofSignal <$> s.performAll (t.agenda s.tests value {})).awaited :=
    verify_eq hs hn rfl
  have hverify' : Compiled.verify ⟨root, { o with
      validator := .null, extra := .mapping .fresh extra }, Pipeline.standard⟩ host wording planted
      value = (Verdict.ofSignal <$> s'.performAll ((t.withRules fun r =>
        some (rulesOf (r.getD []))).agenda s'.tests value {})).awaited := verify_eq hs' hroot rfl
  rw [hverify, hverify', hrules, hagenda, hsame, s.performAll_filter _ hpasses]
  simp only [Run.outcome_awaited, Run.events_awaited, Run.outcome_map, Run.events_map, and_self]

theorem Value.isCallable_deepCopy [OwnCopies κ] {x copy : Value κ} (h : x.deepCopy = .ok copy) :
    copy.isCallable = x.isCallable ∧ (x.isCallable = true → copy = x) := by
  cases x with
  | object o =>
      obtain ⟨o', ho, h⟩ := bind_eq_ok.mp h
      rw [OwnCopies.deepCopy_eq] at ho
      obtain rfl := Except.ok.inj ho
      obtain rfl := Except.ok.inj h
      exact ⟨rfl, fun _ => rfl⟩
  | list m xs | mapping m es =>
      obtain ⟨copies, -, h⟩ := bind_eq_ok.mp h
      obtain rfl := Except.ok.inj h
      exact ⟨rfl, nofun⟩
  | tuple m xs =>
      obtain ⟨copies, -, h⟩ := bind_eq_ok.mp h
      obtain rfl := Except.ok.inj h
      split <;> exact ⟨rfl, nofun⟩
  | invalid m name params =>
      obtain ⟨name', -, h⟩ := bind_eq_ok.mp h
      obtain ⟨params', -, h⟩ := bind_eq_ok.mp h
      obtain rfl := Except.ok.inj h
      exact ⟨rfl, nofun⟩
  | _ =>
      obtain rfl := Except.ok.inj h
      exact ⟨rfl, fun _ => rfl⟩

theorem Value.filter_isCallable_copies [OwnCopies κ] {xs copies : List (Value κ)}
    (h : deepCopyAll xs = .ok copies) :
    copies.filter isCallable = xs.filter isCallable := by
  induction xs generalizing copies with
  | nil =>
      obtain rfl := Except.ok.inj h
      rfl
  | cons x xs ih =>
      obtain ⟨copy, rest, hx, hxs, rfl⟩ := deepCopyAll_cons.mp h
      have ih := ih hxs
      have hcopy := isCallable_deepCopy hx
      rw [List.filter_cons, List.filter_cons, hcopy.1, ih]
      split
      · rw [hcopy.2 ‹_›]
      · rfl

theorem OrderFunction.host_mapsBy :
    OrderFunction.host.MapsBy .callables (List.filter Value.isCallable) where
  callable := rfl
  answers := by
    refine ⟨_, rfl, fun xs options => ⟨_, rfl, ?_⟩⟩
    simp [Value.arrayItems]
  copies _ _ h := Value.filter_isCallable_copies h
  none := rfl

/-- An order schema that is compiled with the mapper for counts calls the rule for counts up to the
first that is refused. -/
theorem order_compiled_agrees :
    ∃ c, (compile OrderFunction.host (.node 2) (.object .callables) (.value .null)
        Pipeline.standard (OrderFunction.heap [.str "a count", .object .positive])).1.outcome =
          .ok c ∧
      (c.verify OrderFunction.host OrderFunction.wording
        (compile OrderFunction.host (.node 2) (.object .callables) (.value .null)
          Pipeline.standard (OrderFunction.heap [.str "a count", .object .positive])).2
        (OrderFunction.ofCounts [2, 0, 5])).events =
        [.rule .positive (.int 2), .rule .positive (.int 0)] := by
  have hcopies (u : Tree OrderFunction) : u.CopiedTwice := by
    obtain ⟨copies, hcopies⟩ := Value.exists_deepCopyAll
      (fun o : OrderFunction => ⟨o, rfl⟩) (u.rules.getD [])
    obtain ⟨again, hagain⟩ := Value.exists_deepCopyAll (fun o : OrderFunction => ⟨o, rfl⟩) copies
    exact ⟨copies, again, hcopies, hagain⟩
  obtain ⟨c, hcompiled, -, hevents⟩ := compiled_agrees OrderFunction.wording
    OrderFunction.host_mapsBy (OrderFunction.heap_holds [.str "a count", .object .positive])
    (rfl : (OptionsArg.value .null).resolve = _) (rfl : Options.entriesOf (.mapping .fresh []) = _)
    (Tree.each_of_forall hcopies _) (OrderFunction.ofCounts [2, 0, 5])
  refine ⟨c, hcompiled, hevents.trans ?_⟩
  rfl

end SchemaTree
