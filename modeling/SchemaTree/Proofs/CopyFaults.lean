import SchemaTree.Proofs.Places

/-!
What comes out of a run that gives no verdict. To report a rejected value its parameters and the
value itself are copied and the name of the rule is shown. An object that refuses to be copied is
kept as it is, but another fault goes through. So does one of an error that cannot be told apart.
-/

namespace SchemaTree

variable {κ : Type} [Inspect κ]

/-- The objects of a program can be copied or refuse to be: no copy runs into another fault. -/
def CopiesOrRefuses (κ : Type) [Inspect κ] : Prop :=
  ∀ (o : κ) (f : Fault κ), Inspect.deepCopy o = .error f ∨ Inspect.shallowCopy o = .error f →
    f.refusesCopy = true

namespace Value

theorem refusesCopy_of_snapshot {v : Value κ} {f : Fault κ} (h : v.snapshot = .error f) :
    f.refusesCopy = false := by
  unfold snapshot firstCopy at h
  split at h
  · exact nomatch h
  · split at h
    · obtain rfl := Except.error.inj h
      rename_i hrefuses
      simpa using hrefuses
    · split at h
      · exact nomatch h
      · split at h
        · exact nomatch h
        · obtain rfl := Except.error.inj h
          rename_i hrefuses
          simpa using hrefuses

mutual

theorem refusesCopy_of_deepCopy (hobjects : CopiesOrRefuses κ) (v : Value κ) {f : Fault κ}
    (h : v.deepCopy = .error f) : f.refusesCopy = true := by
  cases v with
  | list m xs =>
      rcases bind_eq_error.mp h with hxs | ⟨copies, -, h⟩
      · exact refusesCopy_of_deepCopyAll hobjects xs hxs
      · exact nomatch h
  | tuple m xs =>
      rcases bind_eq_error.mp h with hxs | ⟨copies, -, h⟩
      · exact refusesCopy_of_deepCopyAll hobjects xs hxs
      · exact nomatch h
  | mapping m es =>
      rcases bind_eq_error.mp h with hes | ⟨copies, -, h⟩
      · exact refusesCopy_of_deepCopyEntries hobjects es hes
      · exact nomatch h
  | invalid m name params =>
      rcases bind_eq_error.mp h with hname | ⟨name', -, h⟩
      · exact refusesCopy_of_deepCopy hobjects name hname
      · rcases bind_eq_error.mp h with hparams | ⟨params', -, h⟩
        · exact refusesCopy_of_deepCopy hobjects params hparams
        · exact nomatch h
  | object o =>
      rcases bind_eq_error.mp h with ho | ⟨o', -, h⟩
      · exact hobjects o f (.inl ho)
      · exact nomatch h
  | _ => exact nomatch h

theorem refusesCopy_of_deepCopyAll (hobjects : CopiesOrRefuses κ) (xs : List (Value κ))
    {f : Fault κ} (h : deepCopyAll xs = .error f) : f.refusesCopy = true := by
  cases xs with
  | nil => exact nomatch h
  | cons x xs =>
      rcases bind_eq_error.mp h with hx | ⟨copy, -, h⟩
      · exact refusesCopy_of_deepCopy hobjects x hx
      · rcases bind_eq_error.mp h with hxs | ⟨copies, -, h⟩
        · exact refusesCopy_of_deepCopyAll hobjects xs hxs
        · exact nomatch h

theorem refusesCopy_of_deepCopyEntries (hobjects : CopiesOrRefuses κ) (es : Entries κ)
    {f : Fault κ} (h : deepCopyEntries es = .error f) : f.refusesCopy = true := by
  cases es with
  | nil => exact nomatch h
  | cons e es =>
      obtain ⟨k, v⟩ := e
      rcases bind_eq_error.mp h with hv | ⟨value, -, h⟩
      · exact refusesCopy_of_deepCopy hobjects v hv
      · rcases bind_eq_error.mp h with hk | ⟨key, -, h⟩
        · exact refusesCopy_of_deepCopy hobjects k hk
        · rcases bind_eq_error.mp h with hes | ⟨copies, -, h⟩
          · exact refusesCopy_of_deepCopyEntries hobjects es hes
          · exact nomatch h

end

theorem refusesCopy_of_shallowCopy (hobjects : CopiesOrRefuses κ) {v : Value κ} {f : Fault κ}
    (h : v.shallowCopy = .error f) : f.refusesCopy = true := by
  cases v with
  | object o =>
      rcases bind_eq_error.mp h with ho | ⟨o', -, h⟩
      · exact hobjects o f (.inr ho)
      · exact nomatch h
  | _ => exact nomatch h

theorem exists_snapshot (hobjects : CopiesOrRefuses κ) (v : Value κ) :
    ∃ copy, v.snapshot = .ok copy := by
  unfold snapshot firstCopy
  cases hdeep : v.deepCopy with
  | ok copy => exact ⟨copy, rfl⟩
  | error f =>
      cases hshallow : v.shallowCopy with
      | ok copy =>
          refine ⟨copy, ?_⟩
          simp [refusesCopy_of_deepCopy hobjects v hdeep]
      | error g =>
          refine ⟨v, ?_⟩
          simp [refusesCopy_of_deepCopy hobjects v hdeep,
            refusesCopy_of_shallowCopy hobjects hshallow]

end Value

namespace Finding

variable {found : Finding κ} {v : Value κ} {f : Fault κ}

theorem Unreported.of_refusals (hobjects : CopiesOrRefuses κ) (h : found.Unreported v f) :
    found = .escapes f ∨ ∃ name params, found = .rejects name params ∧ name.text = .error f := by
  cases h with
  | escapes => exact .inl rfl
  | @params name params h =>
      obtain ⟨copy, hcopy⟩ := Value.exists_snapshot hobjects params
      exact nomatch h.symm.trans hcopy
  | value hparams h =>
      obtain ⟨copy, hcopy⟩ := Value.exists_snapshot hobjects v
      exact nomatch h.symm.trans hcopy
  | name hparams hvalue h => exact .inr ⟨_, _, rfl, h⟩

end Finding

/-- A rule comes up with a fault for a value: it raises it, or the truth of its answer does. -/
def Host.RuleMeets (host : Host κ) (r v : Value κ) (f : Fault κ) : Prop :=
  (callRule host r v).outcome = .error f ∨
    ∃ answer, (callRule host r v).outcome = .ok answer ∧
      (∀ m name params, answer ≠ .invalid m name params) ∧ answer.isTrue = .error f

/-- A test comes up with a fault: its rule does, or the mapper that made the rules did. -/
def Test.Meets (host : Host κ) (v : Value κ) (f : Fault κ) : Test κ → Prop
  | .rule r => host.RuleMeets r v f
  | .mapper _ broken => broken = some f
  | _ => False

/-- What cannot be told apart is a fault of which the truth, or what it says of the value, is out of
reach. -/
theorem Test.exists_meets_of_escapes {host : Host κ} {ignoring : Value κ} {test : Test κ}
    {v : Value κ} (hv : v.KeysFit) {ignore : Bool} (hignore : ignoring.isTrue = .ok ignore)
    {f : Fault κ} (h : test.finding host ignoring v = .escapes f) :
    ∃ g, test.Meets host v g ∧ (g.failure = some (.error f) ∨ g.truth = .error f) := by
  cases test with
  | rule r => exact Finding.exists_fault_of_escapes h
  | mapper calls broken =>
      cases broken with
      | none => exact nomatch h
      | some g => exact ⟨g, rfl, .inr (Finding.ofBroken_eq_escapes.mp h)⟩
  | _ => exact absurd h (not_escapes_of_isBuiltIn rfl hv hignore f)

namespace Setting

variable (s : Setting κ) (t : Tree κ) (v : Value κ)

/-- The check is the earliest one in document order that does not accept. -/
def FailsFirst (x : Probe κ) : Prop :=
  ReachedIn (fun y => y.finding s.host s.options.ignoreExcess = .accepts)
    (t.agenda s.tests v {}) x ∧ x.finding s.host s.options.ignoreExcess ≠ .accepts

theorem accepts_or_failsFirst :
    (∀ x ∈ t.agenda s.tests v {}, x.finding s.host s.options.ignoreExcess = .accepts) ∨
      ∃ x, s.FailsFirst t v x := by
  rcases forall_or_exists_first (fun x => x.finding s.host s.options.ignoreExcess = .accepts)
      (t.agenda s.tests v {}) with hall | ⟨before, x, after, hagenda, hbefore, hx⟩
  · exact .inl hall
  · exact .inr ⟨x, ⟨before, after, hagenda, hbefore⟩, hx⟩

variable {s t v}

theorem not_failsFirst_of_accepts
    (hall : ∀ x ∈ t.agenda s.tests v {}, x.finding s.host s.options.ignoreExcess = .accepts)
    (x : Probe κ) : ¬ s.FailsFirst t v x :=
  fun hx => hx.2 (hall x hx.1.mem)

namespace FailsFirst

variable {x y : Probe κ}

theorem unique (hx : s.FailsFirst t v x) (hy : s.FailsFirst t v y) : x = y :=
  hx.1.unique hx.2 hy.1 hy.2

theorem outcome_eq (hx : s.FailsFirst t v x) :
    (s.performAll (t.agenda s.tests v {})).outcome =
      (x.finding s.host s.options.ignoreExcess).report s.wording x.value x.place := by
  obtain ⟨⟨before, after, hagenda, hbefore⟩, hx⟩ := hx
  rw [hagenda, s.performAll_of_first hbefore hx]
  rfl

theorem keysFit (hx : s.FailsFirst t v x) (hv : v.KeysFit) : x.value.KeysFit :=
  t.agenda_values Value.KeysFit.arrayItems Value.KeysFit.under hv hx.1.mem

end FailsFirst

end Setting

section verdict

variable {s : Setting κ} {n : NodeId} {t : Tree κ} {value : Value κ} {options : OptionsArg κ}
  {ignore : Bool} (hs : s.pipeline = Pipeline.standard) (hn : s.heap.Holds n t)
  (ho : options.resolve = .ok s.options)

include hs hn ho

theorem verify_eq_performAll_agenda :
    verify s.host s.wording s.heap (.node n) value options =
      (Verdict.ofSignal <$> s.performAll (t.agenda s.tests value {})).awaited := by
  obtain ⟨host, wording, heap, o, pipeline⟩ := s
  obtain rfl : pipeline = Pipeline.standard := hs
  exact verify_eq rfl hn ho

theorem verify_of_all_accept
    (hall : ∀ x ∈ t.agenda s.tests value {}, x.finding s.host s.options.ignoreExcess = .accepts) :
    (verify s.host s.wording s.heap (.node n) value options).outcome = .ok ⟨none, true, none⟩ := by
  rw [verify_eq_performAll_agenda hs hn ho, s.performAll_of_accepts hall]
  rfl

theorem verify_of_failsFirst {x : Probe κ} (hx : s.FailsFirst t value x) :
    (verify s.host s.wording s.heap (.node n) value options).outcome =
      (((x.finding s.host s.options.ignoreExcess).report s.wording x.value x.place).map
        Verdict.ofSignal).mapError (Fault.outOf "coroutine") := by
  rw [verify_eq_performAll_agenda hs hn ho, Run.outcome_awaited, Run.outcome_map, hx.outcome_eq]

theorem exists_verdict_iff :
    (∃ verdict, (verify s.host s.wording s.heap (.node n) value options).outcome =
        .ok verdict) ↔
      ∀ x f, s.FailsFirst t value x →
        ¬ (x.finding s.host s.options.ignoreExcess).Unreported x.value f := by
  rcases s.accepts_or_failsFirst t value with hall | ⟨x, hx⟩
  · rw [verify_of_all_accept hs hn ho hall]
    exact ⟨fun _ x _ hx => absurd hx (s.not_failsFirst_of_accepts hall x), fun _ => ⟨_, rfl⟩⟩
  · rw [verify_of_failsFirst hs hn ho hx]
    constructor
    · rintro ⟨verdict, hverdict⟩ y f hy hf
      obtain rfl := hx.unique hy
      rw [Finding.report_eq_error_iff.mpr hf] at hverdict
      exact nomatch hverdict
    · intro h
      cases hreport : (x.finding s.host s.options.ignoreExcess).report s.wording x.value
          x.place with
      | ok signal => exact ⟨_, rfl⟩
      | error f => exact absurd (Finding.report_eq_error_iff.mp hreport) (h x f hx)

theorem unreported_of_verify_error {f : Fault κ}
    (hf : (verify s.host s.wording s.heap (.node n) value options).outcome = .error f) :
    ∃ x g, s.FailsFirst t value x ∧
      (x.finding s.host s.options.ignoreExcess).Unreported x.value g ∧
      f = g.outOf "coroutine" := by
  rcases s.accepts_or_failsFirst t value with hall | ⟨x, hx⟩
  · rw [verify_of_all_accept hs hn ho hall] at hf
    exact nomatch hf
  · rw [verify_of_failsFirst hs hn ho hx] at hf
    obtain ⟨g, hg, rfl⟩ := mapError_eq_error.mp hf
    exact ⟨x, g, hx, Finding.report_eq_error_iff.mp (map_eq_error.mp hg), rfl⟩

/-- Where copies are only refused and names can be shown, a verdict comes out unless a fault cannot
be told apart. -/
theorem verify_returns_of_refusals (hobjects : CopiesOrRefuses κ)
    (hnames : ∀ x ∈ t.agenda s.tests value {}, ∀ name params,
      x.finding s.host s.options.ignoreExcess = .rejects name params →
        ∃ text, name.text = .ok text)
    (hescapes : ∀ x ∈ t.agenda s.tests value {}, ∀ f,
      x.finding s.host s.options.ignoreExcess ≠ .escapes f) :
    ∃ verdict, (verify s.host s.wording s.heap (.node n) value options).outcome =
      .ok verdict := by
  refine (exists_verdict_iff hs hn ho).mpr fun x f hx hf => ?_
  rcases hf.of_refusals hobjects with hfinding | ⟨name, params, hfinding, hname⟩
  · exact hescapes x hx.1.mem f hfinding
  · obtain ⟨text, htext⟩ := hnames x hx.1.mem name params hfinding
    exact nomatch htext.symm.trans hname

/-- Whatever rules, mappers and formatters do, a verdict comes out of a run if and only if what the
first check finds that does not accept can be reported. What comes out otherwise is a fault of
reporting it: of a copy of the parameters or the value, of the name of the rule, or of another fault
that cannot be told apart. -/
theorem verify_returns_iff_reported (hignore : s.options.ignoreExcess.isTrue = .ok ignore)
    (hkeys : value.KeysFit) :
    ((∃ verdict, (verify s.host s.wording s.heap (.node n) value options).outcome =
        .ok verdict) ↔
      ∀ x f, s.FailsFirst t value x →
        ¬ (x.finding s.host s.options.ignoreExcess).Unreported x.value f) ∧
    ∀ f, (verify s.host s.wording s.heap (.node n) value options).outcome = .error f →
      ∃ x g, s.FailsFirst t value x ∧ f = g.outOf "coroutine" ∧
        ((∃ name params, x.finding s.host s.options.ignoreExcess = .rejects name params ∧
            (params.snapshot = .error g ∧ g.refusesCopy = false ∨
              x.value.snapshot = .error g ∧ g.refusesCopy = false ∨ name.text = .error g)) ∨
          ∃ met, x.test.Meets s.host x.value met ∧
            (met.failure = some (.error g) ∨ met.truth = .error g)) := by
  refine ⟨exists_verdict_iff hs hn ho, fun f hf => ?_⟩
  obtain ⟨x, g, hx, hg, rfl⟩ := unreported_of_verify_error hs hn ho hf
  refine ⟨x, g, hx, rfl, ?_⟩
  generalize hfinding : x.finding s.host s.options.ignoreExcess = found at hg
  cases hg with
  | escapes => exact .inr (Test.exists_meets_of_escapes (hx.keysFit hkeys) hignore hfinding)
  | params h => exact .inl ⟨_, _, rfl, .inl ⟨h, Value.refusesCopy_of_snapshot h⟩⟩
  | value _ h => exact .inl ⟨_, _, rfl, .inr (.inl ⟨h, Value.refusesCopy_of_snapshot h⟩)⟩
  | name _ _ h => exact .inl ⟨_, _, rfl, .inr (.inr h)⟩

end verdict

theorem verify_order_returns :
    ∃ verdict, (verify OrderFunction.host OrderFunction.wording
      (OrderFunction.heap [.object .positive]) (.node 2) (OrderFunction.ofCounts [2, 0, 5])
      (.value .null)).outcome = .ok verdict := by
  have hresolve : (OptionsArg.value .null).resolve =
      .ok (OrderFunction.setting [.object .positive]).options := rfl
  obtain ⟨hreturns, -⟩ := verify_returns_iff_reported rfl
    (OrderFunction.heap_holds [.object .positive]) hresolve rfl
    (OrderFunction.keysFit_ofCounts [2, 0, 5])
  refine hreturns.mpr fun x f hx => ?_
  have htests : (OrderFunction.setting [.object .positive]).tests = Test.ofRules :=
    Setting.tests_of_null rfl
  have hmem := hx.1.mem
  rw [htests] at hmem
  exact not_unreported (o := (OrderFunction.setting [.object .positive]).options)
    OrderFunction.host_reportable (Value.copyable_of_ownCopies _)
    (OrderFunction.keysFit_ofCounts [2, 0, 5]) rfl hmem f

/-- The objects of a program that talks to a machine. A connection can be neither copied nor shown,
and it does not say so as a refusal. -/
inductive Connection where
  | line (number : Nat)
  deriving DecidableEq

namespace Connection

instance : Inspect Connection where
  kind _ := "Connection"
  render _ := .error (.raised { kind := "ConnectionError", message := "no answer" })
  text _ := .error (.raised { kind := "ConnectionError", message := "no answer" })
  truth _ := .ok true
  callable _ := false
  identical a b := a == b
  same a b := a == b
  canBeKey _ := true
  items _ := .error (.misuse .unsupported)
  deepCopy _ := .error (.valueError "no copy")
  shallowCopy := .ok
  fixed _ := false
  replace _ o := o

def host : Host Connection where
  rule _ := none
  mapper _ := none

def wording : Wording Connection where
  table := MessageTable.builtin
  phrase _ := none

def heap : Heap Connection where
  nodes := [
    { registry := Heap.defaultRegistry },
    { registry := Heap.defaultRegistry, fields := some [("name", 0)] }]

def machine : Value Connection :=
  .mapping .fresh [(.str "name", .str "press"), (.str "line", .object (.line 1))]

end Connection

/-- A machine is not valid with its connection, but no verdict says so. -/
theorem verify_machine_raises :
    ¬ ∃ verdict, (verify Connection.host Connection.wording Connection.heap (.node 1)
      Connection.machine (.value .null)).outcome = .ok verdict := by
  have hraises : (verify Connection.host Connection.wording Connection.heap (.node 1)
      Connection.machine (.value .null)).outcome =
      .error (.valueError "no copy") := by
    with_unfolding_all rfl
  rintro ⟨verdict, hverdict⟩
  exact nomatch hraises.symm.trans hverdict

end SchemaTree
