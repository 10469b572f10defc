import SchemaTree.Proofs.Agenda
import SchemaTree.Proofs.Copying

/-!
How a finding is reported. A failure of the value carries the name of the rule and the place as they
are, and copies of the rule's parameters and of the value. Making the copies and showing the name is
all that can fail.
-/

namespace SchemaTree

variable {κ : Type} [Inspect κ]

def Host.ParamsCopyable (host : Host κ) : Prop :=
  ∀ o rule, host.rule o = some rule → ∀ v name params,
    Finding.ofAnswer (rule v) = .rejects name params → params.Copyable

def Finding.report (w : Wording κ) (v : Value κ) (p : Position) :
    Finding κ → Except (Fault κ) (Signal κ)
  | .accepts => .ok .pass
  | .rejects name params => (w.failure name params v p).outcome
  | .breaks f => .ok (.fail f)
  | .escapes f => .error f

/-- What was found of `v` cannot be reported: it cannot be told from what was not found, or the copy
of the parameters fails, or that of the value, or the text of the name. -/
inductive Finding.Unreported (v : Value κ) (f : Fault κ) : Finding κ → Prop
  | escapes : Unreported v f (.escapes f)
  | params {name params : Value κ} (h : params.snapshot = .error f) :
      Unreported v f (.rejects name params)
  | value {name params copy : Value κ} (hparams : params.snapshot = .ok copy)
      (h : v.snapshot = .error f) : Unreported v f (.rejects name params)
  | name {name params copy kept : Value κ} (hparams : params.snapshot = .ok copy)
      (hvalue : v.snapshot = .ok kept) (h : name.text = .error f) :
      Unreported v f (.rejects name params)

/-- What was found can be reported of every value that can be copied. -/
def Finding.Reportable : Finding κ → Prop
  | .accepts | .breaks _ => True
  | .rejects name params => (∃ text, name.text = .ok text) ∧ params.Copyable
  | .escapes _ => False

def Host.Reportable (host : Host κ) : Prop :=
  ∀ o rule, host.rule o = some rule → ∀ v, (Finding.ofAnswer (rule v)).Reportable

/-- The error says what failed, with copies of parameters and value, and where. -/
structure ResultError.Reports (e : ResultError κ) (name params v : Value κ) (p : Position) :
    Prop where
  name : e.name = name
  params : params.snapshot = .ok e.params
  value : v.snapshot = .ok e.value
  path : e.path = p.path.map .str
  index : e.index = p.index.map Int.ofNat

namespace Wording

variable (w : Wording κ)

theorem failure_eq (name params v : Value κ) (p : Position) :
    w.failure name params v p = ⟨[], (Finding.rejects name params).report w v p⟩ := by
  apply Run.ext
  · simp only [failure, Run.events_bind, Run.events_of, List.nil_append]
    split <;> rfl
  · rfl

omit w in
theorem elements_list (m : Mark) (xs : List (Value κ)) :
    (Value.list m xs).elements = .ok xs := by
  cases xs <;> rfl

omit w in
theorem textParts_str (names : List String) :
    textParts (names.map .str : List (Value κ)) = .ok names := by
  have hall : (names.map .str : List (Value κ)).mapM Value.text = .ok names := by
    induction names with
    | nil => rfl
    | cons name names ih =>
        rw [List.map_cons, List.mapM_cons, ih]
        rfl
  rw [textParts, hall]
  rfl

omit w in
theorem exists_formatPath (m : Mark) (names : List String) :
    ∃ location, formatPath (.list m (names.map .str) : Value κ) = .ok location := by
  cases names with
  | nil => exact ⟨_, rfl⟩
  | cons name names =>
      refine ⟨".".intercalate (name :: names), ?_⟩
      have hparts := textParts_str (κ := κ) (name :: names)
      rw [List.map_cons] at hparts ⊢
      simp only [formatPath, Value.isTrue, Value.items, bind, Except.bind, hparts]
      rfl

section generic

variable {name params path v : Value κ} {location : String} {f : Fault κ}
  (hpath : formatPath path = .ok location)

include hpath

omit w

theorem genericText_of_text (h : name.text = .error f) :
    genericText name params path v = .error f := by
  unfold genericText
  rw [hpath]
  split
  · exact nomatch h
  · rw [h]
    rfl
  · rw [h]
    rfl

theorem genericText_eq_error_iff :
    genericText name .null path v = .error f ↔ name.text = .error f := by
  refine ⟨fun h => ?_, genericText_of_text hpath⟩
  cases htext : name.text with
  | ok text =>
      unfold genericText at h
      rw [hpath] at h
      split at h
      · exact nomatch h
      · rw [htext] at h
        exact nomatch h
      · exact absurd rfl ‹_›
  | error g => rwa [genericText_of_text hpath htext] at h

end generic

/-- A name that cannot be shown is all that a failure can be left without words for. -/
theorem format_eq_error_iff {name params path v : Value κ} {location : String} {f : Fault κ}
    (hpath : formatPath path = .ok location) :
    w.format name params path v = .error f ↔ name.text = .error f := by
  rw [← genericText_eq_error_iff hpath (v := v)]
  unfold format MessageTable.format
  split
  · rename_i text htext
    refine iff_of_false nofun fun h => ?_
    have hname := (genericText_eq_error_iff hpath).mp h
    -- Such a name is no text, and for what is no text there is only the generic formatter.
    have hformatter : w.table.formatter name = .generic := by
      unfold MessageTable.formatter
      split
      · exact nomatch hname
      · exact w.generic
    rw [hformatter] at htext
    exact nomatch htext.symm.trans (genericText_of_text (v := v) hpath hname)
  · rfl

theorem failure_eq_ok {name params v : Value κ} {p : Position} {signal : Signal κ}
    (h : (w.failure name params v p).outcome = .ok signal) :
    ∃ e, signal = .fail (.result e) ∧ e.Reports name params v p := by
  simp only [failure, Run.outcome_bind, Run.outcome_of] at h
  split at h
  · rename_i e hresult
    obtain ⟨params', hparams, hresult⟩ := bind_eq_ok.mp hresult
    obtain ⟨value, hvalue, hresult⟩ := bind_eq_ok.mp hresult
    obtain ⟨path, hpath, hresult⟩ := bind_eq_ok.mp hresult
    obtain ⟨text, -, hresult⟩ := bind_eq_ok.mp hresult
    rw [elements_list] at hpath
    obtain rfl := Except.ok.inj hpath
    obtain rfl := Except.ok.inj hresult
    refine ⟨_, (Except.ok.inj h).symm, rfl, hparams, hvalue, rfl, ?_⟩
    cases p.index <;> rfl
  · simp at h

/-- A failure is reported with a snapshot of the parameters, taken first, and one of the value, and
with the name in its text. -/
theorem failure_eq_error {name params v : Value κ} {p : Position} {f : Fault κ} :
    (w.failure name params v p).outcome = .error f ↔
      (Finding.rejects name params).Unreported v f := by
  obtain ⟨location, hpath⟩ := exists_formatPath (κ := κ) .fresh p.path
  constructor
  · intro h
    simp only [failure, Run.outcome_bind, Run.outcome_of] at h
    split at h
    · exact nomatch h
    · rename_i g hresult
      obtain rfl : g = f := Except.error.inj h
      rcases bind_eq_error.mp hresult with hparams | ⟨params', hparams, hresult⟩
      · exact .params hparams
      rcases bind_eq_error.mp hresult with hvalue | ⟨value, hvalue, hresult⟩
      · exact .value hparams hvalue
      simp only [elements_list, bind, Except.bind] at hresult
      split at hresult
      · rename_i htext
        obtain rfl := Except.error.inj hresult
        exact .name hparams hvalue ((w.format_eq_error_iff hpath).mp htext)
      · exact nomatch hresult
  · intro h
    unfold failure resultError
    cases h with
    | params hparams => simp [hparams, bind, Except.bind, Run.of]
    | value hparams hvalue => simp [hparams, hvalue, bind, Except.bind, Run.of]
    | @name _ _ params' value hparams hvalue hname =>
        have htext : w.format name params' (.list .fresh (p.path.map .str)) value = .error f :=
          (w.format_eq_error_iff hpath).mpr hname
        simp [hparams, hvalue, elements_list, htext, bind, Except.bind, Run.of]

end Wording

namespace Finding

variable {w : Wording κ} {v : Value κ} {p : Position} {found : Finding κ}

theorem report_ne_stop : found.report w v p ≠ .ok .stop := by
  cases found with
  | rejects name params =>
      intro h
      obtain ⟨e, he, -⟩ := w.failure_eq_ok h
      simp at he
  | _ => simp [report]

theorem report_eq_pass_iff : found.report w v p = .ok .pass ↔ found = .accepts := by
  cases found with
  | rejects name params =>
      simp only [reduceCtorEq, iff_false]
      intro h
      obtain ⟨e, he, -⟩ := w.failure_eq_ok h
      simp at he
  | _ => simp [report]

theorem report_eq_error_iff {f : Fault κ} :
    found.report w v p = .error f ↔ found.Unreported v f := by
  cases found with
  | rejects name params => exact w.failure_eq_error
  | escapes g =>
      constructor
      · intro h
        obtain rfl := Except.error.inj h
        exact .escapes
      · rintro ⟨⟩
        rfl
  | _ => exact iff_of_false nofun nofun

/-- What cannot be reported of one value that can be copied, cannot be of another. -/
theorem Unreported.of_copyable {v v' : Value κ} {f : Fault κ} (h : found.Unreported v f)
    (hv : v.Copyable) (hv' : v'.Copyable) : found.Unreported v' f := by
  obtain ⟨value, hvalue⟩ := hv
  obtain ⟨value', hvalue'⟩ := hv'
  cases h with
  | escapes => exact .escapes
  | params hparams => exact .params hparams
  | value _ hfails => exact nomatch (Value.snapshot_of_deepCopy hvalue).symm.trans hfails
  | name hparams _ hname => exact .name hparams (Value.snapshot_of_deepCopy hvalue') hname

theorem report_of_copyable {v v' : Value κ} (hv : v.Copyable) (hv' : v'.Copyable) :
    found.report w v p = found.report w v' p ∨
      ∃ name params e e', found.report w v p = .ok (.fail (.result e)) ∧
        found.report w v' p = .ok (.fail (.result e')) ∧
        e.Reports name params v p ∧ e'.Reports name params v' p := by
  cases hreport : found.report w v p with
  | error f =>
      have hunreported := (report_eq_error_iff.mp hreport).of_copyable hv hv'
      exact .inl (report_eq_error_iff.mpr hunreported).symm
  | ok signal =>
      cases hreport' : found.report w v' p with
      | error f =>
          have hunreported := (report_eq_error_iff.mp hreport').of_copyable hv' hv
          exact nomatch hreport.symm.trans (report_eq_error_iff.mpr hunreported)
      | ok signal' =>
          cases found with
          | rejects name params =>
              obtain ⟨e, rfl, he⟩ := w.failure_eq_ok hreport
              obtain ⟨e', rfl, he'⟩ := w.failure_eq_ok hreport'
              exact .inr ⟨name, params, e, e', rfl, rfl, he, he'⟩
          | escapes f => exact nomatch hreport
          | _ => exact .inl (hreport.symm.trans hreport')

theorem Reportable.not_unreported (h : found.Reportable) (hv : v.Copyable) (f : Fault κ) :
    ¬ found.Unreported v f := by
  obtain ⟨value, hvalue⟩ := hv
  rintro ⟨⟩
  · exact h
  · rename_i hparams
    obtain ⟨-, params', hcopy⟩ := h
    exact nomatch (Value.snapshot_of_deepCopy hcopy).symm.trans hparams
  · rename_i hfails
    exact nomatch (Value.snapshot_of_deepCopy hvalue).symm.trans hfails
  · rename_i hname
    obtain ⟨⟨text, htext⟩, -⟩ := h
    exact nomatch htext.symm.trans hname

end Finding

end SchemaTree
