import SchemaTree.Proofs.Conformance
import SchemaTree.Proofs.FieldRecords

/-!
Excess keys removed. A value is pruned along a schema, by which each mapping that fields are looked
up in loses the keys that no field has. A check that ignores such keys finds of a value what a check
that does not finds of the pruned one.
-/

namespace SchemaTree

variable {κ : Type} [Inspect κ]

/-- Keeps the entries whose keys are names for which `keep` has a value, with that value. -/
def Entries.keepNamed (keep : String → Value κ → Option (Value κ)) (es : Entries κ) : Entries κ :=
  es.filterMap fun e => e.1.asText.bind fun name => (keep name e.2).map fun v => (e.1, v)

section keepNamed

variable {keep : String → Value κ → Option (Value κ)}

theorem Entries.mem_keepNamed {es : Entries κ} {e : Value κ × Value κ}
    (he : e ∈ es.keepNamed keep) :
    ∃ k name v w, (k, v) ∈ es ∧ k.asText = some name ∧ keep name v = some w ∧ e = (k, w) := by
  obtain ⟨⟨k, v⟩, hmem, hkept⟩ := List.mem_filterMap.mp he
  obtain ⟨name, hname, hkept⟩ := Option.bind_eq_some_iff.mp hkept
  obtain ⟨w, hw, rfl⟩ := Option.map_eq_some_iff.mp hkept
  exact ⟨k, name, v, w, hmem, hname, hw, rfl⟩

theorem Entries.get?_keepNamed {name : String} {g : Value κ → Value κ}
    (hkeep : ∀ v, keep name v = some (g v)) (es : Entries κ) :
    get? (.str name) (es.keepNamed keep) = (get? (.str name) es).map g := by
  induction es with
  | nil => rfl
  | cons e es ih =>
      obtain ⟨k, v⟩ := e
      simp only [keepNamed, List.filterMap_cons, get?, List.find?_cons] at ih ⊢
      by_cases hk : (Value.str name).agrees k = true
      · simp [Value.str_agrees_iff.mp hk, hkeep, hk]
      · rw [Bool.not_eq_true] at hk
        rw [hk]
        split
        · exact ih
        · rename_i entry hentry
          obtain ⟨other, -, hentry⟩ := Option.bind_eq_some_iff.mp hentry
          obtain ⟨w, -, rfl⟩ := Option.map_eq_some_iff.mp hentry
          rw [List.find?_cons, hk]
          exact ih

end keepNamed

namespace Value

omit [Inspect κ]

/-- Changes each item of an array. Nothing else has items. -/
def mapItems (f : Value κ → Value κ) : Value κ → Value κ
  | .list m xs => .list m (xs.map f)
  | .tuple m xs => .tuple m (xs.map f)
  | v => v

def mapEntries (f : Entries κ → Entries κ) : Value κ → Value κ
  | .mapping m es => .mapping m (f es)
  | v => v

end Value

namespace Tree

mutual

/-- A value without the keys that no field has, at every node with fields: in the value itself or,
at an array, in its items. Nothing else changes. -/
def prune : Tree κ → Value κ → Value κ
  | .node _ _ _ _ _ none, v => v
  | .node _ _ array _ _ (some fs), v =>
    let prunePart (x : Value κ) : Value κ :=
      x.mapEntries (Entries.keepNamed fun name w => pruneField fs name w)
    if array == some true then v.mapItems prunePart else prunePart v

def pruneField : List (String × Tree κ) → String → Value κ → Option (Value κ)
  | [], _, _ => none
  | (label, t) :: fs, name, v => if name = label then some (t.prune v) else pruneField fs name v

end

/-- A value in which the fields of a tree are looked up, without the keys that no field has. -/
def prunePart (t : Tree κ) (x : Value κ) : Value κ :=
  x.mapEntries (Entries.keepNamed (pruneField t.fieldList))

theorem prune_of_noFields {t : Tree κ} (ht : t.fields = none) (v : Value κ) : t.prune v = v := by
  obtain ⟨registry, required, array, strict, rules, fields⟩ := t
  obtain rfl : fields = none := ht
  rw [prune]

theorem prune_of_fields {t : Tree κ} {fs : List (String × Tree κ)} (ht : t.fields = some fs)
    (v : Value κ) : t.prune v = if t.isArray then v.mapItems t.prunePart else t.prunePart v := by
  obtain ⟨registry, required, array, strict, rules, fields⟩ := t
  obtain rfl : fields = some fs := ht
  rw [prune]
  rfl

theorem pruneField_of_mem {fs : List (String × Tree κ)} (hfs : (fs.map (·.1)).Nodup)
    {f : String × Tree κ} (hf : f ∈ fs) (v : Value κ) :
    pruneField fs f.1 v = some (f.2.prune v) := by
  induction fs with
  | nil => exact nomatch hf
  | cons g fs ih =>
      obtain ⟨hnew, hfs⟩ := List.nodup_cons.mp hfs
      rw [pruneField]
      rcases List.mem_cons.mp hf with rfl | hf
      · exact if_pos rfl
      · rw [if_neg, ih hfs hf]
        intro hsame
        have hmem : f.1 ∈ fs.map (·.1) := List.mem_map_of_mem hf
        rw [hsame] at hmem
        exact hnew hmem

theorem exists_of_pruneField {fs : List (String × Tree κ)} {name : String} {v w : Value κ}
    (h : pruneField fs name v = some w) : ∃ f ∈ fs, f.1 = name ∧ w = f.2.prune v := by
  induction fs with
  | nil => exact nomatch h
  | cons g fs ih =>
      rw [pruneField] at h
      split at h
      · rename_i hname
        exact ⟨g, by simp, hname.symm, (Option.some.inj h).symm⟩
      · obtain ⟨f, hf, hname, hw⟩ := ih h
        exact ⟨f, by simp [hf], hname, hw⟩

@[simp] theorem isMapping_prunePart (t : Tree κ) (x : Value κ) :
    (t.prunePart x).isMapping = x.isMapping := by
  cases x <;> rfl

theorem keys_prunePart {t : Tree κ} {x key : Value κ} (hkey : key ∈ (t.prunePart x).keys) :
    ∃ name ∈ t.names, key.asText = some name := by
  cases x with
  | mapping m es =>
      obtain ⟨e, he, rfl⟩ := List.mem_map.mp hkey
      obtain ⟨k, name, v, w, -, hname, hw, rfl⟩ := Entries.mem_keepNamed he
      obtain ⟨f, hf, rfl, -⟩ := exists_of_pruneField hw
      exact ⟨f.1, List.mem_map_of_mem hf, hname⟩
  | _ => exact nomatch hkey

@[simp] theorem isMissing_prunePart (t : Tree κ) (x : Value κ) :
    (t.prunePart x).isMissing = x.isMissing := by
  cases x <;> rfl

@[simp] theorem isArray_prunePart (t : Tree κ) (x : Value κ) :
    (t.prunePart x).isArray = x.isArray := by
  cases x <;> rfl

theorem isMissing_prune (t : Tree κ) (v : Value κ) : (t.prune v).isMissing = v.isMissing := by
  cases hfields : t.fields with
  | none => rw [prune_of_noFields hfields]
  | some fs =>
      rw [prune_of_fields hfields]
      split
      · cases v <;> rfl
      · exact t.isMissing_prunePart v

theorem prune_missing (t : Tree κ) : t.prune .missing = .missing :=
  Value.isMissing_iff.mp (t.isMissing_prune .missing)

theorem under_prunePart {t : Tree κ} (ht : t.names.Nodup) (x : Value κ) {f : String × Tree κ}
    (hf : f ∈ t.fieldList) : (t.prunePart x).under f.1 = f.2.prune (x.under f.1) := by
  cases x with
  | mapping m es =>
      have hfield : ∀ v, pruneField t.fieldList f.1 v = some (f.2.prune v) :=
        pruneField_of_mem ht hf
      simp only [prunePart, Value.mapEntries, Value.under, Entries.get?_keepNamed hfield]
      cases Entries.get? (.str f.1) es with
      | none => exact f.2.prune_missing.symm
      | some v => rfl
  | _ => exact f.2.prune_missing.symm

theorem isArray_prune (t : Tree κ) (v : Value κ) : (t.prune v).isArray = v.isArray := by
  cases hfields : t.fields with
  | none => rw [prune_of_noFields hfields]
  | some fs =>
      rw [prune_of_fields hfields]
      split
      · cases v <;> rfl
      · exact t.isArray_prunePart v

theorem parts_prune (t : Tree κ) (v : Value κ) (p : Position) :
    t.parts (t.prune v) p = (t.parts v p).map fun x => (t.prunePart x.1, x.2) := by
  have hindexed : ∀ (start : Nat) (xs : List (Value κ)), indexed start (xs.map t.prunePart) =
      (indexed start xs).map fun e => (e.1, t.prunePart e.2) := by
    intro start xs
    induction xs generalizing start with
    | nil => rfl
    | cons x xs ih => rw [List.map_cons, indexed, indexed, List.map_cons, ih]
  cases hfields : t.fields with
  | none => simp [parts, hfields]
  | some fs =>
      rw [prune_of_fields hfields]
      cases harray : t.isArray with
      | false => simp [parts, hfields, harray]
      | true =>
          have hitems : (v.mapItems t.prunePart).arrayItems = v.arrayItems.map t.prunePart := by
            cases v <;> rfl
          simp [parts, hfields, harray, hitems, hindexed]

end Tree

namespace Value

theorem exists_deepCopyAll_iff {xs : List (Value κ)} :
    (∃ copies, deepCopyAll xs = .ok copies) ↔ ∀ x ∈ xs, x.Copyable := by
  refine ⟨fun ⟨copies, hcopies⟩ x hx => copyable_of_mem hcopies hx, fun hxs => ?_⟩
  induction xs with
  | nil => exact ⟨[], rfl⟩
  | cons x xs ih =>
      obtain ⟨copy, hcopy⟩ := hxs x (by simp)
      obtain ⟨rest, hrest⟩ := ih fun y hy => hxs y (by simp [hy])
      exact ⟨_, deepCopyAll_cons.mpr ⟨copy, rest, hcopy, hrest, rfl⟩⟩

theorem exists_deepCopyEntries_iff {es : Entries κ} :
    (∃ copies, deepCopyEntries es = .ok copies) ↔ ∀ e ∈ es, e.2.Copyable ∧ e.1.Copyable := by
  induction es with
  | nil => simp [deepCopyEntries, pure, Except.pure]
  | cons e es ih =>
      obtain ⟨k, v⟩ := e
      rw [List.forall_mem_cons, ← ih]
      constructor
      · rintro ⟨copies, hcopies⟩
        obtain ⟨value, key, rest, hv, hk, hes, -⟩ := deepCopyEntries_cons.mp hcopies
        exact ⟨⟨⟨value, hv⟩, key, hk⟩, rest, hes⟩
      · rintro ⟨⟨⟨value, hv⟩, key, hk⟩, rest, hes⟩
        exact ⟨_, deepCopyEntries_cons.mpr ⟨value, key, rest, hv, hk, hes, rfl⟩⟩

theorem Copyable.mapItems {v : Value κ} (hv : v.Copyable) {f : Value κ → Value κ}
    (hf : ∀ x, x.Copyable → (f x).Copyable) : (v.mapItems f).Copyable := by
  have hitems : ∀ x ∈ v.arrayItems.map f, x.Copyable := by
    intro y hy
    obtain ⟨x, hx, rfl⟩ := List.mem_map.mp hy
    exact hf x (hv.arrayItems hx)
  cases v with
  | list m xs | tuple m xs =>
      obtain ⟨copies, hcopies⟩ := exists_deepCopyAll_iff.mpr hitems
      exact ⟨_, bind_eq_ok.mpr ⟨copies, hcopies, rfl⟩⟩
  | _ => exact hv

theorem Copyable.keepNamed {v : Value κ} (hv : v.Copyable)
    {keep : String → Value κ → Option (Value κ)}
    (hkeep : ∀ name x y, keep name x = some y → x.Copyable → y.Copyable) :
    (v.mapEntries (Entries.keepNamed keep)).Copyable := by
  cases v with
  | mapping m es =>
      obtain ⟨copy, hcopy⟩ := hv
      obtain ⟨copies, hes, -⟩ := bind_eq_ok.mp hcopy
      have hentries := exists_deepCopyEntries_iff.mp ⟨copies, hes⟩
      have hkept : ∀ e ∈ Entries.keepNamed keep es, e.2.Copyable ∧ e.1.Copyable := by
        intro e he
        obtain ⟨k, name, x, y, hmem, -, hy, rfl⟩ := Entries.mem_keepNamed he
        exact ⟨hkeep name x y hy (hentries _ hmem).1, (hentries _ hmem).2⟩
      obtain ⟨kept, hkept⟩ := exists_deepCopyEntries_iff.mpr hkept
      exact ⟨_, bind_eq_ok.mpr ⟨kept, hkept, rfl⟩⟩
  | _ => exact hv

end Value

theorem Tree.copyable_prune (t : Tree κ) {v : Value κ} (hv : v.Copyable) :
    (t.prune v).Copyable := by
  induction t using induction_on_fields generalizing v with
  | step t ih =>
      have hpart : ∀ x : Value κ, x.Copyable → (t.prunePart x).Copyable := by
        refine fun x hx => hx.keepNamed fun name y z hz hy => ?_
        obtain ⟨f, hf, -, rfl⟩ := exists_of_pruneField hz
        exact ih f hf hy
      cases hfields : t.fields with
      | none => rwa [prune_of_noFields hfields]
      | some fs =>
          rw [prune_of_fields hfields]
          split
          · exact hv.mapItems hpart
          · exact hpart v hv

/-- What a node's rules find of a value does not depend on keys that no field has. -/
def Tree.RulesIgnoreExcess (host : Host κ) (t : Tree κ) : Prop :=
  ∀ r ∈ t.rules.getD [], ∀ v, Finding.ofAnswer (callRule host r (t.prune v)).outcome =
    Finding.ofAnswer (callRule host r v).outcome

theorem Tree.rulesIgnoreExcess_of_noFields {host : Host κ} {t : Tree κ} (ht : t.fields = none) :
    t.RulesIgnoreExcess host := by
  intro r _ v
  rw [prune_of_noFields ht]

/-- The tests are at one place and find the same, each with its own switch for excess keys. That can
be told from what is not found, unless it is a rule's. -/
structure Probe.FoundAlike (host : Host κ) (ignoring ignoring' : Value κ) (x y : Probe κ) :
    Prop where
  place : y.place = x.place
  finding : y.finding host ignoring' = x.finding host ignoring
  returns : x.test.isBuiltIn = true → ∀ f, x.finding host ignoring ≠ .escapes f

omit [Inspect κ] in
theorem forall₂_flatMap {α β γ : Type} {R : β → γ → Prop} {xs : List α} {f : α → List β}
    {g : α → List γ} (h : ∀ x ∈ xs, List.Forall₂ R (f x) (g x)) :
    List.Forall₂ R (xs.flatMap f) (xs.flatMap g) := by
  induction xs with
  | nil => exact .nil
  | cons x xs ih =>
      rw [List.flatMap_cons, List.flatMap_cons]
      exact List.rel_append (h x (by simp)) (ih fun y hy => h y (by simp [hy]))

namespace Tree

variable {host : Host κ} {ignoring ignoring' : Value κ}

/-- The excess keys of a part are ignored, and its pruned counterpart has none. -/
theorem partProbes_prune (hignore : ignoring.isTrue = .ok true)
    (hkeep : ignoring'.isTrue = .ok false) {t : Tree κ} (hstrict : t.strict = false)
    (x : Value κ × Position) :
    List.Forall₂ (Probe.FoundAlike host ignoring ignoring') (t.partProbes x)
      (t.partProbes (t.prunePart x.1, x.2)) := by
  refine .cons ⟨rfl, ?_, fun _ f => ?_⟩ (.cons ?_ .nil)
  · simp only [Probe.finding, Test.finding, isMapping_prunePart]
  · simp only [Probe.finding, Test.finding]
    split <;> simp
  have hignored : (Test.excess t.strict t.names).finding host ignoring x.1 = .accepts := by
    simp [Test.finding, hignore, hstrict]
  have hdeclared : Finding.ofKeys t.names (t.prunePart x.1).keys = .accepts :=
    Finding.ofKeys_accepts_iff.mpr fun key hkey => keys_prunePart hkey
  refine ⟨rfl, ?_, fun _ f => ?_⟩
  · simp only [Probe.finding, hignored]
    simp [Test.finding, hkeep, hdeclared]
  · simp [Probe.finding, hignored]

/-- What the checks find of a value where excess keys are ignored, they find of the pruned value
where they are not. -/
theorem agenda_prune (hignore : ignoring.isTrue = .ok true) (hkeep : ignoring'.isTrue = .ok false)
    {t : Tree κ} (hstrict : t.Each fun u => u.strict = false)
    (hnames : t.Each fun u => u.names.Nodup) (hrules : t.Each (RulesIgnoreExcess host))
    (v : Value κ) (p : Position) :
    List.Forall₂ (Probe.FoundAlike host ignoring ignoring') (t.agenda Test.ofRules v p)
      (t.agenda Test.ofRules (t.prune v) p) := by
  induction t using induction_on_fields generalizing v p with
  | step t ih =>
      rw [agenda_eq, agenda_eq, isMissing_prune]
      refine .cons ⟨rfl, ?_, fun _ f => ?_⟩ ?_
      · simp only [Probe.finding, Test.finding, isMissing_prune]
      · simp only [Probe.finding, Test.finding]
        split <;> simp
      split
      · exact .nil
      refine .cons ⟨rfl, ?_, fun _ f => ?_⟩ (List.rel_append ?_ ?_)
      · simp only [Probe.finding, Test.finding, isArray_prune]
      · simp only [Probe.finding, Test.finding]
        split <;> simp
      · rw [List.forall₂_map_left_iff, List.forall₂_map_right_iff]
        refine List.forall₂_same.mpr fun test htest => ?_
        obtain ⟨r, hr, rfl⟩ := List.mem_map.mp htest
        exact ⟨rfl, hrules.root r hr v, fun hbuiltIn => absurd hbuiltIn Bool.false_ne_true⟩
      rw [parts_prune, List.flatMap_map]
      refine forall₂_flatMap fun x _ => List.rel_append ?_ (forall₂_flatMap fun f hf => ?_)
      · exact partProbes_prune hignore hkeep hstrict.root x
      · rw [under_prunePart hnames.root x.1 hf]
        exact ih f hf (hstrict.field hf) (hnames.field hf) (hrules.field hf) _ _

end Tree

structure ResultError.SameFailure (e e' : ResultError κ) : Prop where
  name : e'.name = e.name
  params : e'.params = e.params
  path : e'.path = e.path
  index : e'.index = e.index

/-- The verdicts differ at most in the value that a failure is told with. -/
structure Verdict.AgreesWith (a b : Verdict κ) : Prop where
  error : b.error = a.error
  valid : b.valid = a.valid
  resultError : Option.Rel ResultError.SameFailure a.resultError b.resultError

omit [Inspect κ] in
theorem Verdict.agreesWith_refl (a : Verdict κ) : a.AgreesWith a := by
  refine ⟨rfl, rfl, ?_⟩
  cases a.resultError with
  | none => exact .none
  | some e => exact .some ⟨rfl, rfl, rfl, rfl⟩

theorem Setting.performAll_foundAlike {s : Setting κ} {o : Options κ} {xs ys : List (Probe κ)}
    (hall : List.Forall₂ (Probe.FoundAlike s.host s.options.ignoreExcess o.ignoreExcess) xs ys)
    (hxs : ∀ x ∈ xs, x.value.Copyable) (hys : ∀ y ∈ ys, y.value.Copyable) :
    ReturnsAlike (fun a b => (Verdict.ofSignal a).AgreesWith (.ofSignal b))
      (s.performAll xs).outcome (performAll { s with options := o } ys).outcome := by
  induction hall with
  | nil => exact .returns (Verdict.agreesWith_refl _)
  | @cons x y xs ys hxy _ ih =>
      by_cases haccepts : x.finding s.host s.options.ignoreExcess = .accepts
      · rw [performAll_cons_of_accepts haccepts,
          performAll_cons_of_accepts (s := { s with options := o }) (hxy.finding.trans haccepts)]
        exact ih (fun z hz => hxs z (by simp [hz])) fun z hz => hys z (by simp [hz])
      · rw [performAll_cons_of_ne haccepts,
          performAll_cons_of_ne (s := { s with options := o })
            fun h => haccepts (hxy.finding.symm.trans h)]
        simp only [perform, hxy.finding, hxy.place]
        rcases Finding.report_of_copyable (hxs x (by simp)) (hys y (by simp)) with
          heq | ⟨name, params, e, e', hx, hy, he, he'⟩
        · rw [heq]
          exact .of_refl (fun a => (Verdict.ofSignal a).agreesWith_refl) _
        · rw [hx, hy]
          exact .returns ⟨rfl, rfl, .some ⟨he'.name.trans he.name.symm,
            Except.ok.inj (he'.params.symm.trans he.params), he'.path.trans he.path.symm,
            he'.index.trans he.index.symm⟩⟩

omit [Inspect κ] in
theorem Heap.Holds.each_names_nodup {h : Heap κ} {n : NodeId} {t : Tree κ} (hn : h.Holds n t)
    (hh : h.Regular) : t.Each fun u => u.names.Nodup := by
  induction t using Tree.induction_on_fields generalizing n with
  | step t ih =>
      have hhere := Heap.holds_iff.mp hn
      refine ⟨hhere.names ▸ (hh n).distinct, fun f hf => ?_⟩
      obtain ⟨m, hm⟩ := hhere.exists_field hf
      exact ih f hf hm

/-- To ignore the keys that no field has is to remove them: where no node is strict and no rule
looks at such keys, both checks have the same verdict, but for the value that a failure is told
with, or the same fault comes out of both. Verdicts come out wherever what rules find can be
reported. -/
theorem verify_prune {host : Host κ} {wording : Wording κ} {heap : Heap κ} {n : NodeId}
    {t : Tree κ} {v : Value κ} {ignoring keeping : OptionsArg κ} {o o' : Options κ}
    (hn : heap.Holds n t) (hheap : heap.Regular) (hstrict : t.Each fun u => u.strict = false)
    (ho : ignoring.resolve = .ok o) (ho' : keeping.resolve = .ok o')
    (hmapper : o.validator = .null) (hmapper' : o'.validator = .null)
    (hignore : o.ignoreExcess.isTrue = .ok true) (hkeep : o'.ignoreExcess.isTrue = .ok false)
    (hcopy : v.Copyable) (hrules : t.Each (Tree.RulesIgnoreExcess host)) :
    ReturnsAlike Verdict.AgreesWith (verify host wording heap (.node n) v ignoring).outcome
      (verify host wording heap (.node n) (t.prune v) keeping).outcome ∧
    (host.Reportable → ∃ a b : Verdict κ,
      (verify host wording heap (.node n) v ignoring).outcome = .ok a ∧
      (verify host wording heap (.node n) (t.prune v) keeping).outcome = .ok b ∧
      a.AgreesWith b) := by
  have hall := Tree.agenda_prune hignore hkeep hstrict (hn.each_names_nodup hheap) hrules v {}
  have hcopies : ∀ w : Value κ, w.Copyable → ∀ x ∈ t.agenda Test.ofRules w {}, x.value.Copyable :=
    fun w hw x hx => t.agenda_values Value.Copyable.arrayItems Value.Copyable.under hw hx
  have halike : ReturnsAlike Verdict.AgreesWith
      (verify host wording heap (.node n) v ignoring).outcome
      (verify host wording heap (.node n) (t.prune v) keeping).outcome := by
    rw [verify_eq rfl hn ho, verify_eq rfl hn ho', Setting.tests_of_null hmapper,
      Setting.tests_of_null hmapper']
    exact ReturnsAlike.verdicts (Setting.performAll_foundAlike hall (hcopies v hcopy)
      (hcopies _ (t.copyable_prune hcopy)))
  refine ⟨halike, fun hhost => ?_⟩
  have hreported : ∀ x ∈ t.agenda Test.ofRules v {}, ∀ f,
      ¬ (x.finding host o.ignoreExcess).Unreported x.value f := by
    intro x hx
    obtain ⟨y, -, hxy⟩ := exists_right_of_mem hall hx
    have hreportable : (x.finding host o.ignoreExcess).Reportable :=
      Test.reportable hhost (Tree.agenda_ne_mapper hx) hxy.returns
    exact hreportable.not_unreported (hcopies v hcopy x hx)
  obtain ⟨a, ha⟩ := exists_verdict_of_reported wording hn ho hmapper hreported
  rw [ha] at halike ⊢
  generalize (verify host wording heap (.node n) (t.prune v) keeping).outcome = outcome at halike
  cases halike with
  | @returns _ b hagrees => exact ⟨a, b, rfl, rfl, hagrees⟩

namespace OrderFunction

def openCount : Tree OrderFunction :=
  .node Heap.defaultRegistry true none false (some [.object .positive]) none

def openItems : Tree OrderFunction :=
  .node Heap.defaultRegistry true (some true) false none (some [("count", openCount)])

def openOrder : Tree OrderFunction :=
  .node Heap.defaultRegistry true none false none (some [("items", openItems)])

theorem openOrder_each {P : Tree OrderFunction → Prop} (hcount : P openCount)
    (hitems : P openItems) (horder : P openOrder) : openOrder.Each P := by
  refine ⟨horder, fun f hf => ?_⟩
  obtain rfl := List.mem_singleton.mp hf
  refine ⟨hitems, fun f hf => ?_⟩
  obtain rfl := List.mem_singleton.mp hf
  exact ⟨hcount, nofun⟩

def openHeap : Heap OrderFunction where
  nodes := [
    { registry := Heap.defaultRegistry, rules := some [.object .positive] },
    { registry := Heap.defaultRegistry, array := some true, fields := some [("count", 0)] },
    { registry := Heap.defaultRegistry, fields := some [("items", 1)] }]

theorem openHeap_holds : openHeap.Holds 2 openOrder := by
  simp [openHeap, openOrder, openItems, openCount, Heap.Holds, Heap.HoldsRecord, Heap.HoldsAll,
    Heap.node]

theorem openHeap_regular : openHeap.Regular := by
  intro n
  match n with
  | 0 | 1 | 2 | _ + 3 => exact ⟨by simp [openHeap, Heap.node], fun _ => rfl⟩

def giftOrder : Value OrderFunction :=
  .mapping .fresh [
    (.str "gift", .bool true),
    (.str "items", .list .fresh [
      .mapping .fresh [(.str "count", .int 2), (.str "name", .str "pen")],
      .mapping .fresh [(.str "name", .str "pencil"), (.str "count", .int 0)]])]

end OrderFunction

/-- The gift and the names are removed from the order, and its second count is refused as before. -/
theorem gift_order_pruned :
    OrderFunction.openOrder.prune OrderFunction.giftOrder = OrderFunction.ofCounts [2, 0] ∧
      ∃ a b, (verify OrderFunction.host OrderFunction.wording OrderFunction.openHeap (.node 2)
          OrderFunction.giftOrder (.options { ignoreExcess := .bool true })).outcome = .ok a ∧
        (verify OrderFunction.host OrderFunction.wording OrderFunction.openHeap (.node 2)
          (OrderFunction.openOrder.prune OrderFunction.giftOrder) (.options {})).outcome = .ok b ∧
        a.AgreesWith b := by
  refine ⟨by with_unfolding_all rfl, ?_⟩
  obtain ⟨-, hverdicts⟩ := verify_prune OrderFunction.openHeap_holds OrderFunction.openHeap_regular
    (OrderFunction.openOrder_each rfl rfl rfl)
    (rfl : (OptionsArg.options { ignoreExcess := .bool true }).resolve = _)
    (rfl : (OptionsArg.options {}).resolve = _) rfl rfl rfl rfl
    OrderFunction.giftOrder.copyable_of_ownCopies
    (OrderFunction.openOrder_each (Tree.rulesIgnoreExcess_of_noFields rfl) nofun nofun)
  exact hverdicts OrderFunction.host_reportable

end SchemaTree
