import Mathlib.Data.List.Sort
import SchemaTree.Proofs.BrokenRules
import SchemaTree.Proofs.Conformance
import SchemaTree.Proofs.KeyOrder

/-!
What order has to do with a verdict. The order of the keys in a value has nothing to do with it. In
another order of the fields of a schema the same checks are made in another order, so that another
failure may come first, but a valid value stays valid and no other one becomes so.
-/

namespace SchemaTree

variable {κ : Type}

/-- The members of the one list stand in the other one, as `R` tells, in any order. -/
def Rearranged {α β : Type} (R : α → β → Prop) (xs : List α) (ys : List β) : Prop :=
  ∃ zs, List.Forall₂ R xs zs ∧ zs.Perm ys

namespace Rearranged

variable {α β γ δ : Type} {R : α → β → Prop} {S : γ → δ → Prop} {xs xs' : List α} {ys ys' : List β}

theorem of_forall₂ (h : List.Forall₂ R xs ys) : Rearranged R xs ys := ⟨ys, h, .refl ys⟩

theorem cons {x : α} {y : β} (hxy : R x y) (h : Rearranged R xs ys) :
    Rearranged R (x :: xs) (y :: ys) := by
  obtain ⟨zs, hall, hperm⟩ := h
  exact ⟨y :: zs, .cons hxy hall, hperm.cons y⟩

theorem append (h : Rearranged R xs ys) (h' : Rearranged R xs' ys') :
    Rearranged R (xs ++ xs') (ys ++ ys') := by
  obtain ⟨zs, hall, hperm⟩ := h
  obtain ⟨zs', hall', hperm'⟩ := h'
  exact ⟨zs ++ zs', List.rel_append hall hall', hperm.append hperm'⟩

theorem flatMap {as : List γ} {bs : List δ} {f : γ → List α} {g : δ → List β}
    (h : Rearranged S as bs) (hfg : ∀ a ∈ as, ∀ b, S a b → Rearranged R (f a) (g b)) :
    Rearranged R (as.flatMap f) (bs.flatMap g) := by
  obtain ⟨cs, hall, hperm⟩ := h
  have hflat : Rearranged R (as.flatMap f) (cs.flatMap g) := by
    clear hperm
    induction hall with
    | nil => exact of_forall₂ .nil
    | cons hab _ ih =>
        rw [List.flatMap_cons, List.flatMap_cons]
        exact (hfg _ (by simp) _ hab).append (ih fun a ha => hfg a (by simp [ha]))
  obtain ⟨zs, hzs, hperm'⟩ := hflat
  exact ⟨zs, hzs, hperm'.trans (hperm.flatMap_right g)⟩

theorem exists_right (h : Rearranged R xs ys) {x : α} (hx : x ∈ xs) : ∃ y ∈ ys, R x y := by
  obtain ⟨zs, hall, hperm⟩ := h
  obtain ⟨y, hy, hxy⟩ := exists_right_of_mem hall hx
  exact ⟨y, hperm.mem_iff.mp hy, hxy⟩

theorem exists_left (h : Rearranged R xs ys) {y : β} (hy : y ∈ ys) : ∃ x ∈ xs, R x y := by
  obtain ⟨zs, hall, hperm⟩ := h
  exact exists_left_of_mem hall (hperm.mem_iff.mpr hy)

end Rearranged

structure Probe.Reordered (x y : Probe κ) : Prop where
  test : y.test = x.test
  place : y.place = x.place
  value : x.value.Reordered y.value

/-- The same schema with the fields of its nodes declared in another order. -/
inductive Tree.Reordered : Tree κ → Tree κ → Prop
  | intro {t u : Tree κ} {fs : List (String × Tree κ)} (hrequired : u.required = t.required)
    (harray : u.array = t.array) (hstrict : u.strict = t.strict) (hrules : u.rules = t.rules)
    (hfields : u.fields.isNone = t.fields.isNone)
    (hnames : fs.map (·.1) = t.fieldList.map (·.1))
    (htrees : List.Forall₂ Reordered (t.fieldList.map (·.2)) (fs.map (·.2)))
    (horder : fs.Perm u.fieldList) : Reordered t u

inductive Test.Counterpart : Test κ → Test κ → Prop
  | same (test : Test κ) : Counterpart test test
  | excess {strict : Bool} {names names' : List String} (hnames : names.Perm names') :
    Counterpart (.excess strict names) (.excess strict names')

theorem Test.Counterpart.exists_excess {strict : Bool} {names : List String} {test : Test κ}
    (h : (Test.excess strict names).Counterpart test) :
    ∃ names', test = .excess strict names' ∧ names.Perm names' := by
  cases h with
  | same => exact ⟨names, rfl, .refl names⟩
  | excess hnames => exact ⟨_, rfl, hnames⟩

structure Probe.Counterpart (x y : Probe κ) : Prop where
  test : x.test.Counterpart y.test
  value : y.value = x.value
  place : y.place = x.place

theorem sortedNames_perm {names names' : List String} (h : names.Perm names') :
    sortedNames names = sortedNames names' := by
  have hperm : (sortedNames names).Perm (sortedNames names') :=
    (List.mergeSort_perm names _).trans (h.trans (List.mergeSort_perm names' _).symm)
  exact hperm.eq_of_pairwise' (List.pairwise_mergeSort' (· ≤ ·) names)
    (List.pairwise_mergeSort' (· ≤ ·) names')

theorem forall₂_indexed {α β : Type} {R : α → β → Prop} {xs : List α} {ys : List β}
    (h : List.Forall₂ R xs ys) (start : Nat) :
    List.Forall₂ (fun x y => y.1 = x.1 ∧ R x.2 y.2) (indexed start xs) (indexed start ys) := by
  induction h generalizing start with
  | nil => exact .nil
  | cons hxy _ ih => exact .cons ⟨rfl, hxy⟩ (ih (start + 1))

variable [Inspect κ]

namespace Tree

variable {tests : Option (List (Value κ)) → List (Test κ)}

omit [Inspect κ] in
theorem parts_reordered (t : Tree κ) {v w : Value κ} (h : v.Reordered w) (p : Position) :
    List.Forall₂ (fun x y => y.2 = x.2 ∧ x.1.Reordered y.1) (t.parts v p) (t.parts w p) := by
  unfold parts
  split
  · exact .nil
  · split
    · rw [List.forall₂_map_left_iff, List.forall₂_map_right_iff]
      refine (forall₂_indexed h.arrayItems 0).imp fun x y hxy => ⟨?_, hxy.2⟩
      rw [hxy.1]
    · exact .cons ⟨rfl, h⟩ .nil

/-- The checks of a value with its keys in another order are the same in the same order. -/
theorem agenda_reordered_value (t : Tree κ) {v w : Value κ} (h : v.Reordered w)
    (hv : v.KeysUnique) (p : Position) :
    List.Forall₂ Probe.Reordered (t.agenda tests v p) (t.agenda tests w p) := by
  induction t using induction_on_fields generalizing v w p with
  | step t ih =>
      rw [agenda_eq, agenda_eq, h.isMissing_eq]
      refine .cons ⟨rfl, rfl, h⟩ ?_
      split
      · exact .nil
      refine .cons ⟨rfl, rfl, h⟩ (List.rel_append ?_ ?_)
      · rw [List.forall₂_map_left_iff, List.forall₂_map_right_iff]
        exact List.forall₂_same.mpr fun test _ => ⟨rfl, rfl, h⟩
      have hparts : List.Forall₂ (fun x y => x.1.KeysUnique ∧ y.2 = x.2 ∧ x.1.Reordered y.1)
          (t.parts v p) (t.parts w p) := by
        refine (List.forall₂_and_left _ _).mpr ⟨fun x hx => ?_, t.parts_reordered h p⟩
        obtain ⟨-, ⟨-, i, hi, -⟩ | ⟨-, rfl⟩⟩ := mem_parts.mp hx
        · exact hv.arrayItems (List.mem_of_getElem? hi)
        · exact hv
      refine List.rel_flatMap hparts ?_
      rintro ⟨x, q⟩ ⟨y, q'⟩ ⟨hx, hq, hxy⟩
      obtain rfl : q' = q := hq
      refine .cons ⟨rfl, rfl, hxy⟩ (.cons ⟨rfl, rfl, hxy⟩ ?_)
      have hfields : List.Forall₂ (fun f g => f ∈ t.fieldList ∧ f = g) t.fieldList t.fieldList :=
        List.forall₂_same.mpr fun f hf => ⟨hf, rfl⟩
      refine List.rel_flatMap hfields ?_
      rintro f g ⟨hf, rfl⟩
      exact ih f hf (hxy.under hx f.1) (hx.under f.1) (q'.child f.1)

omit [Inspect κ] in
theorem Reordered.parts_eq {t u : Tree κ} (h : t.Reordered u) (v : Value κ) (p : Position) :
    u.parts v p = t.parts v p := by
  cases h with
  | intro hrequired harray hstrict hrules hfields =>
      rw [parts, parts, hfields, isArray, isArray, harray]

omit [Inspect κ] in
theorem Reordered.names_perm {t u : Tree κ} (h : t.Reordered u) : t.names.Perm u.names := by
  cases h with
  | intro _ _ _ _ _ hnames _ horder =>
      have hperm := horder.map (·.1)
      rwa [hnames] at hperm

/-- The checks against a schema with its fields in another order are the same up to order. -/
theorem Reordered.agenda {t u : Tree κ} (h : t.Reordered u) (v : Value κ) (p : Position) :
    Rearranged Probe.Counterpart (t.agenda tests v p) (u.agenda tests v p) := by
  induction t using induction_on_fields generalizing u v p with
  | step t ih =>
      rw [agenda_eq, agenda_eq, h.parts_eq]
      have hnames := h.names_perm
      cases h with
      | @intro _ _ fs hrequired harray hstrict hrules hfields hlabels htrees horder =>
          rw [hrequired, hrules, isArray, isArray, harray]
          refine .cons ⟨.same _, rfl, rfl⟩ ?_
          split
          · exact .of_forall₂ .nil
          refine .append (.of_forall₂ (List.forall₂_same.mpr fun x _ => ⟨.same _, rfl, rfl⟩)) ?_
          have hsame : Rearranged Eq (t.parts v p) (t.parts v p) :=
            .of_forall₂ (List.forall₂_same.mpr fun x _ => rfl)
          refine hsame.flatMap ?_
          rintro x hx _ rfl
          rw [partProbes, partProbes, hstrict]
          refine .cons ⟨.same _, rfl, rfl⟩ (.cons ⟨.excess hnames, rfl, rfl⟩ ?_)
          have hfields : Rearranged (fun f g => g.1 = f.1 ∧ f.2.Reordered g.2) t.fieldList
              u.fieldList := ⟨fs, forall₂_entries_iff.mpr ⟨hlabels, htrees⟩, horder⟩
          refine hfields.flatMap fun f hf g hfg => ?_
          rw [hfg.1]
          exact ih f hf hfg.2 _ _

end Tree

/-- What a rule finds of a value does not depend on the order of keys. -/
def Host.IgnoresOrder (host : Host κ) : Prop :=
  ∀ r v w : Value κ, v.Reordered w →
    Finding.ofAnswer (callRule host r v).outcome = Finding.ofAnswer (callRule host r w).outcome

theorem Finding.ofKeys_congr {names names' : List String} {keys keys' : List (Value κ)}
    (hnames : names.Perm names') (hkeys : keys.Perm keys')
    (hfit : ∀ key ∈ keys, key.canBeKey = true) : ofKeys names keys = ofKeys names' keys' := by
  have hrejects : ∀ {names : List String} {keys : List (Value κ)},
      (∀ key ∈ keys, key.canBeKey = true) → ofKeys names keys ≠ .accepts →
      ofKeys names keys =
        .rejects (.str "available_fields") (.list .fresh ((sortedNames names).map .str)) := by
    intro names keys hfit hne
    cases h : ofKeys names keys with
    | accepts => exact absurd h hne
    | rejects name params =>
        obtain ⟨rfl, rfl⟩ := ofKeys_eq_rejects h
        rfl
    | breaks f => exact absurd h (ofKeys_ne_breaks f)
    | escapes f => exact absurd h (ofKeys_ne_escapes hfit f)
  have hfit' : ∀ key ∈ keys', key.canBeKey = true :=
    fun key hkey => hfit key (hkeys.mem_iff.mpr hkey)
  have hiff : ofKeys names keys = .accepts ↔ ofKeys names' keys' = .accepts := by
    simp only [ofKeys_accepts_iff, hkeys.mem_iff, hnames.mem_iff]
  by_cases haccepts : ofKeys names keys = .accepts
  · rw [haccepts, hiff.mp haccepts]
  · rw [hrejects hfit haccepts, hrejects hfit' fun h => haccepts (hiff.mpr h),
      sortedNames_perm hnames]

section findings

variable {host : Host κ} {ignoring : Value κ} {x y : Probe κ}

theorem Probe.Reordered.finding_eq (h : x.Reordered y) (hx : x.value.KeysFit)
    (hrules : host.IgnoresOrder) : y.finding host ignoring = x.finding host ignoring := by
  obtain ⟨test, v, p⟩ := x
  obtain ⟨test', w, p'⟩ := y
  obtain ⟨rfl, rfl, hvw⟩ : test' = test ∧ p' = p ∧ v.Reordered w := ⟨h.test, h.place, h.value⟩
  simp only [finding]
  cases test' with
  | required flag => rw [Test.finding, Test.finding, hvw.isMissing_eq]
  | shape array => rw [Test.finding, Test.finding, hvw.isArray_eq]
  | rule r => exact (hrules r v w hvw).symm
  | mapper calls broken => cases broken <;> rfl
  | object => rw [Test.finding, Test.finding, hvw.isMapping_eq]
  | excess strict names =>
      rw [Test.finding, Test.finding, Finding.ofKeys_congr (.refl names) hvw.keys_perm
        fun key hkey => hx.canBeKey hkey]

theorem Probe.Counterpart.finding_eq (h : x.Counterpart y) (hx : x.value.KeysFit) :
    y.finding host ignoring = x.finding host ignoring := by
  obtain ⟨test, v, p⟩ := x
  obtain ⟨test', w, p'⟩ := y
  obtain ⟨htest, rfl, rfl⟩ : test.Counterpart test' ∧ w = v ∧ p' = p := ⟨h.test, h.value, h.place⟩
  simp only [finding]
  cases htest with
  | same => rfl
  | excess hnames =>
      rw [Test.finding, Test.finding, Finding.ofKeys_congr hnames (.refl w.keys)
        fun key hkey => hx.canBeKey hkey]

end findings

/-- The failures differ in the order of keys in the value at most. -/
structure ResultError.SameUpToOrder (e e' : ResultError κ) : Prop where
  name : e'.name = e.name
  params : e'.params = e.params
  path : e'.path = e.path
  index : e'.index = e.index
  value : e.value.Reordered e'.value

structure Verdict.SameUpToOrder (a b : Verdict κ) : Prop where
  error : b.error = a.error
  valid : b.valid = a.valid
  resultError : Option.Rel ResultError.SameUpToOrder a.resultError b.resultError

omit [Inspect κ] in
theorem Verdict.sameUpToOrder_refl (a : Verdict κ) : a.SameUpToOrder a := by
  refine ⟨rfl, rfl, ?_⟩
  cases a.resultError with
  | none => exact .none
  | some e => exact .some ⟨rfl, rfl, rfl, rfl, .refl _⟩

theorem Finding.report_reordered (w : Wording κ) (found : Finding κ) {x y : Probe κ}
    (hxy : x.Reordered y) (hx : x.value.Copyable) :
    ReturnsAlike (fun a b => (Verdict.ofSignal a).SameUpToOrder (.ofSignal b))
      (found.report w x.value x.place) (found.report w y.value y.place) := by
  obtain ⟨copy, hcopy⟩ := hx
  obtain ⟨copy', hcopy', hreordered⟩ := hxy.value.deepCopy _ hcopy
  have hsame : ∀ a : Signal κ, (Verdict.ofSignal a).SameUpToOrder (.ofSignal a) :=
    fun a => (Verdict.ofSignal a).sameUpToOrder_refl
  rw [hxy.place]
  rcases found.report_of_copyable ⟨copy, hcopy⟩ ⟨copy', hcopy'⟩ with
    heq | ⟨name, params, e, e', hx, hy, he, he'⟩
  · rw [heq]
    exact .of_refl hsame _
  · rw [hx, hy]
    refine .returns ⟨rfl, rfl, .some ⟨he'.name.trans he.name.symm,
      Except.ok.inj (he'.params.symm.trans he.params), he'.path.trans he.path.symm,
      he'.index.trans he.index.symm, ?_⟩⟩
    obtain rfl := Except.ok.inj ((Value.snapshot_of_deepCopy hcopy).symm.trans he.value)
    obtain rfl := Except.ok.inj ((Value.snapshot_of_deepCopy hcopy').symm.trans he'.value)
    exact hreordered

namespace Setting

theorem performAll_reordered {s : Setting κ} (hrules : s.host.IgnoresOrder)
    {xs ys : List (Probe κ)} (hall : List.Forall₂ Probe.Reordered xs ys)
    (hxs : ∀ x ∈ xs, x.value.KeysFit ∧ x.value.Copyable) :
    ReturnsAlike (fun a b => (Verdict.ofSignal a).SameUpToOrder (.ofSignal b))
      (s.performAll xs).outcome (s.performAll ys).outcome := by
  induction hall with
  | nil => exact .returns (Verdict.sameUpToOrder_refl _)
  | @cons x y xs ys hxy _ ih =>
      obtain ⟨hfit, hcopy⟩ := hxs x (by simp)
      have hfinding : y.finding s.host s.options.ignoreExcess =
        x.finding s.host s.options.ignoreExcess := hxy.finding_eq hfit hrules
      by_cases haccepts : x.finding s.host s.options.ignoreExcess = .accepts
      · rw [performAll_cons_of_accepts haccepts,
          performAll_cons_of_accepts (hfinding.trans haccepts)]
        exact ih fun z hz => hxs z (by simp [hz])
      · rw [performAll_cons_of_ne haccepts,
          performAll_cons_of_ne fun h => haccepts (hfinding.symm.trans h)]
        simp only [perform, hfinding]
        exact Finding.report_reordered s.wording _ hxy hcopy

end Setting

theorem Verdict.Tells.params_of_excess {verdict : Verdict κ} {host : Host κ} {ignoring : Value κ}
    {x : Probe κ} {strict : Bool} {names : List String} (htest : x.test = .excess strict names)
    (h : verdict.Tells x (x.finding host ignoring)) :
    ∃ e, verdict.resultError = some e ∧ e.name = .str "available_fields" ∧
      e.params = .list .fresh ((sortedNames names).map .str) := by
  rw [Probe.finding, htest, Test.finding] at h
  split at h
  · exact h.elim
  split at h
  · exact h.elim
  cases hfound : Finding.ofKeys names x.value.keys with
  | accepts | escapes f =>
      rw [hfound] at h
      exact h.elim
  | breaks f => exact absurd hfound (Finding.ofKeys_ne_breaks f)
  | rejects name params =>
      obtain ⟨rfl, rfl⟩ := Finding.ofKeys_eq_rejects hfound
      rw [hfound] at h
      obtain ⟨e, rfl, he⟩ := h
      have hcopy := Value.snapshot_of_deepCopy (Value.deepCopy_strList (κ := κ) .fresh
        (sortedNames names))
      exact ⟨e, rfl, he.name, Except.ok.inj (he.params.symm.trans hcopy)⟩

theorem exists_tells_of_isBuiltIn {s : Setting κ} {n : NodeId} {t : Tree κ} {v : Value κ}
    {options : OptionsArg κ} {ignore : Bool} (hn : s.heap.Holds n t)
    (ho : options.resolve = .ok s.options) (hmapper : s.options.validator = .null)
    (hignore : s.options.ignoreExcess.isTrue = .ok ignore) (hcopy : v.Copyable) (hkeys : v.KeysFit)
    {x : Probe κ} (hx : s.FailsFirst t v x) (hbuiltIn : x.test.isBuiltIn = true) :
    ∃ verdict, (verify s.host s.wording s.heap (.node n) v options).outcome = .ok verdict ∧
      verdict.Tells x (x.finding s.host s.options.ignoreExcess) := by
  obtain ⟨⟨before, after, hagenda, hbefore⟩, hne⟩ := id hx
  rw [s.tests_of_null hmapper] at hagenda
  rcases outcome_of_first s.wording hn ho hmapper hagenda hbefore hne with
    ⟨verdict, hverdict, htells⟩ | ⟨f, hf, -⟩
  · exact ⟨verdict, hverdict, htells⟩
  · have hcopies : x.value.Copyable :=
      t.agenda_values Value.Copyable.arrayItems Value.Copyable.under hcopy hx.1.mem
    have hreportable : (x.finding s.host s.options.ignoreExcess).Reportable :=
      Test.reportable_of_isBuiltIn hbuiltIn
        (Test.not_escapes_of_isBuiltIn hbuiltIn (hx.keysFit hkeys) hignore)
    exact absurd hf (hreportable.not_unreported hcopies f)

theorem verify_reordered_value {s : Setting κ} {n : NodeId} {t : Tree κ} {v w : Value κ}
    {options : OptionsArg κ} (hn : s.heap.Holds n t) (ho : options.resolve = .ok s.options)
    (hvw : v.Reordered w) (hcopy : v.Copyable) (hkeys : v.KeysFit) (hunique : v.KeysUnique)
    (hrules : s.host.IgnoresOrder) :
    ReturnsAlike Verdict.SameUpToOrder (verify s.host s.wording s.heap (.node n) v options).outcome
      (verify s.host s.wording s.heap (.node n) w options).outcome := by
  obtain ⟨s', hs'⟩ : ∃ s' : Setting κ, s' = { s with pipeline := Pipeline.standard } := ⟨_, rfl⟩
  rw [verify_eq hs' hn ho, verify_eq hs' hn ho]
  have hrules' : s'.host.IgnoresOrder := by
    rw [hs']
    exact hrules
  refine ReturnsAlike.verdicts (Setting.performAll_reordered hrules'
    (t.agenda_reordered_value hvw hunique {}) fun x hx => ?_)
  exact ⟨t.agenda_values Value.KeysFit.arrayItems Value.KeysFit.under hkeys hx,
    t.agenda_values Value.Copyable.arrayItems Value.Copyable.under hcopy hx⟩

theorem Tree.Reordered.all_accept_iff {t u : Tree κ} (h : t.Reordered u)
    {tests : Option (List (Value κ)) → List (Test κ)} {host : Host κ} {ignoring v : Value κ}
    (hv : v.KeysFit) (p : Position) :
    (∀ y ∈ u.agenda tests v p, y.finding host ignoring = .accepts) ↔
      ∀ x ∈ t.agenda tests v p, x.finding host ignoring = .accepts := by
  have hagenda : Rearranged Probe.Counterpart (t.agenda tests v p) (u.agenda tests v p) :=
    h.agenda v p
  have hfinding : ∀ x ∈ t.agenda tests v p, ∀ y, x.Counterpart y →
      y.finding host ignoring = x.finding host ignoring := fun x hx y hxy =>
    hxy.finding_eq (t.agenda_values Value.KeysFit.arrayItems Value.KeysFit.under hv hx)
  constructor
  · intro hall x hx
    obtain ⟨y, hy, hxy⟩ := hagenda.exists_right hx
    exact (hfinding x hx y hxy).symm.trans (hall y hy)
  · intro hall y hy
    obtain ⟨x, hx, hxy⟩ := hagenda.exists_left hy
    exact (hfinding x hx y hxy).trans (hall x hx)

namespace OrderFunction

/-- The schema of a line of an order, with the name before the count or after it. -/
def line (nameFirst : Bool) : Tree OrderFunction :=
  let name := ("name", .node Heap.defaultRegistry true none false none none)
  let count := ("count",
    .node Heap.defaultRegistry true none false (some [.object .positive]) none)
  .node Heap.defaultRegistry true none true none
    (some (if nameFirst then [name, count] else [count, name]))

def lineHeap (nameFirst : Bool) : Heap OrderFunction where
  nodes := [
    { registry := Heap.defaultRegistry },
    { registry := Heap.defaultRegistry, rules := some [.object .positive] },
    { registry := Heap.defaultRegistry, strict := true,
      fields := some (if nameFirst then [("name", 0), ("count", 1)]
        else [("count", 1), ("name", 0)]) }]

theorem lineHeap_holds (nameFirst : Bool) : (lineHeap nameFirst).Holds 2 (line nameFirst) := by
  cases nameFirst <;>
    simp [lineHeap, line, Heap.Holds, Heap.HoldsRecord, Heap.HoldsAll, Heap.node]

theorem line_reordered : (line true).Reordered (line false) := by
  have hleaf : ∀ x : Tree OrderFunction, x.fields = none → x.Reordered x := by
    intro x hx
    refine .intro rfl rfl rfl rfl rfl rfl ?_ (.refl x.fieldList)
    rw [Tree.fieldList, hx]
    exact .nil
  refine .intro rfl rfl rfl rfl rfl rfl (List.forall₂_same.mpr ?_) (List.Perm.swap ..)
  intro x hx
  refine hleaf x ?_
  simp [line, Tree.fieldList, Tree.fields] at hx
  rcases hx with rfl | rfl <;> rfl

def lineWithNote (noteFirst : Bool) : Value OrderFunction :=
  let entries := [(.str "name", .str "pen"), (.str "count", .int 2)]
  .mapping .fresh (if noteFirst then (.str "note", .str "blue") :: entries
    else entries ++ [(.str "note", .str "blue")])

theorem host_ignoresOrder : host.IgnoresOrder := by
  intro r v w hvw
  cases r with
  | object o =>
      cases o with
      | positive =>
          have hjudge : judgeCount v = judgeCount w := by
            cases hvw <;> rfl
          simp only [callRule, host, hjudge]
          rfl
      | callables => rfl
  | _ => rfl

end OrderFunction

end SchemaTree
