import SchemaTree.Proofs.Copying
import SchemaTree.Proofs.Sequencing

/-!
The checks of a run as one list, in document order: those of a node before those of its fields, the
fields of one array item before those of the next. A check is a test of one value at one place; what
it finds depends on the value alone, and what is reported of it on the place too.
-/

namespace SchemaTree

variable {κ : Type}

inductive Test (κ : Type) where
  /-- There is a value, if there has to be one. -/
  | required (flag : Bool)
  | shape (array : Bool)
  | rule (r : Value κ)
  /-- The mapper that makes the rules was called so, and broke if there is a fault. -/
  | mapper (calls : List (Event κ)) (broken : Option (Fault κ))
  /-- The value is a mapping. -/
  | object
  /-- All keys are names of fields, if they have to be. -/
  | excess (strict : Bool) (names : List String)

/-- Whether a test is of every schema, and none that the rules of a node make. -/
def Test.isBuiltIn : Test κ → Bool
  | .rule _ | .mapper .. => false
  | _ => true

structure Probe (κ : Type) where
  test : Test κ
  value : Value κ
  place : Position

inductive Finding (κ : Type) where
  /-- Nothing is found, and the next test is made. -/
  | accepts
  /-- The value is invalid, by the rule of that name and with these parameters. -/
  | rejects (name params : Value κ)
  /-- A rule or mapper is broken. -/
  | breaks (f : Fault κ)
  /-- What is found cannot be told from what is not. -/
  | escapes (f : Fault κ)

namespace Tree

/-- The values that the fields of a tree are looked up in, with their places: the items of an
array, or else the value itself. -/
def parts (t : Tree κ) (v : Value κ) (p : Position) : List (Value κ × Position) :=
  if t.fields.isNone then []
  else if t.isArray then (indexed 0 v.arrayItems).map fun x => (x.2, p.item x.1)
  else [(v, p)]

theorem mem_parts {t : Tree κ} {v : Value κ} {p : Position} {x : Value κ × Position} :
    x ∈ t.parts v p ↔ t.fields.isSome = true ∧
      ((t.isArray = true ∧ ∃ i, v.arrayItems[i]? = some x.1 ∧ x.2 = p.item i) ∨
        (t.isArray = false ∧ x = (v, p))) := by
  unfold parts
  cases t.fields with
  | none => simp
  | some fs =>
      cases t.isArray with
      | false => simp
      | true =>
          simp only [Option.isNone_some, Bool.false_eq_true, if_false, if_true, List.mem_map,
            Option.isSome_some, true_and, reduceCtorEq, false_and, or_false]
          constructor
          · rintro ⟨⟨i, y⟩, hy, rfl⟩
            obtain ⟨k, rfl, hk⟩ := mem_indexed.mp hy
            exact ⟨0 + k, by simpa using hk, rfl⟩
          · rintro ⟨i, hi, hplace⟩
            exact ⟨(i, x.1), mem_indexed.mpr ⟨i, by omega, hi⟩, Prod.ext rfl hplace.symm⟩

theorem depth_parts {t : Tree κ} {v : Value κ} {p : Position} {x : Value κ × Position}
    (hx : x ∈ t.parts v p) : x.1.depth ≤ v.depth := by
  obtain ⟨-, ⟨-, i, hi, -⟩ | ⟨-, rfl⟩⟩ := mem_parts.mp hx
  · exact Value.depth_arrayItems (List.mem_of_getElem? hi)
  · exact Nat.le_refl _

section agenda

variable [Inspect κ] (tests : Option (List (Value κ)) → List (Test κ))

mutual

/-- The checks of a value against a tree in document order, where `tests` says what becomes of the
rules of a node. Where nothing need be and nothing is, nothing else is checked. -/
def agenda : Tree κ → Value κ → Position → List (Probe κ)
  | .node registry required array strict rules fields, v, p =>
    let t := Tree.node registry required array strict rules fields
    ⟨.required required, v, p⟩ ::
      if v.isMissing && !required then []
      else
        ⟨.shape t.isArray, v, p⟩ :: (tests rules).map (⟨·, v, p⟩) ++
          (t.parts v p).flatMap fun x =>
            ⟨.object, x.1, x.2⟩ :: ⟨.excess strict t.names, x.1, x.2⟩ ::
              match fields with
              | none => []
              | some fs => agendaAll fs x.1 x.2

def agendaAll : List (String × Tree κ) → Value κ → Position → List (Probe κ)
  | [], _, _ => []
  | (name, t) :: fs, v, p => agenda t (v.under name) (p.child name) ++ agendaAll fs v p

end

/-- The checks of one part of a value, before those of its fields. -/
def partProbes (t : Tree κ) (x : Value κ × Position) : List (Probe κ) :=
  [⟨.object, x.1, x.2⟩, ⟨.excess t.strict t.names, x.1, x.2⟩]

def fieldProbes (t : Tree κ) (x : Value κ × Position) : List (Probe κ) :=
  t.fieldList.flatMap fun f => f.2.agenda tests (x.1.under f.1) (x.2.child f.1)

variable {tests}

theorem agendaAll_eq (fs : List (String × Tree κ)) (v : Value κ) (p : Position) :
    agendaAll tests fs v p = fs.flatMap fun f => f.2.agenda tests (v.under f.1) (p.child f.1) := by
  induction fs with
  | nil => rfl
  | cons f fs ih => rw [agendaAll, ih, List.flatMap_cons]

theorem agenda_eq (t : Tree κ) (v : Value κ) (p : Position) :
    t.agenda tests v p =
      ⟨.required t.required, v, p⟩ ::
        if v.isMissing && !t.required then []
        else
          ⟨.shape t.isArray, v, p⟩ :: (tests t.rules).map (⟨·, v, p⟩) ++
            (t.parts v p).flatMap fun x => t.partProbes x ++ t.fieldProbes tests x := by
  obtain ⟨registry, required, array, strict, rules, _ | fs⟩ := t
  · simp [agenda, parts, fields, Tree.required, Tree.rules]
  · simp only [agenda, agendaAll_eq]
    rfl

/-- The tests of the node itself, for any value that is there or has to be. -/
def ownTests (tests : Option (List (Value κ)) → List (Test κ)) (t : Tree κ) : List (Test κ) :=
  .required t.required :: .shape t.isArray :: tests t.rules

/-- What follows the first check of an agenda does so where the value is there or has to be. -/
theorem mem_agenda_iff {t : Tree κ} {v : Value κ} {p : Position} {x : Probe κ} :
    x ∈ t.agenda tests v p ↔ x = ⟨.required t.required, v, p⟩ ∨
      (v.isMissing = true → t.required = true) ∧
        (x = ⟨.shape t.isArray, v, p⟩ ∨ (∃ test ∈ tests t.rules, ⟨test, v, p⟩ = x) ∨
          ∃ part ∈ t.parts v p, x ∈ t.partProbes part ∨
            ∃ f ∈ t.fieldList, x ∈ f.2.agenda tests (part.1.under f.1) (part.2.child f.1)) := by
  rw [agenda_eq, List.mem_cons]
  refine or_congr_right ?_
  by_cases hgoes : v.isMissing = true → t.required = true
  · have hthere : (v.isMissing && !t.required) = false := by
      simpa using hgoes
    simp [hthere, fieldProbes, and_iff_right hgoes]
  · have hmissing : (v.isMissing && !t.required) = true := by
      simpa using hgoes
    simp [hmissing, hgoes]

/-- A check of an agenda is one of the node itself, one of a part of the value, or one of a
field. -/
theorem mem_agenda {t : Tree κ} {v : Value κ} {p : Position} {x : Probe κ}
    (hx : x ∈ t.agenda tests v p) :
    (∃ test ∈ t.ownTests tests, x = ⟨test, v, p⟩) ∨
      ∃ part ∈ t.parts v p, x ∈ t.partProbes part ∨
        ∃ f ∈ t.fieldList, x ∈ f.2.agenda tests (part.1.under f.1) (part.2.child f.1) := by
  rcases mem_agenda_iff.mp hx with rfl | ⟨-, rfl | ⟨test, htest, rfl⟩ | ⟨part, hpart, hx⟩⟩
  · exact .inl ⟨_, List.mem_cons_self .., rfl⟩
  · exact .inl ⟨.shape t.isArray, by simp [ownTests], rfl⟩
  · exact .inl ⟨test, by simp [ownTests, htest], rfl⟩
  · exact .inr ⟨part, hpart, hx⟩

/-- What goes from a value to its items and to the values under names, goes to all values of an
agenda. -/
theorem agenda_values {P : Value κ → Prop}
    (hitems : ∀ {v x : Value κ}, P v → x ∈ v.arrayItems → P x)
    (hunder : ∀ {v : Value κ}, P v → ∀ name, P (v.under name)) (t : Tree κ) {v : Value κ}
    {p : Position} (hv : P v) {x : Probe κ} (hx : x ∈ t.agenda tests v p) : P x.value := by
  induction t using induction_on_fields generalizing v p with
  | step t ih =>
      rcases mem_agenda hx with ⟨test, -, rfl⟩ | ⟨part, hpart, hx⟩
      · exact hv
      · have hP : P part.1 := by
          obtain ⟨-, ⟨-, i, hi, -⟩ | ⟨-, rfl⟩⟩ := mem_parts.mp hpart
          · exact hitems hv (List.mem_of_getElem? hi)
          · exact hv
        rcases hx with hx | ⟨f, hf, hx⟩
        · rcases List.mem_pair.mp hx with rfl | rfl <;> exact hP
        · exact ih f hf (hunder hP f.1) hx

/-- What holds of the built-in tests and of those that the rules of the nodes make, holds of all
tests of an agenda. -/
theorem agenda_tests {P : Test κ → Prop}
    (hbuiltIn : ∀ test : Test κ, test.isBuiltIn = true → P test)
    (t : Tree κ) (ht : t.Each fun u => ∀ test ∈ tests u.rules, P test) {v : Value κ} {p : Position}
    {x : Probe κ} (hx : x ∈ t.agenda tests v p) : P x.test := by
  induction t using induction_on_fields generalizing v p with
  | step t ih =>
      rcases mem_agenda hx with ⟨test, htest, rfl⟩ | ⟨part, -, hx | ⟨f, hf, hx⟩⟩
      · rcases List.mem_cons.mp htest with rfl | htest
        · exact hbuiltIn _ rfl
        · rcases List.mem_cons.mp htest with rfl | htest
          · exact hbuiltIn _ rfl
          · exact ht.root test htest
      · rcases List.mem_pair.mp hx with rfl | rfl <;> exact hbuiltIn _ rfl
      · exact ih f hf (ht.field hf) hx

end agenda

end Tree

namespace Finding

/-- What a fault says that is no failure of the value: something is broken. One that does not count
as true is passed over. -/
def ofBroken (f : Fault κ) : Finding κ :=
  match f.truth with
  | .ok true => .breaks f
  | .ok false => .accepts
  | .error g => .escapes g

/-- What a fault says of the value: it is the failure of a rule, or something is broken. -/
def ofFault (f : Fault κ) : Finding κ :=
  match f.failure with
  | some (.ok (name, params)) => .rejects name params
  | some (.error g) => .escapes g
  | none => .ofBroken f

def ofTruth : Except (Fault κ) Bool → Finding κ
  | .ok true => .accepts
  | .ok false => .rejects .null .null
  | .error f => .ofFault f

theorem ofBroken_eq_breaks {f g : Fault κ} :
    ofBroken f = .breaks g ↔ f = g ∧ g.truth = .ok true := by
  unfold ofBroken
  constructor
  · intro h
    split at h
    · obtain rfl := breaks.inj h
      exact ⟨rfl, ‹_›⟩
    · exact nomatch h
    · exact nomatch h
  · rintro ⟨rfl, h⟩
    rw [h]

theorem ofFault_eq_breaks {f g : Fault κ} :
    ofFault f = .breaks g ↔ f = g ∧ g.failure = none ∧ g.truth = .ok true := by
  unfold ofFault
  constructor
  · intro h
    split at h
    · exact nomatch h
    · exact nomatch h
    · obtain ⟨rfl, htruth⟩ := ofBroken_eq_breaks.mp h
      exact ⟨rfl, ‹_›, htruth⟩
  · rintro ⟨rfl, hfailure, htruth⟩
    rw [hfailure]
    exact ofBroken_eq_breaks.mpr ⟨rfl, htruth⟩

theorem ofBroken_eq_escapes {f g : Fault κ} :
    ofBroken f = .escapes g ↔ f.truth = .error g := by
  unfold ofBroken
  split <;> simp [*]

theorem reach_of_ofFault_escapes {f g : Fault κ} (h : ofFault f = .escapes g) :
    f.failure = some (.error g) ∨ f.truth = .error g := by
  unfold ofFault at h
  split at h
  · exact nomatch h
  · obtain rfl := escapes.inj h
    exact .inl ‹_›
  · exact .inr (ofBroken_eq_escapes.mp h)

theorem ofTruth_eq_breaks {truth : Except (Fault κ) Bool} {f : Fault κ} :
    ofTruth truth = .breaks f ↔ truth = .error f ∧ f.failure = none ∧ f.truth = .ok true := by
  rcases truth with g | _ | _
  · simp [ofTruth, ofFault_eq_breaks]
  · simp [ofTruth]
  · simp [ofTruth]

end Finding

def ruleCalls (host : Host κ) (rule value : Value κ) : List (Event κ) :=
  match rule with
  | .object o => if (host.rule o).isSome then [.rule o value] else []
  | _ => []

variable [Inspect κ]

def Value.isAmong (names : List String) (key : Value κ) : Bool :=
  key.asText.any names.contains

theorem Value.isAmong_iff {names : List String} {key : Value κ} :
    key.isAmong names = true ↔ ∃ name ∈ names, key.asText = some name := by
  simp only [isAmong, Option.any_eq_true, List.contains_iff_mem]
  exact exists_congr fun name => and_comm

namespace Finding

def ofAnswer : Except (Fault κ) (Value κ) → Finding κ
  | .ok .null => .accepts
  | .ok (.invalid _ name params) => .rejects name params
  | .ok v => .ofTruth v.isTrue
  | .error f => .ofFault f

theorem ofAnswer_eq_breaks {answer : Except (Fault κ) (Value κ)} {f : Fault κ} :
    ofAnswer answer = .breaks f ↔ f.failure = none ∧ f.truth = .ok true ∧
      (answer = .error f ∨ ∃ a, answer = .ok a ∧
        (∀ m name params, a ≠ .invalid m name params) ∧ a.isTrue = .error f) := by
  cases answer with
  | error g =>
      simp only [ofAnswer, ofFault_eq_breaks, Except.error.injEq, reduceCtorEq, false_and,
        exists_false, or_false]
      tauto
  | ok a =>
      have htruth : ofTruth a.isTrue = .breaks f ↔
          f.failure = none ∧ f.truth = .ok true ∧ a.isTrue = .error f := by
        rw [ofTruth_eq_breaks]
        tauto
      cases a with
      | null => simp [ofAnswer, Value.isTrue]
      | invalid m name params => simp [ofAnswer]
      | _ => simpa [ofAnswer] using htruth

theorem exists_fault_of_escapes {answer : Except (Fault κ) (Value κ)} {f : Fault κ}
    (h : ofAnswer answer = .escapes f) :
    ∃ g : Fault κ, (answer = .error g ∨ ∃ a, answer = .ok a ∧
        (∀ m name params, a ≠ .invalid m name params) ∧ a.isTrue = .error g) ∧
      (g.failure = some (.error f) ∨ g.truth = .error f) := by
  unfold ofAnswer at h
  split at h
  · exact nomatch h
  · exact nomatch h
  · rename_i a _ hvalid
    cases htruth : a.isTrue with
    | error g =>
        rw [htruth] at h
        exact ⟨g, .inr ⟨a, rfl, hvalid, htruth⟩, reach_of_ofFault_escapes h⟩
    | ok b =>
        rw [htruth] at h
        cases b <;> exact nomatch h
  · exact ⟨_, .inl rfl, reach_of_ofFault_escapes h⟩

/-- What the keys of a mapping say, where only names may be keys. The first one that is no name
decides, if it can be looked for. -/
def ofKeys (names : List String) (keys : List (Value κ)) : Finding κ :=
  match keys.find? fun key => !key.isAmong names with
  | none => .accepts
  | some key =>
    if key.canBeKey then
      .rejects (.str "available_fields") (.list .fresh ((sortedNames names).map .str))
    else .escapes (.misuse .unsupported)

section ofKeys

variable {names : List String} {keys : List (Value κ)}

theorem ofKeys_accepts_iff :
    ofKeys names keys = .accepts ↔
      ∀ key ∈ keys, ∃ name ∈ names, key.asText = some name := by
  have hnone : (keys.find? fun key => !key.isAmong names) = none ↔
      ∀ key ∈ keys, ∃ name ∈ names, key.asText = some name := by
    simp only [List.find?_eq_none, Bool.not_eq_true', Bool.not_eq_false, Value.isAmong_iff]
  rw [← hnone, ofKeys]
  split
  · simp [*]
  · simp only [*, reduceCtorEq, iff_false]
    split <;> simp

theorem ofKeys_cases (names : List String) (keys : List (Value κ)) :
    ofKeys names keys = .accepts ∨
      (∃ name params, params.Copyable ∧ ofKeys names keys = .rejects (.str name) params) ∨
      ∃ f, ofKeys names keys = .escapes f := by
  unfold ofKeys
  split
  · exact .inl rfl
  · split
    · exact .inr (.inl ⟨_, _, ⟨_, Value.deepCopy_strList _ _⟩, rfl⟩)
    · exact .inr (.inr ⟨_, rfl⟩)

theorem ofKeys_ne_breaks (f : Fault κ) : ofKeys names keys ≠ .breaks f := by
  rcases ofKeys_cases names keys with h | ⟨name, params, -, h⟩ | ⟨g, h⟩ <;> simp [h]

theorem ofKeys_eq_rejects {name params : Value κ} (h : ofKeys names keys = .rejects name params) :
    name = .str "available_fields" ∧ params = .list .fresh ((sortedNames names).map .str) := by
  unfold ofKeys at h
  split at h
  · simp at h
  · split at h
    · exact ⟨(rejects.inj h).1.symm, (rejects.inj h).2.symm⟩
    · simp at h

theorem ofKeys_ne_escapes (hkeys : ∀ key ∈ keys, key.canBeKey = true) (f : Fault κ) :
    ofKeys names keys ≠ .escapes f := by
  unfold ofKeys
  split
  · simp
  · rename_i key hkey
    simp [hkeys key (List.mem_of_find?_eq_some hkey)]

theorem ofKeys_eq (names : List String) (keys : List (Value κ)) :
    ofKeys names keys = match Setting.allDeclared names keys with
      | .error f => .escapes f
      | .ok true => .accepts
      | .ok false =>
        .rejects (.str "available_fields") (.list .fresh ((sortedNames names).map .str)) := by
  induction keys with
  | nil => rfl
  | cons key keys ih =>
      cases hfit : key.canBeKey with
      | false =>
          have hamong : key.isAmong names = false := by
            rw [Bool.eq_false_iff, ne_eq, Value.isAmong_iff]
            rintro ⟨name, -, hname⟩
            exact Bool.false_ne_true (hfit.symm.trans (Value.canBeKey_of_asText hname))
          rw [Setting.allDeclared_unfit names keys hfit]
          simp [ofKeys, hamong, hfit]
      | true =>
          rw [Setting.allDeclared_cons names keys hfit]
          by_cases hamong : ∃ name ∈ names, key.asText = some name
          · rw [if_pos hamong, ← ih]
            simp [ofKeys, Value.isAmong_iff.mpr hamong]
          · rw [if_neg hamong]
            rw [← Value.isAmong_iff, Bool.not_eq_true] at hamong
            simp [ofKeys, hamong, hfit]

end ofKeys

end Finding

namespace Test

omit [Inspect κ] in
def ofRules (rules : Option (List (Value κ))) : List (Test κ) := (rules.getD []).map .rule

/-- What a test finds of a value, where `ignoring` is the switch for excess keys. -/
def finding (host : Host κ) (ignoring : Value κ) : Test κ → Value κ → Finding κ
  | .required flag, v =>
    if v.isMissing && flag then .rejects (.str "required") (.bool true) else .accepts
  | .shape array, v =>
    if array == v.isArray then .accepts
    else .rejects (.str "type") (.str (if array then "array" else "object"))
  | .rule r, v => .ofAnswer (callRule host r v).outcome
  | .mapper _ none, _ => .accepts
  | .mapper _ (some f), _ => .ofBroken f
  | .object, v => if v.isMapping then .accepts else .rejects (.str "type") (.str "object")
  | .excess strict names, v =>
    match ignoring.isTrue with
    | .error f => .escapes f
    | .ok ignore => if ignore && !strict then .accepts else .ofKeys names v.keys

def calls (host : Host κ) : Test κ → Value κ → List (Event κ)
  | .rule r, v => ruleCalls host r v
  | .mapper es _, _ => es
  | _, _ => []

/-- A test that is of every schema accepts, or it rejects by a text and with parameters that can be
copied, or what it finds cannot be told. -/
theorem finding_of_isBuiltIn {test : Test κ} (h : test.isBuiltIn = true) (host : Host κ)
    (ignoring v : Value κ) :
    test.finding host ignoring v = .accepts ∨
      (∃ name params, params.Copyable ∧
        test.finding host ignoring v = .rejects (.str name) params) ∨
      ∃ f, test.finding host ignoring v = .escapes f := by
  cases test with
  | rule r => exact absurd h Bool.false_ne_true
  | mapper calls broken => exact absurd h Bool.false_ne_true
  | required flag =>
      simp only [finding]
      split
      · exact .inr (.inl ⟨_, _, ⟨_, rfl⟩, rfl⟩)
      · exact .inl rfl
  | shape array =>
      simp only [finding]
      split
      · exact .inl rfl
      · exact .inr (.inl ⟨_, _, ⟨_, rfl⟩, rfl⟩)
  | object =>
      simp only [finding]
      split
      · exact .inl rfl
      · exact .inr (.inl ⟨_, _, ⟨_, rfl⟩, rfl⟩)
  | excess strict names =>
      simp only [finding]
      split
      · exact .inr (.inr ⟨_, rfl⟩)
      · split
        · exact .inl rfl
        · exact Finding.ofKeys_cases names v.keys

theorem ne_breaks_of_isBuiltIn {host : Host κ} {ignoring v : Value κ} {test : Test κ}
    {f : Fault κ} (h : test.isBuiltIn = true) : test.finding host ignoring v ≠ .breaks f := by
  rcases finding_of_isBuiltIn h host ignoring v with
    hfinding | ⟨name, params, -, hfinding⟩ | ⟨g, hfinding⟩ <;> simp [hfinding]

theorem truth_of_breaks {host : Host κ} {ignoring v : Value κ} {test : Test κ} {f : Fault κ}
    (h : test.finding host ignoring v = .breaks f) : f.truth = .ok true := by
  cases test with
  | rule r => exact (Finding.ofAnswer_eq_breaks.mp h).2.1
  | mapper calls broken =>
      cases broken with
      | none => cases h
      | some g => exact (Finding.ofBroken_eq_breaks.mp h).2
  | _ => exact absurd h (ne_breaks_of_isBuiltIn rfl)

section accepts

variable {host : Host κ} {ignoring : Value κ} {v : Value κ}

theorem required_accepts_iff {flag : Bool} :
    (required flag).finding host ignoring v = .accepts ↔ (v.isMissing && flag) = false := by
  simp only [finding]
  cases (v.isMissing && flag) <;> simp

theorem shape_accepts_iff {array : Bool} :
    (shape array).finding host ignoring v = .accepts ↔ v.isArray = array := by
  simp only [finding]
  cases array <;> cases v.isArray <;> simp

theorem object_accepts_iff :
    object.finding host ignoring v = .accepts ↔ v.isMapping = true := by
  simp only [finding]
  cases v.isMapping <;> simp

end accepts

end Test

namespace Probe

def finding (host : Host κ) (ignoring : Value κ) (x : Probe κ) : Finding κ :=
  x.test.finding host ignoring x.value

omit [Inspect κ] in
def calls (host : Host κ) (x : Probe κ) : List (Event κ) := x.test.calls host x.value

end Probe

end SchemaTree
