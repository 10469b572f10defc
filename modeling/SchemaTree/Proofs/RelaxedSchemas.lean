import SchemaTree.Proofs.BrokenRules
import SchemaTree.Proofs.Conformance
import SchemaTree.Proofs.KeyOrder

/-!
Relaxed schemas. Any nodes of a schema become optional, are no longer strict or lose rules. Each
check against what comes of it is one against the schema itself, or asks less than one, so that no
value is refused which the schema accepts.
-/

namespace SchemaTree

variable {κ : Type}

/-- The second tree is the first one relaxed: of its nodes any may be optional, not strict, or
without some of the rules or all of them. -/
inductive Tree.Relaxed : Tree κ → Tree κ → Prop
  | intro {t u : Tree κ} (hrequired : u.required = true → t.required = true)
    (harray : u.array = t.array) (hstrict : u.strict = true → t.strict = true)
    (hrules : (u.rules.getD []).Sublist (t.rules.getD []))
    (hfields : u.fields.isNone = t.fields.isNone) (hnames : u.names = t.names)
    (htrees : List.Forall₂ Relaxed (t.fieldList.map (·.2)) (u.fieldList.map (·.2))) : Relaxed t u

/-- The second test asks the same as the first one, or less. -/
inductive Test.Relaxed : Test κ → Test κ → Prop
  | same (test : Test κ) : Relaxed test test
  | required {flag flag' : Bool} (hflag : flag' = true → flag = true) :
    Relaxed (.required flag) (.required flag')
  | excess {strict strict' : Bool} (names : List String)
    (hstrict : strict' = true → strict = true) :
    Relaxed (.excess strict names) (.excess strict' names)

structure Probe.Relaxed (x y : Probe κ) : Prop where
  test : x.test.Relaxed y.test
  value : y.value = x.value
  place : y.place = x.place

namespace Tree

section agenda

variable {t u : Tree κ} {v : Value κ} {p : Position}

theorem Relaxed.isArray_eq (h : t.Relaxed u) : u.isArray = t.isArray := by
  cases h with
  | intro _ harray => rw [isArray, isArray, harray]

theorem Relaxed.parts_eq (h : t.Relaxed u) (v : Value κ) (p : Position) :
    u.parts v p = t.parts v p := by
  have harray := h.isArray_eq
  cases h with
  | intro _ _ _ _ hfields => rw [parts, parts, hfields, harray]

theorem Relaxed.exists_partProbe (h : t.Relaxed u) (x : Value κ × Position) {y : Probe κ}
    (hy : y ∈ u.partProbes x) : ∃ z ∈ t.partProbes x, z.Relaxed y := by
  cases h with
  | intro _ _ hstrict _ _ hnames =>
      rcases List.mem_pair.mp hy with rfl | rfl
      · exact ⟨_, List.mem_cons_self .., .same _, rfl, rfl⟩
      · rw [hnames]
        exact ⟨⟨.excess t.strict t.names, x.1, x.2⟩, by simp [Tree.partProbes],
          .excess _ hstrict, rfl, rfl⟩

variable [Inspect κ]

/-- For each check against the relaxed schema there is one against the schema that asks no less. -/
theorem Relaxed.exists_probe (h : t.Relaxed u) {y : Probe κ} (hy : y ∈ u.agenda Test.ofRules v p) :
    ∃ x ∈ t.agenda Test.ofRules v p, x.Relaxed y := by
  induction t using induction_on_fields generalizing u v p with
  | step t ih =>
      have hparts := h.parts_eq v p
      have harray := h.isArray_eq
      have hprobes := h.exists_partProbe
      obtain ⟨hrequired, -, -, hrules, -, hnames, htrees⟩ := h
      rw [mem_agenda_iff, hparts] at hy
      rcases hy with rfl | ⟨hgoes, hy⟩
      · exact ⟨_, mem_agenda_iff.mpr (.inl rfl), .required hrequired, rfl, rfl⟩
      -- Nothing is newly reached: a value that has to be there had to be before.
      have hgoes : v.isMissing = true → t.required = true := hrequired ∘ hgoes
      rcases hy with rfl | ⟨test, htest, rfl⟩ | ⟨part, hpart, hy | ⟨f, hf, hy⟩⟩
      · rw [harray]
        exact ⟨_, mem_agenda_iff.mpr (.inr ⟨hgoes, .inl rfl⟩), .same _, rfl, rfl⟩
      · have htest : test ∈ Test.ofRules t.rules := (hrules.map Test.rule).mem htest
        exact ⟨_, mem_agenda_iff.mpr (.inr ⟨hgoes, .inr (.inl ⟨test, htest, rfl⟩)⟩), .same _,
          rfl, rfl⟩
      · obtain ⟨x, hx, hxy⟩ := hprobes part hy
        exact ⟨x, mem_agenda_iff.mpr (.inr ⟨hgoes, .inr (.inr ⟨part, hpart, .inl hx⟩)⟩), hxy⟩
      · obtain ⟨g, hg, hname, hfg⟩ :=
          exists_left_of_mem (forall₂_entries_iff.mpr ⟨hnames, htrees⟩) hf
        rw [hname] at hy
        obtain ⟨x, hx, hxy⟩ := ih g hg hfg hy
        exact ⟨x, mem_agenda_iff.mpr (.inr ⟨hgoes, .inr (.inr ⟨part, hpart, .inr ⟨g, hg, hx⟩⟩)⟩),
          hxy⟩

end agenda

end Tree

variable [Inspect κ]

section accepts

variable {host : Host κ} {ignoring ignoring' : Value κ}
  (hswitch : ignoring' = ignoring ∨ ignoring'.isTrue = .ok true)

include hswitch

theorem Test.excess_accepts_of_relaxed {strict strict' : Bool} {names : List String} {v : Value κ}
    (hstrict : strict' = true → strict = true)
    (h : (excess strict names).finding host ignoring v = .accepts) :
    (excess strict' names).finding host ignoring' v = .accepts := by
  cases hignore : ignoring.isTrue with
  | error f => simp [finding, hignore] at h
  | ok ignore =>
      obtain ⟨ignore', hignore', hle⟩ :
          ∃ ignore', ignoring'.isTrue = .ok ignore' ∧ (ignore = true → ignore' = true) := by
        rcases hswitch with rfl | htrue
        · exact ⟨ignore, hignore, id⟩
        · exact ⟨true, htrue, fun _ => rfl⟩
      rw [excess_accepts_iff hignore] at h
      rw [excess_accepts_iff hignore']
      refine h.imp_left fun hignored => ⟨hle hignored.1, ?_⟩
      simpa [hignored.2] using hstrict

theorem Probe.Relaxed.accepts {x y : Probe κ} (h : x.Relaxed y)
    (hx : x.finding host ignoring = .accepts) : y.finding host ignoring' = .accepts := by
  obtain ⟨test, v, p⟩ := x
  obtain ⟨test', w, q⟩ := y
  obtain ⟨htest, rfl, rfl⟩ : test.Relaxed test' ∧ w = v ∧ q = p := ⟨h.test, h.value, h.place⟩
  simp only [finding] at hx ⊢
  cases htest with
  | same =>
      cases test with
      | excess strict names => exact Test.excess_accepts_of_relaxed hswitch id hx
      | mapper calls broken => cases broken <;> exact hx
      | _ => exact hx
  | required hflag =>
      rw [Test.required_accepts_iff, Bool.and_eq_false_imp] at hx ⊢
      intro hmissing
      simpa [hx hmissing] using hflag
  | excess names hstrict => exact Test.excess_accepts_of_relaxed hswitch hstrict hx

end accepts

/-- To relax a schema is to refuse no value that was accepted, neither with the same options nor
with ones that ignore excess keys too. -/
theorem verify_accepts_of_relaxed {host : Host κ} {wording : Wording κ} {heap heap' : Heap κ}
    {n m : NodeId} {t u : Tree κ} {v : Value κ} {options : OptionsArg κ} {o : Options κ}
    (hn : heap.Holds n t) (hm : heap'.Holds m u) (htu : t.Relaxed u)
    (ho : options.resolve = .ok o) (hmapper : o.validator = .null) {verdict : Verdict κ}
    (hverdict : (verify host wording heap (.node n) v options).outcome = .ok verdict)
    (hvalid : verdict.valid = true) :
    (verify host wording heap' (.node m) v options).outcome = .ok ⟨none, true, none⟩ ∧
      ∀ ignoring x, ignoring.resolve = .ok { o with ignoreExcess := x } → x.isTrue = .ok true →
        (verify host wording heap' (.node m) v ignoring).outcome = .ok ⟨none, true, none⟩ := by
  have hall : ∀ x ∈ t.agenda Test.ofRules v {}, x.finding host o.ignoreExcess = .accepts :=
    (exists_valid_iff wording hn ho hmapper).mp ⟨verdict, hverdict, hvalid⟩
  have hrelaxed {ignoring : Value κ}
      (hswitch : ignoring = o.ignoreExcess ∨ ignoring.isTrue = .ok true) :
      ∀ y ∈ u.agenda Test.ofRules v {}, y.finding host ignoring = .accepts := by
    intro y hy
    obtain ⟨x, hx, hxy⟩ := htu.exists_probe hy
    exact hxy.accepts hswitch (hall x hx)
  refine ⟨?_, fun ignoring x hresolve hx => ?_⟩
  · rw [verify_of_accepts wording hm ho hmapper (hrelaxed (.inl rfl))]
  · rw [verify_of_accepts wording hm hresolve hmapper (hrelaxed (.inr hx))]

namespace OrderFunction

def looseCount : Tree OrderFunction := .node Heap.defaultRegistry false none false none none

def looseItems : Tree OrderFunction :=
  .node Heap.defaultRegistry true (some true) false none (some [("count", looseCount)])

/-- The schema of an order whose items may be without counts, and with any counts there are. -/
def looseOrder : Tree OrderFunction :=
  .node Heap.defaultRegistry true none false none (some [("items", looseItems)])

def looseHeap : Heap OrderFunction where
  nodes := [
    { registry := Heap.defaultRegistry, required := false },
    { registry := Heap.defaultRegistry, array := some true, fields := some [("count", 0)] },
    { registry := Heap.defaultRegistry, fields := some [("items", 1)] }]

theorem looseHeap_holds : looseHeap.Holds 2 looseOrder := by
  simp [looseHeap, looseOrder, looseItems, looseCount, Heap.Holds, Heap.HoldsRecord,
    Heap.HoldsAll, Heap.node]

theorem order_relaxed (descriptors : List (Value OrderFunction)) :
    (order descriptors).Relaxed looseOrder := by
  refine ⟨id, rfl, nofun, .slnil, rfl, rfl, .cons ⟨id, rfl, id, .slnil, rfl, rfl, ?_⟩ .nil⟩
  exact .cons ⟨nofun, rfl, id, List.nil_sublist _, rfl, rfl, .nil⟩ .nil

end OrderFunction

/-- An order with positive counts is still accepted where any counts are. -/
theorem loose_order_accepted :
    (verify OrderFunction.host OrderFunction.wording OrderFunction.looseHeap (.node 2)
        (OrderFunction.ofCounts [2, 5]) (.value .null)).outcome = .ok ⟨none, true, none⟩ ∧
      (verify OrderFunction.host OrderFunction.wording OrderFunction.looseHeap (.node 2)
        (OrderFunction.ofCounts [2, 5]) (.options { ignoreExcess := .bool true })).outcome =
          .ok ⟨none, true, none⟩ := by
  have haccepted : (verify OrderFunction.host OrderFunction.wording
      (OrderFunction.heap [.object .positive]) (.node 2) (OrderFunction.ofCounts [2, 5])
      (.value .null)).outcome = .ok ⟨none, true, none⟩ := by with_unfolding_all rfl
  obtain ⟨hsame, hignoring⟩ := verify_accepts_of_relaxed
    (OrderFunction.heap_holds [.object .positive]) OrderFunction.looseHeap_holds
    (OrderFunction.order_relaxed _) (rfl : (OptionsArg.value .null).resolve = _) rfl haccepted rfl
  exact ⟨hsame, hignoring _ _ rfl rfl⟩

end SchemaTree
