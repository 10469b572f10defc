import SchemaTree.Proofs.DocumentOrder
import SchemaTree.Proofs.OwnCopies

/-!
How far a run of checks goes. A schema can lead back to itself, so nothing in it bounds the run. The
value does: a field is looked up in a mapping, which holds the value that is checked next, and where
it holds none the check for a required value is the last one.
-/

namespace SchemaTree

variable {κ : Type}

namespace Value

/-- The value is found inside another one: it is that value, or inside an item of that array or
inside a value of that mapping. -/
inductive Within : Value κ → Value κ → Prop
  | refl (v : Value κ) : Within v v
  | item {w x v : Value κ} (hx : x ∈ v.arrayItems) (hw : Within w x) : Within w v
  | entry {w x k : Value κ} {m : Mark} {es : Entries κ} (hx : (k, x) ∈ es) (hw : Within w x) :
      Within w (.mapping m es)

theorem Within.trans {u w v : Value κ} (huw : u.Within w) (hwv : w.Within v) : u.Within v := by
  induction hwv with
  | refl => exact huw
  | item hx _ ih => exact .item hx ih
  | entry hx _ ih => exact .entry hx ih

variable [Inspect κ]

/-- The value is what a field's name stands for in a mapping, the other value or an item of it. -/
def FieldOf (w v : Value κ) : Prop :=
  ∃ x name, (x = v ∨ x ∈ v.arrayItems) ∧ x.isMapping = true ∧ w = x.under name

theorem FieldOf.missing_or_within {w v : Value κ} (h : w.FieldOf v) :
    w = .missing ∨ w.Within v := by
  obtain ⟨x, name, hx, -, rfl⟩ := h
  refine (x.under_eq name).imp_right ?_
  rintro ⟨m, es, key, rfl, -, hmem⟩
  have hentry : ((mapping m es).under name).Within (.mapping m es) := .entry hmem (.refl _)
  rcases hx with rfl | hx
  · exact hentry
  · exact .item hx hentry

theorem FieldOf.depth_lt {w v : Value κ} (h : w.FieldOf v) : w.depth < v.depth := by
  obtain ⟨x, name, hx, hmapping, rfl⟩ := h
  have hunder := depth_under hmapping name
  rcases hx with rfl | hx
  · exact hunder
  · exact Nat.lt_of_lt_of_le hunder (depth_arrayItems hx)

theorem FieldOf.trans_within {u w v : Value κ} (h : u.FieldOf w)
    (hw : w = .missing ∨ w.Within v) : u = .missing ∨ u.Within v := by
  refine h.missing_or_within.imp_right fun hu => ?_
  rcases hw with rfl | hw
  -- A missing value has no fields.
  · exact absurd h.depth_lt (Nat.not_lt_zero _)
  · exact hu.trans hw

end Value

namespace Setting

variable [Inspect κ] (s : Setting κ)

theorem checkNode_missing (hs : s.pipeline = Pipeline.standard) (visit : Local κ) (n : NodeId)
    (p : Position) :
    s.checkNode visit n .missing p =
      if (s.heap.node n).required then
        s.wording.failure (.str "required") (.bool true) .missing p
      else pure .pass := by
  simp only [checkNode, inTurn_eq, stage, hs, Pipeline.standard, List.map_cons, checkRequired]
  split
  · rw [settle_failure, Wording.failure_eq]
    cases hreport : (Finding.rejects (.str "required") (.bool true)).report s.wording
      (.missing : Value κ) p with
    | error f => rfl
    | ok signal =>
        cases signal with
        | pass => cases Finding.report_eq_pass_iff.mp hreport
        | stop => exact absurd hreport Finding.report_ne_stop
        | fail f => rfl
  · rfl

section congr

variable {s} {visit visit' : Local κ} {n : NodeId} {v : Value κ}

theorem checkNested_congr {p : Position} (hv : v.isMapping = true)
    (h : ∀ m name q, visit m (v.under name) q = visit' m (v.under name) q) :
    s.checkNested visit n v p = s.checkNested visit' n v p := by
  simp only [checkNested, Value.fieldValue_of_isMapping hv, Run.of_ok, pure_bind, h]

theorem checkFields_congr {p : Position} (hs : s.pipeline = Pipeline.standard)
    (h : v.isMapping = true →
      ∀ m name q, visit m (v.under name) q = visit' m (v.under name) q) :
    s.checkFields visit n v p = s.checkFields visit' n v p := by
  simp only [checkFields, inTurn_eq, stage, hs, Pipeline.standard, List.map_cons, List.map_nil]
  refine Run.inSequence_cons_congr fun hpass => ?_
  rw [checkMapping_eq, settle_perform] at hpass
  have hv : v.isMapping = true := Test.object_accepts_iff.mp (Finding.report_eq_pass_iff.mp hpass)
  rw [checkNested_congr hv (h hv)]

/-- The check of a node looks at no other nodes than with the values of fields in its value. -/
theorem checkNode_congr (hs : s.pipeline = Pipeline.standard)
    (h : ∀ m w q, w.FieldOf v → visit m w q = visit' m w q) (p : Position) :
    s.checkNode visit n v p = s.checkNode visit' n v p := by
  have hfields : ∀ x q, (x = v ∨ x ∈ v.arrayItems) →
      s.checkFields visit n x q = s.checkFields visit' n x q := by
    intro x q hx
    refine checkFields_congr hs fun hmapping m name q' => h m _ q' ?_
    exact ⟨x, name, hx, hmapping, rfl⟩
  simp only [checkNode, inTurn_eq, stage, hs, Pipeline.standard, List.map_cons, List.map_nil]
  refine Run.inSequence_cons_congr fun _ => Run.inSequence_cons_congr fun hshape => ?_
  have hcontents : s.checkContents visit n v p = s.checkContents visit' n v p := by
    rw [checkShape_eq, settle_perform] at hshape
    have hv : v.isArray = s.isArray n :=
      Test.shape_accepts_iff.mp (Finding.report_eq_pass_iff.mp hshape)
    simp only [checkContents, stage, hs, Pipeline.standard]
    split
    · rfl
    split
    · rename_i harray
      simp only [Value.elements_of_isArray (hv.trans harray), Run.of_ok, pure_bind, iterateList,
        Run.ofReport_iterate]
      congr 1
      refine List.map_congr_left fun e he => ?_
      obtain ⟨k, -, hk⟩ := mem_indexed.mp he
      rw [hfields e.2 _ (.inr (List.mem_of_getElem? hk))]
    · exact hfields v p (.inl rfl)
  rw [hcontents]

end congr

/-- The check of the one node asks for the check of the other one: what it comes to depends on what
that check would come to. -/
def Enters (n : NodeId) (v : Value κ) (p : Position) (m : NodeId) (w : Value κ) (q : Position) :
    Prop :=
  ∃ visit visit' : Local κ,
    (∀ m' w' q', (m', w', q') ≠ (m, w, q) → visit m' w' q' = visit' m' w' q') ∧
      s.checkNode visit n v p ≠ s.checkNode visit' n v p

theorem fieldOf_of_enters (hs : s.pipeline = Pipeline.standard) {n m : NodeId} {v w : Value κ}
    {p q : Position} (h : s.Enters n v p m w q) : w.FieldOf v := by
  obtain ⟨visit, visit', hothers, hne⟩ := h
  by_contra hfield
  refine hne (checkNode_congr hs (fun m' w' q' hw' => hothers m' w' q' ?_) p)
  rintro ⟨⟩
  exact hfield hw'

/-- The checks that a run from a node, a value and a position can enter, with how deep they are
inside each other. -/
inductive Entered (n : NodeId) (v : Value κ) (p : Position) :
    Nat → NodeId → Value κ → Position → Prop
  | start : Entered n v p 1 n v p
  | nested {k : Nat} {m m' : NodeId} {w w' : Value κ} {q q' : Position}
      (hbefore : Entered n v p k m w q) (henters : s.Enters m w q m' w' q') :
      Entered n v p (k + 1) m' w' q'

theorem Entered.bound {s : Setting κ} (hs : s.pipeline = Pipeline.standard) {n m : NodeId}
    {v w : Value κ} {p q : Position} {k : Nat} (h : s.Entered n v p k m w q) :
    (w = .missing ∨ w.Within v) ∧ k + w.depth ≤ v.depth + 1 := by
  induction h with
  | start => exact ⟨.inr (.refl v), by omega⟩
  | @nested k m m' w w' q q' _ henters ih =>
      obtain ⟨hw, hk⟩ := ih
      have hfield := s.fieldOf_of_enters hs henters
      have hlt := hfield.depth_lt
      exact ⟨hfield.trans_within hw, by omega⟩

/-- Whatever checks come to elsewhere, and where their bound is met, they come to the same on a
value that they unfold often enough. -/
theorem eq_verifyTo_of_unfolds (hs : s.pipeline = Pipeline.standard) {v : Value κ}
    (checks : Nat → Local κ)
    (hchecks : ∀ d m w q, w = .missing ∨ w.Within v →
      checks (d + 1) m w q = s.checkNode (checks d) m w q) {d depth : Nat} {w : Value κ}
    (hw : w = .missing ∨ w.Within v) (hd : w.depth < d) (hdepth : w.depth < depth) (m : NodeId)
    (q : Position) : checks d m w q = s.verifyTo depth m w q := by
  induction d generalizing depth m w q with
  | zero => exact absurd hd (Nat.not_lt_zero _)
  | succ d ih =>
      obtain _ | depth := depth
      · exact absurd hdepth (Nat.not_lt_zero _)
      rw [hchecks d m w q hw, verifyTo]
      refine checkNode_congr hs (fun m' w' q' hfield => ?_) q
      have hlt := hfield.depth_lt
      exact ih (hfield.trans_within hw) (by omega) (by omega) m' q'

theorem verifyAt_eq_checkNode (hs : s.pipeline = Pipeline.standard) (n : NodeId) (v : Value κ)
    (p : Position) : s.verifyAt n v p = s.checkNode s.verifyAt n v p := by
  refine checkNode_congr hs (fun m w q hfield => ?_) p
  exact s.eq_verifyTo_of_unfolds hs s.verifyTo (fun _ _ _ _ _ => rfl) (.inr (.refl w))
    hfield.depth_lt (Nat.lt_succ_self _) m q

end Setting

/-- A run of checks ends, also where the schema leads back to itself. It enters the value, what is
found inside it and missing values, one check inside another no more often than mappings are inside
each other in the value, and once more. On a missing value it only asks whether one is required. So
it comes to the same as any checks that unfold as often, whatever those do elsewhere or later. -/
theorem verify_bounded {s : Setting κ} [Inspect κ] (hs : s.pipeline = Pipeline.standard)
    {options : OptionsArg κ} (ho : options.resolve = .ok s.options) (n : NodeId) (v : Value κ) :
    verify s.host s.wording s.heap (.node n) v options =
        (Verdict.ofSignal <$> s.checkNode s.verifyAt n v {}).awaited ∧
      (∀ m w q, s.verifyAt m w q = s.checkNode s.verifyAt m w q) ∧
      (∀ k m w q, s.Entered n v {} k m w q →
        (w = .missing ∨ w.Within v) ∧ k ≤ v.depth + 1) ∧
      (∀ visit m q, s.checkNode visit m .missing q =
        if (s.heap.node m).required then
          s.wording.failure (.str "required") (.bool true) .missing q
        else pure .pass) ∧
      ∀ checks : Nat → Setting.Local κ,
        (∀ d m w q, w = .missing ∨ w.Within v →
          checks (d + 1) m w q = s.checkNode (checks d) m w q) →
        ∀ d, v.depth < d →
          verify s.host s.wording s.heap (.node n) v options =
            (Verdict.ofSignal <$> checks d n v {}).awaited := by
  have hverify : verify s.host s.wording s.heap (.node n) v options =
      (Verdict.ofSignal <$> s.verifyAt n v {}).awaited := by
    obtain ⟨host, wording, heap, o, pipeline⟩ := s
    obtain rfl : pipeline = Pipeline.standard := hs
    simp only [verify, ho, Run.of_ok, pure_bind, map_eq_pure_bind]
  refine ⟨?_, s.verifyAt_eq_checkNode hs, fun k m w q h => ?_, s.checkNode_missing hs,
    fun checks hchecks d hd => ?_⟩
  · rw [hverify, s.verifyAt_eq_checkNode hs]
  · obtain ⟨hw, hk⟩ := h.bound hs
    exact ⟨hw, by omega⟩
  · rw [hverify, Setting.verifyAt,
      s.eq_verifyTo_of_unfolds hs checks hchecks (.inr (.refl v)) hd (Nat.lt_succ_self _)]

namespace OrderFunction

/-- A schema that leads back to itself: an order can have a next one, which is an order. -/
def ring : Setting OrderFunction where
  host := host
  wording := wording
  heap := { nodes := [
    { registry := Heap.defaultRegistry, required := false, fields := some [("next", 0)] }] }
  options := {}

def orders : Nat → Value OrderFunction
  | 0 => .mapping .fresh []
  | n + 1 => .mapping .fresh [(.str "next", orders n)]

theorem ring_enters (n : Nat) (p : Position) :
    ring.Enters 0 (orders n) p 0 ((orders n).under "next") (p.child "next") := by
  classical
  have hcheck : ∀ visit : Setting.Local OrderFunction, ring.checkNode visit 0 (orders n) p =
      Run.inSequence [Run.settle (Run.inSequence [Run.settle (Run.inSequence
        [Run.settle (visit 0 ((orders n).under "next") (p.child "next"))])])] := by
    intro visit
    have hnested : ring.checkNested visit 0 (orders n) p =
        Run.inSequence [Run.settle (visit 0 ((orders n).under "next") (p.child "next"))] := by
      rw [Setting.checkNested, Run.ofReport_iterate]
      cases n <;> rfl
    have hfields : ring.checkFields visit 0 (orders n) p =
        Run.inSequence [Run.settle (ring.checkNested visit 0 (orders n) p)] := by
      rw [Setting.checkFields, Setting.inTurn_eq]
      cases n <;> rfl
    rw [← hnested, ← hfields, Setting.checkNode, Setting.inTurn_eq]
    cases n <;> rfl
  refine ⟨fun _ _ _ => pure .pass, fun m w q =>
    if (m, w, q) = (0, (orders n).under "next", p.child "next") then pure (.fail (.misuse .endless))
    else pure .pass, fun m w q hne => (if_neg hne).symm, ?_⟩
  rw [hcheck, hcheck, if_pos rfl]
  intro h
  cases h

end OrderFunction

/-- Of two orders the second has no next one, which is the third and last check. -/
theorem two_orders_bounded :
    OrderFunction.ring.Entered 0 (OrderFunction.orders 1) {} 3 0 .missing
        (({} : Position).child "next" |>.child "next") ∧
      ∀ k m w q, OrderFunction.ring.Entered 0 (OrderFunction.orders 1) {} k m w q → k ≤ 3 := by
  refine ⟨.nested (.nested .start (OrderFunction.ring_enters 1 {}))
    (OrderFunction.ring_enters 0 _), fun k m w q h => ?_⟩
  obtain ⟨-, -, hentered, -⟩ := verify_bounded (s := OrderFunction.ring) rfl
    (rfl : (OptionsArg.value .null).resolve = _) 0 (OrderFunction.orders 1)
  exact (hentered k m w q h).2

end SchemaTree
