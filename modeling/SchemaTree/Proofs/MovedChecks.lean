import SchemaTree.Proofs.FailureLocation

/-!
Checks at another position. A position is only a label: from another one the same calls are made
and the same is found, and a failure has the path that leads there in front of its own. So a part
of a value is checked within the whole as it is checked alone.
-/

namespace SchemaTree

variable {κ : Type}

/-- The place to which `q` leads from `p`. -/
def Position.append (p q : Position) : Position where
  path := p.path ++ q.path
  index := q.index.or p.index

namespace Position

theorem append_root (p : Position) : p.append {} = p := by
  simp [append]

theorem append_child (p q : Position) (name : String) :
    p.append (q.child name) = (p.append q).child name := by
  simp [append, child]

theorem append_item (p q : Position) (i : Nat) :
    p.append (q.item i) = (p.append q).item i := by
  simp [append, item]

end Position

def Probe.moved (p : Position) (x : Probe κ) : Probe κ := { x with place := p.append x.place }

variable [Inspect κ]

/-- The checks that are made from a place on. -/
def Place.agenda (tests : Option (List (Value κ)) → List (Test κ)) (p : Position) :
    Place κ → List (Probe κ)
  | .node t v => t.agenda tests v p
  | .item t v => t.partProbes (v, p) ++ t.fieldProbes tests (v, p)

omit [Inspect κ] in
theorem infix_flatMap_of_mem {α β : Type} {x : α} {xs : List α} (hx : x ∈ xs) (g : α → List β) :
    g x <:+: xs.flatMap g := by
  rw [List.flatMap_def]
  exact List.infix_of_mem_flatten (List.mem_map_of_mem hx)

namespace Tree

variable {tests : Option (List (Value κ)) → List (Test κ)}

omit [Inspect κ] in
theorem parts_append (t : Tree κ) (v : Value κ) (p q : Position) :
    t.parts v (p.append q) = (t.parts v q).map fun x => (x.1, p.append x.2) := by
  unfold parts
  split
  · rfl
  · split
    · simp only [List.map_map, ← Position.append_item]
      rfl
    · rfl

theorem agenda_append (t : Tree κ) (v : Value κ) (p q : Position) :
    t.agenda tests v (p.append q) = (t.agenda tests v q).map (Probe.moved p) := by
  induction t using induction_on_fields generalizing v q with
  | step t ih =>
      have hpart (x : Value κ × Position) :
          t.partProbes (x.1, p.append x.2) ++ t.fieldProbes tests (x.1, p.append x.2) =
            (t.partProbes x ++ t.fieldProbes tests x).map (Probe.moved p) := by
        rw [List.map_append, fieldProbes, fieldProbes, List.map_flatMap]
        congr 1
        refine List.flatMap_congr fun f hf => ?_
        rw [← ih f hf, Position.append_child]
      rw [agenda_eq, agenda_eq, List.map_cons]
      congr 1
      split
      · rfl
      · rw [parts_append, List.flatMap_map, List.map_append, List.map_cons, List.map_map,
          List.map_flatMap]
        simp only [hpart]
        rfl

theorem agenda_at (t : Tree κ) (v : Value κ) (p : Position) :
    t.agenda tests v p = (t.agenda tests v {}).map (Probe.moved p) := by
  rw [← agenda_append, Position.append_root]

theorem infix_of_part {t : Tree κ} {v : Value κ} {p : Position} {part : Value κ × Position}
    (hpart : part ∈ t.parts v p) (hv : v.isMissing = false) :
    t.partProbes part ++ t.fieldProbes tests part <:+: t.agenda tests v p := by
  rw [agenda_eq, if_neg (by simp [hv])]
  have hparts := infix_flatMap_of_mem hpart fun x => t.partProbes x ++ t.fieldProbes tests x
  exact hparts.trans ((List.suffix_append ..).trans (List.suffix_cons ..)).isInfix

variable (tests) in
theorem infix_of_field {t : Tree κ} {f : String × Tree κ} (hf : f ∈ t.fieldList) (w : Value κ)
    (q : Position) :
    f.2.agenda tests (w.under f.1) (q.child f.1) <:+:
      t.partProbes (w, q) ++ t.fieldProbes tests (w, q) :=
  (infix_flatMap_of_mem hf fun f => f.2.agenda tests (w.under f.1) (q.child f.1)).trans
    (List.suffix_append ..).isInfix

omit [Inspect κ] in
theorem isSome_fields_of_mem {t : Tree κ} {f : String × Tree κ} (hf : f ∈ t.fieldList) :
    t.fields.isSome = true := by
  unfold fieldList at hf
  cases ht : t.fields with
  | none => simp [ht] at hf
  | some fs => rfl

/-- The checks of a place to which the schema and the value lead stand in one piece among those of
the whole. -/
theorem infix_of_leads {t : Tree κ} {v : Value κ} {path : List String} {index : Option Nat}
    {place : Place κ} (h : t.Leads v path index place) (p : Position) :
    place.agenda tests (p.append ⟨path, index⟩) <:+: t.agenda tests v p := by
  induction h with
  | root =>
      rw [Position.append_root p]
      exact List.infix_refl _
  | @item path index u w x i hwalk harray hfields hitem ih =>
      have hw : w.isMissing = false := by
        cases w with
        | missing => exact nomatch hitem
        | _ => rfl
      have hpart : (x, p.append ⟨path ++ [toString i], some i⟩) ∈
          u.parts w (p.append ⟨path, index⟩) :=
        mem_parts.mpr ⟨hfields, .inl ⟨harray, i, hitem, p.append_item ⟨path, index⟩ i⟩⟩
      exact (infix_of_part hpart hw).trans ih
  | @field path index u w f hwalk hsingle hmapping hf ih =>
      have hw : w.isMissing = false := by
        cases w with
        | missing => exact nomatch hmapping
        | _ => rfl
      have hpart : (w, p.append ⟨path, index⟩) ∈ u.parts w (p.append ⟨path, index⟩) :=
        mem_parts.mpr ⟨isSome_fields_of_mem hf, .inr ⟨hsingle, rfl⟩⟩
      have hfield := infix_of_field tests hf w (p.append ⟨path, index⟩)
      rw [← Position.append_child] at hfield
      exact (hfield.trans (infix_of_part hpart hw)).trans ih
  | @itemField path index u w f hwalk hmapping hf ih =>
      have hfield := infix_of_field tests hf w (p.append ⟨path, index⟩)
      rw [← Position.append_child] at hfield
      exact hfield.trans ih

end Tree

/-- The same failure, seen from the position `p`. The text of each is that of its own data. -/
structure ResultError.MovesTo (w : Wording κ) (p : Position) (e e' : ResultError κ) : Prop where
  name : e'.name = e.name
  params : e'.params = e.params
  value : e'.value = e.value
  path : e'.path = p.path.map .str ++ e.path
  index : e'.index = e.index.or (p.index.map Int.ofNat)
  text : e.message w = .ok e.text
  movedText : e'.message w = .ok e'.text

/-- A fault that is not told as the failure of a value, or that comes from making the rules of a
node: from a copy of its descriptors, or from a sequence that the mapper answers with. -/
def Setting.Hard (s : Setting κ) (t : Tree κ) (v : Value κ) (f : Fault κ) : Prop :=
  (∀ e, f ≠ .result e) ∨ s.options.validator ≠ .null ∧ ∃ path index u w,
    t.Leads v path index (.node u w) ∧ s.RulesUnmade (u.rules.getD []) f

/-- The outcome of a check at the root, and that of the same check at the position `p`. -/
inductive Setting.OutcomeMoves (s : Setting κ) (t : Tree κ) (v : Value κ) (p : Position) :
    Except (Fault κ) (Signal κ) → Except (Fault κ) (Signal κ) → Prop
  | escapes (f : Fault κ) : OutcomeMoves s t v p (.error f) (.error f)
  | passes : OutcomeMoves s t v p (.ok .pass) (.ok .pass)
  | breaks {f : Fault κ} (hf : s.Hard t v f) :
    OutcomeMoves s t v p (.ok (.fail f)) (.ok (.fail f))
  | fails {e e' : ResultError κ} (he : e.MovesTo s.wording p e') :
    OutcomeMoves s t v p (.ok (.fail (.result e))) (.ok (.fail (.result e')))

/-- The second run makes the calls of the first and comes to the same, seen from `p`. -/
structure Setting.RunMoves (s : Setting κ) (t : Tree κ) (v : Value κ) (p : Position)
    (r r' : Run (Event κ) κ (Signal κ)) : Prop where
  events : r'.events = r.events
  outcome : s.OutcomeMoves t v p r.outcome r'.outcome

theorem Wording.message_of_failure {w : Wording κ} {name params v : Value κ} {p : Position}
    {e : ResultError κ} (h : (w.failure name params v p).outcome = .ok (.fail (.result e))) :
    e.message w = .ok e.text := by
  simp only [failure, Run.outcome_bind, Run.outcome_of] at h
  split at h
  · rename_i made hmade
    obtain rfl : made = e := Fault.result.inj (Signal.fail.inj (Except.ok.inj h))
    obtain ⟨params', -, hmade⟩ := bind_eq_ok.mp hmade
    obtain ⟨value, -, hmade⟩ := bind_eq_ok.mp hmade
    obtain ⟨path, -, hmade⟩ := bind_eq_ok.mp hmade
    obtain ⟨text, htext, hmade⟩ := bind_eq_ok.mp hmade
    obtain rfl := Except.ok.inj hmade
    exact htext
  · cases h

theorem ResultError.Reports.movesTo {w : Wording κ} {name params v : Value κ} {p q : Position}
    {e e' : ResultError κ} (he : e.Reports name params v q) (htext : e.message w = .ok e.text)
    (he' : e'.Reports name params v (p.append q)) (htext' : e'.message w = .ok e'.text) :
    e.MovesTo w p e' where
  name := he'.name.trans he.name.symm
  params := Except.ok.inj (he'.params.symm.trans he.params)
  value := Except.ok.inj (he'.value.symm.trans he.value)
  path := by rw [he'.path, he.path, Position.append, List.map_append]
  index := by
    rw [he'.index, he.index, Position.append]
    cases q.index <;> rfl
  text := htext
  movedText := htext'

namespace Setting

variable {s : Setting κ} {t : Tree κ} {v : Value κ}

/-- Whether a failure can be reported does not depend on where it is. -/
theorem failure_moves (name params value : Value κ) (p q : Position) :
    s.OutcomeMoves t v p (s.wording.failure name params value q).outcome
      (s.wording.failure name params value (p.append q)).outcome := by
  cases hq : (s.wording.failure name params value q).outcome with
  | error f =>
      rw [s.wording.failure_eq_error.mpr (s.wording.failure_eq_error.mp hq)]
      exact .escapes f
  | ok signal =>
      cases hp : (s.wording.failure name params value (p.append q)).outcome with
      | error f =>
          have hfails : (s.wording.failure name params value q).outcome = .error f :=
            s.wording.failure_eq_error.mpr (s.wording.failure_eq_error.mp hp)
          exact nomatch hq.symm.trans hfails
      | ok signal' =>
          obtain ⟨e, rfl, he⟩ := s.wording.failure_eq_ok hq
          obtain ⟨e', rfl, he'⟩ := s.wording.failure_eq_ok hp
          exact .fails (he.movesTo (Wording.message_of_failure hq) he'
            (Wording.message_of_failure hp))

theorem report_moves {x : Probe κ} {found : Finding κ} (p : Position)
    (hbreaks : ∀ f, found = .breaks f → s.Hard t v f) :
    s.OutcomeMoves t v p (found.report s.wording x.value x.place)
      (found.report s.wording x.value (p.append x.place)) := by
  cases found with
  | accepts => exact .passes
  | rejects name params => exact failure_moves name params x.value p x.place
  | breaks f => exact .breaks (hbreaks f rfl)
  | escapes f => exact .escapes f

variable (hmapper : s.host.MapperAnswers s.options.validator)

include hmapper

theorem FailsFirst.hard {x : Probe κ} (hx : s.FailsFirst t v x) {f : Fault κ}
    (hf : x.finding s.host s.options.ignoreExcess = .breaks f) : s.Hard t v f := by
  obtain ⟨u, hleads, hbreaks⟩ := hx.finding_eq_breaks_iff.mp hf
  generalize x.test = test at hbreaks
  cases hbreaks with
  | rule hrule =>
      refine .inl fun e he => ?_
      rw [he] at hrule
      exact nomatch hrule.1
  | mapper hnull hbreaks =>
      by_cases hresult : ∃ e, f = .result e
      · obtain ⟨e, rfl⟩ := hresult
        exact .inr ⟨hnull, _, _, u, _, hleads, hbreaks.unmade_of_result hmapper⟩
      · exact .inl (not_exists.mp hresult)

variable (t v) in
theorem performAll_moves (p : Position) :
    s.RunMoves t v p (s.performAll (t.agenda s.tests v {}))
      (s.performAll (t.agenda s.tests v p)) := by
  rw [t.agenda_at v p]
  rcases s.accepts_or_failsFirst t v with hall | ⟨x, hx⟩
  · have hmoved : ∀ y ∈ (t.agenda s.tests v {}).map (Probe.moved p),
        y.finding s.host s.options.ignoreExcess = .accepts := by
      intro y hy
      obtain ⟨x, hx, rfl⟩ := List.mem_map.mp hy
      exact hall x hx
    rw [s.performAll_of_accepts hall, s.performAll_of_accepts hmoved]
    exact ⟨List.flatMap_map .., .passes⟩
  · obtain ⟨⟨before, after, hagenda, hbefore⟩, hne⟩ := id hx
    have hmoved : ∀ y ∈ before.map (Probe.moved p),
        y.finding s.host s.options.ignoreExcess = .accepts := by
      intro y hy
      obtain ⟨x, hx, rfl⟩ := List.mem_map.mp hy
      exact hbefore x hx
    have hne' : (x.moved p).finding s.host s.options.ignoreExcess ≠ .accepts := hne
    rw [hagenda, List.map_append, List.map_cons, s.performAll_of_first hbefore hne,
      s.performAll_of_first hmoved hne']
    constructor
    · simp only [List.flatMap_append, List.flatMap_map, List.flatMap_singleton]
      rfl
    · exact report_moves p fun f hf => hx.hard hmapper hf

variable (hs : s.pipeline = Pipeline.standard)

include hs

theorem verifyAt_moves {n : NodeId} (hn : s.heap.Holds n t) (p : Position) :
    s.RunMoves t v p (s.verifyAt n v {}) (s.verifyAt n v p) := by
  rw [verifyAt, verifyAt, verifyTo_eq hs t hn (Nat.lt_succ_self v.depth),
    verifyTo_eq hs t hn (Nat.lt_succ_self v.depth)]
  exact performAll_moves t v hmapper p

omit hmapper in
/-- The check of the whole makes the check of a part on the way, after what comes before it. -/
theorem verifyAt_runs_part {n m : NodeId} (hn : s.heap.Holds n t) (p : Position)
    {path : List String} {index : Option Nat} {u : Tree κ} {w : Value κ}
    (hleads : t.Leads v path index (.node u w)) (hm : s.heap.Holds m u) :
    ∃ before after, t.agenda s.tests v p =
        before ++ u.agenda s.tests w (p.append ⟨path, index⟩) ++ after ∧
      s.verifyAt n v p = Run.inSequence [s.performAll before,
        s.verifyAt m w (p.append ⟨path, index⟩), s.performAll after] := by
  have hinfix : u.agenda s.tests w (p.append ⟨path, index⟩) <:+: t.agenda s.tests v p :=
    Tree.infix_of_leads hleads p
  obtain ⟨before, after, hagenda⟩ := hinfix
  refine ⟨before, after, hagenda.symm, ?_⟩
  rw [verifyAt, verifyAt, verifyTo_eq hs t hn (Nat.lt_succ_self v.depth),
    verifyTo_eq hs u hm (Nat.lt_succ_self w.depth), ← hagenda]
  simpa using (s.performAll_flatMap
    [before, u.agenda s.tests w (p.append ⟨path, index⟩), after] id).symm

end Setting

end SchemaTree
