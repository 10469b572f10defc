import SchemaTree.Proofs.DocumentOrder
import SchemaTree.Proofs.OwnCopies

/-!
Soft stops, with any checks of the caller's. One ends the sequence in which it is made: the checks
of one node, or of one value or item in which fields are looked up. That sequence has then passed,
and all others are gone through as if it had done so without a stop.
-/

namespace SchemaTree

variable {κ : Type}

namespace Run

variable {ε : Type}

theorem neverStops_inSequence (rs : List (Run ε κ (Signal κ))) : (inSequence rs).NeverStops := by
  induction rs with
  | nil => simp [inSequence, NeverStops]
  | cons r rs ih =>
      obtain ⟨events, f | signal⟩ := r
      · simp [inSequence, NeverStops, outcome_bind]
      · cases signal with
        | pass => simpa [inSequence, NeverStops, outcome_bind] using ih
        | _ => simp [inSequence, NeverStops, outcome_bind]

theorem settled_settle (r : Run ε κ (Signal κ)) : r.settle.Settled := by
  intro f hf
  obtain ⟨events, g | signal⟩ := r
  · cases hf
  · cases signal with
    | fail g =>
        simp only [settle, outcome_bind] at hf
        rcases htruth : g.truth with e | _ | _ <;> rw [htruth] at hf
        · cases hf
        · cases hf
        · obtain rfl := Signal.fail.inj (Except.ok.inj hf)
          exact htruth
    | _ => cases hf

def onward (r : Run ε κ (Signal κ)) : Run ε κ (Signal κ) :=
  (fun | .stop => .pass | signal => signal) <$> r

theorem neverStops_onward (r : Run ε κ (Signal κ)) : r.onward.NeverStops := by
  obtain ⟨events, f | signal⟩ := r
  · exact nofun
  · cases signal <;> exact nofun

theorem settled_onward {r : Run ε κ (Signal κ)} (hr : r.Settled) : r.onward.Settled := by
  intro f hf
  obtain ⟨events, g | signal⟩ := r
  · exact nomatch hf
  · cases signal with
    | fail g => exact hr f hf
    | _ => exact nomatch hf

theorem onward_eq {r : Run ε κ (Signal κ)} (hr : r.NeverStops) : r.onward = r := by
  obtain ⟨events, f | signal⟩ := r
  · rfl
  · cases signal with
    | stop => exact absurd rfl hr
    | _ => exact Run.ext (List.append_nil _) rfl

end Run

structure CheckCall (κ : Type) where
  stage : Stage
  node : NodeId
  value : Value κ
  place : Position

/-- The calls of the sequence that opens with this one: of a node, or of a value in which fields are
looked up. -/
def CheckCall.sequence (c : CheckCall κ) : List (CheckCall κ) :=
  match c.stage with
  | .required =>
    [c, { c with stage := .shape }, { c with stage := .rules }, { c with stage := .contents }]
  | .mapping => [c, { c with stage := .excess }, { c with stage := .nested }]
  | _ => []

namespace Setting

variable [Inspect κ] (s : Setting κ)

/-- What a check of this library says itself. Two of them say nothing but lead to sequences. -/
def own : Stage → Local κ
  | .required => s.checkRequired
  | .shape => s.checkShape
  | .rules => s.checkRules
  | .mapping => s.checkMapping
  | .excess => s.checkExcess
  | .contents | .fields | .nested => fun _ _ _ => pure .pass

/-- What a check says, as its sequence takes it. -/
def answer (c : CheckCall κ) : Run (Event κ) κ (Signal κ) :=
  (s.stage c.stage (s.own c.stage) c.node c.value c.place).settle

def parts (n : NodeId) (v : Value κ) (p : Position) : List (Value κ × Position) :=
  if (s.heap.node n).fields.isNone then []
  else if s.isArray n then
    match v.elements with
    | .ok items => (indexed 0 items).map fun x => (x.2, p.item x.1)
    | .error _ => []
  else [(v, p)]

/-- The calls that open the sequences to which a call leads: one for each value in which fields are
looked up, or one for each field. The caller's checks lead to none. -/
def within (c : CheckCall κ) : List (CheckCall κ) :=
  match c.stage, s.pipeline c.stage with
  | .contents, none =>
    (s.parts c.node c.value c.place).map fun x => ⟨.mapping, c.node, x.1, x.2⟩
  | .nested, none =>
    ((s.heap.node c.node).fields.getD []).map fun f =>
      ⟨.required, f.2, c.value.under f.1, c.place.child f.1⟩
  | _, _ => []

def upToStop : List (CheckCall κ) → List (CheckCall κ)
  | [] => []
  | c :: cs =>
    match (s.answer c).outcome with
    | .ok .stop => [c]
    | _ => c :: upToStop cs

/-- A call of the sequence that opens with the root, or of one to which such a call leads, where no
call before it in its own sequence stops softly. -/
inductive Due (root : CheckCall κ) : CheckCall κ → Prop
  | start {c : CheckCall κ} (hc : c ∈ s.upToStop root.sequence) : Due root c
  | within {c opening d : CheckCall κ} (hc : Due root c) (hopening : opening ∈ s.within c)
    (hd : d ∈ s.upToStop opening.sequence) : Due root d

/-- The calls that are due, in order: those of a sequence, each before the ones of the sequences to
which it leads. No more than `bound` sequences are gone into. -/
def trail : (bound : Nat) → CheckCall κ → List (CheckCall κ)
  | 0, _ => []
  | bound + 1, opening =>
    (s.upToStop opening.sequence).flatMap fun c => c :: (s.within c).flatMap (trail bound)

/-- Sequences are inside each other no deeper than that. -/
def Fits : (bound : Nat) → CheckCall κ → Prop
  | 0, _ => False
  | bound + 1, opening => ∀ c ∈ s.upToStop opening.sequence, ∀ d ∈ s.within c, Fits bound d

section due

variable {s} {bound : Nat} {root c d : CheckCall κ}

theorem Due.prepend {opening : CheckCall κ} (hd : s.Due opening d) (hc : s.Due root c)
    (hopening : opening ∈ s.within c) : s.Due root d := by
  induction hd with
  | start hd => exact .within hc hopening hd
  | within _ hinner hd ih => exact .within ih hinner hd

theorem due_of_mem_trail (h : d ∈ s.trail bound root) : s.Due root d := by
  induction bound generalizing root with
  | zero => exact nomatch h
  | succ bound ih =>
      obtain ⟨c, hc, hd⟩ := List.mem_flatMap.mp h
      rcases List.mem_cons.mp hd with rfl | hd
      · exact .start hc
      · obtain ⟨opening, hopening, hd⟩ := List.mem_flatMap.mp hd
        exact (ih hd).prepend (.start hc) hopening

theorem Fits.mem_trail (h : s.Fits bound root) (hd : d ∈ s.upToStop root.sequence) :
    d ∈ s.trail bound root := by
  cases bound with
  | zero => exact h.elim
  | succ bound => exact List.mem_flatMap.mpr ⟨d, hd, List.mem_cons_self⟩

theorem Fits.mem_trail_within {opening : CheckCall κ} (h : s.Fits bound root)
    (hc : c ∈ s.trail bound root) (hopening : opening ∈ s.within c)
    (hd : d ∈ s.upToStop opening.sequence) : d ∈ s.trail bound root := by
  induction bound generalizing root with
  | zero => exact h.elim
  | succ bound ih =>
      obtain ⟨b, hb, hc⟩ := List.mem_flatMap.mp hc
      refine List.mem_flatMap.mpr ⟨b, hb, List.mem_cons_of_mem _ (List.mem_flatMap.mpr ?_)⟩
      rcases List.mem_cons.mp hc with rfl | hc
      · exact ⟨opening, hopening, (h c hb opening hopening).mem_trail hd⟩
      · obtain ⟨inner, hinner, hc⟩ := List.mem_flatMap.mp hc
        exact ⟨inner, hinner, ih (h b hb inner hinner) hc⟩

theorem Fits.mem_trail_of_due (h : s.Fits bound root) (hd : s.Due root d) :
    d ∈ s.trail bound root := by
  induction hd with
  | start hd => exact h.mem_trail hd
  | within _ hopening hd ih => exact h.mem_trail_within ih hopening hd

end due

/-- Makes the calls in turn and takes soft stops for passes. -/
def goThrough (calls : List (CheckCall κ)) : Run (Event κ) κ (Signal κ) :=
  Run.inSequence (calls.map fun c => (s.answer c).onward)

theorem goThrough_append (xs ys : List (CheckCall κ)) :
    s.goThrough (xs ++ ys) = Run.inSequence [s.goThrough xs, s.goThrough ys] := by
  have honward : ∀ r ∈ xs.map fun c => (s.answer c).onward, r.NeverStops := by
    intro r hr
    obtain ⟨c, -, rfl⟩ := List.mem_map.mp hr
    exact Run.neverStops_onward _
  rw [goThrough, List.map_append, Run.inSequence_append honward]
  refine Run.inSequence_cons_congr fun _ => ?_
  exact (Run.inSequence_singleton (Run.neverStops_inSequence _)).symm

theorem settled_goThrough (calls : List (CheckCall κ)) : (s.goThrough calls).Settled := by
  refine Run.settled_inSequence fun r hr => ?_
  obtain ⟨c, -, rfl⟩ := List.mem_map.mp hr
  exact Run.settled_onward (Run.settled_settle _)

/-- Unless the run raises, it goes through the calls; and where it passes, this holds. -/
def RunsAlong (r : Run (Event κ) κ (Signal κ)) (calls : List (CheckCall κ)) (P : Prop) : Prop :=
  ∀ signal, r.outcome = .ok signal → r = s.goThrough calls ∧ (signal = .pass → P)

section runsAlong

variable {s} {r : Run (Event κ) κ (Signal κ)} {rs : List (Run (Event κ) κ (Signal κ))}
  {calls later : List (CheckCall κ)} {P Q : Prop}

theorem runsAlong_of_error {f : Fault κ} (h : r.outcome = .error f) : s.RunsAlong r calls P := by
  intro signal hsignal
  rw [h] at hsignal
  exact nomatch hsignal

theorem RunsAlong.settle (h : s.RunsAlong r calls P) : s.RunsAlong r.settle calls P := by
  intro signal hsignal
  obtain ⟨events, f | first⟩ := r
  · exact nomatch hsignal
  obtain ⟨hcalls, hP⟩ := h first rfl
  have hsettled : (⟨events, .ok first⟩ : Run (Event κ) κ (Signal κ)).settle =
      ⟨events, .ok first⟩ := by
    rw [hcalls]
    exact Run.settle_of_settled (s.settled_goThrough calls)
  rw [hsettled] at hsignal ⊢
  exact h signal hsignal

theorem RunsAlong.cons (hr : s.RunsAlong r calls P)
    (hrs : s.RunsAlong (Run.inSequence rs) later Q) :
    s.RunsAlong (Run.inSequence (r :: rs)) (calls ++ later) (P ∧ Q) := by
  intro signal hsignal
  obtain ⟨events, f | first⟩ := r
  · simp [Run.inSequence, Run.outcome_bind] at hsignal
  obtain ⟨hcalls, hP⟩ := hr first rfl
  -- What stops within the first run is taken for a pass there, so that the others are still run.
  have hstops : Run.NeverStops ⟨events, .ok first⟩ := by
    rw [hcalls]
    exact Run.neverStops_inSequence _
  rw [goThrough_append, ← hcalls]
  cases first with
  | pass =>
      have hrest : (Run.inSequence rs).outcome = .ok signal := by
        simpa [Run.inSequence, Run.outcome_bind] using hsignal
      obtain ⟨hlater, hQ⟩ := hrs signal hrest
      refine ⟨Run.inSequence_cons_congr fun _ => ?_, fun h => ⟨hP rfl, hQ h⟩⟩
      rw [← hlater, Run.inSequence_singleton (Run.neverStops_inSequence rs)]
  | stop => exact absurd rfl hstops
  | fail f =>
      refine ⟨Run.inSequence_cons_congr fun hpass => absurd hpass (by simp), ?_⟩
      rintro rfl
      simp [Run.inSequence, Run.outcome_bind] at hsignal

theorem runsAlong_flatMap {α : Type} {xs : List α} {f : α → Run (Event κ) κ (Signal κ)}
    {g : α → List (CheckCall κ)} {P : α → Prop}
    (h : ∀ x ∈ xs, s.RunsAlong (f x) (g x) (P x)) :
    s.RunsAlong (Run.inSequence (xs.map f)) (xs.flatMap g) (∀ x ∈ xs, P x) := by
  induction xs with
  | nil => exact fun _ _ => ⟨rfl, fun _ => List.forall_mem_nil _⟩
  | cons x xs ih =>
      rw [List.forall_mem_cons] at h ⊢
      exact h.1.cons (ih h.2)

/-- A check runs as a call that leads to no others, or says nothing and runs along others. -/
def CallRuns (s : Setting κ) (c : CheckCall κ) (r : Run (Event κ) κ (Signal κ))
    (calls : List (CheckCall κ)) (P : Prop) : Prop :=
  r = s.answer c ∧ calls = [] ∧ P ∨ s.answer c = pure .pass ∧ s.RunsAlong r calls P

theorem CallRuns.runsAlong {c : CheckCall κ} (h : s.CallRuns c r calls P)
    (hstops : (s.answer c).NeverStops) : s.RunsAlong r (c :: calls) P := by
  rcases h with ⟨rfl, rfl, hP⟩ | ⟨hanswer, hr⟩
  · intro signal _
    refine ⟨?_, fun _ => hP⟩
    rw [goThrough, List.map_singleton, Run.onward_eq hstops, Run.inSequence_singleton hstops]
  · have hcalls : s.goThrough (c :: calls) = s.goThrough calls := by
      rw [goThrough, List.map_cons, hanswer]
      rfl
    rw [RunsAlong, hcalls]
    exact hr

theorem CallRuns.runsAlong_of_stop {c : CheckCall κ} (h : s.CallRuns c r calls P)
    (hstop : (s.answer c).outcome = .ok .stop) :
    s.RunsAlong (Run.inSequence (r :: rs)) (c :: calls) P := by
  rcases h with ⟨rfl, rfl, hP⟩ | ⟨hanswer, -⟩
  · refine fun signal _ => ⟨?_, fun _ => hP⟩
    rw [goThrough, List.map_singleton]
    generalize s.answer c = r at hstop
    obtain ⟨events, f | signal⟩ := r
    · exact nomatch hstop
    · obtain rfl := Except.ok.inj hstop
      exact Run.ext (List.append_assoc events [] []).symm rfl
  · rw [hanswer] at hstop
    exact nomatch hstop

theorem runsAlong_upToStop {cs : List (CheckCall κ)} {f : CheckCall κ → Run (Event κ) κ (Signal κ)}
    {g : CheckCall κ → List (CheckCall κ)} {P : CheckCall κ → Prop}
    (h : ∀ c ∈ cs, s.CallRuns c (f c) (g c) (P c)) :
    s.RunsAlong (Run.inSequence (cs.map f)) ((s.upToStop cs).flatMap fun c => c :: g c)
      (∀ c ∈ s.upToStop cs, P c) := by
  induction cs with
  | nil => exact fun _ _ => ⟨rfl, fun _ => List.forall_mem_nil _⟩
  | cons c cs ih =>
      rw [List.forall_mem_cons] at h
      by_cases hstop : (s.answer c).outcome = .ok .stop
      · have hcut : s.upToStop (c :: cs) = [c] := by
          simp only [upToStop, hstop]
        rw [hcut, List.flatMap_singleton, List.forall_mem_singleton]
        exact h.1.runsAlong_of_stop hstop
      · have hgoes : s.upToStop (c :: cs) = c :: s.upToStop cs := by
          rw [upToStop]
          split
          · exact absurd ‹_› hstop
          · rfl
        rw [hgoes, List.flatMap_cons, List.forall_mem_cons]
        exact (h.1.runsAlong hstop).cons (ih h.2)

end runsAlong

/-- A check as it runs, with `visit` for the nodes of fields. -/
def whole (visit : Local κ) : Stage → Local κ
  | .contents => s.checkContents visit
  | .fields => s.checkFields visit
  | .nested => s.checkNested visit
  | st => s.own st

def makeCall (visit : Local κ) (c : CheckCall κ) : Run (Event κ) κ (Signal κ) :=
  (s.stage c.stage (s.whole visit c.stage) c.node c.value c.place).settle

theorem checkNode_eq_inSequence (visit : Local κ) (n : NodeId) (v : Value κ) (p : Position) :
    s.checkNode visit n v p = Run.inSequence
      ((⟨.required, n, v, p⟩ : CheckCall κ).sequence.map (s.makeCall visit)) := by
  rw [checkNode, inTurn_eq]
  rfl

theorem checkFields_eq_inSequence (visit : Local κ) (n : NodeId) (v : Value κ) (p : Position) :
    s.checkFields visit n v p = Run.inSequence
      ((⟨.mapping, n, v, p⟩ : CheckCall κ).sequence.map (s.makeCall visit)) := by
  rw [checkFields, inTurn_eq]
  rfl

/-- The check runs along the trails of the sequences that open at this stage. -/
def KeepsTrails (bound : Nat) (opening : Stage) (check : Local κ) : Prop :=
  ∀ n v p, s.RunsAlong (check n v p) (s.trail bound ⟨opening, n, v, p⟩)
    (s.Fits bound ⟨opening, n, v, p⟩)

section calls

variable {s} {visit : Local κ} {bound : Nat} {n : NodeId} {v : Value κ} {p : Position}

theorem checkNested_runsAlong (h : s.KeepsTrails bound .required visit) :
    s.RunsAlong (s.checkNested visit n v p)
      (((s.heap.node n).fields.getD []).flatMap fun f =>
        s.trail bound ⟨.required, f.2, v.under f.1, p.child f.1⟩)
      (∀ f ∈ (s.heap.node n).fields.getD [],
        s.Fits bound ⟨.required, f.2, v.under f.1, p.child f.1⟩) := by
  simp only [checkNested, Run.ofReport_iterate]
  refine runsAlong_flatMap fun f _ => ?_
  by_cases hv : v.isMapping = true
  · rw [Value.fieldValue_of_isMapping hv, Run.of_ok, pure_bind]
    exact (h f.2 (v.under f.1) (p.child f.1)).settle
  · refine runsAlong_of_error (f := .misuse .noSuchPart) ?_
    cases v with
    | mapping m es => exact absurd rfl hv
    | _ => rfl

theorem checkContents_runsAlong (hfields : s.pipeline .fields = none)
    (h : s.KeepsTrails bound .mapping (s.checkFields visit)) :
    s.RunsAlong (s.checkContents visit n v p)
      ((s.parts n v p).flatMap fun x => s.trail bound ⟨.mapping, n, x.1, x.2⟩)
      (∀ x ∈ s.parts n v p, s.Fits bound ⟨.mapping, n, x.1, x.2⟩) := by
  have hstage : s.stage .fields (s.checkFields visit) = s.checkFields visit := by
    rw [stage, hfields]
  simp only [checkContents, parts, hstage]
  split
  · exact fun _ _ => ⟨rfl, fun _ => List.forall_mem_nil _⟩
  split
  · cases v.elements with
    | error f => exact runsAlong_of_error rfl
    | ok items =>
        simp only [Run.of_ok, pure_bind, iterateList, Run.ofReport_iterate]
        rw [List.flatMap_map, List.forall_mem_map]
        exact runsAlong_flatMap fun x _ => (h n x.2 (p.item x.1)).settle
  · rw [List.flatMap_singleton, List.forall_mem_singleton]
    exact h n v p

/-- What comes of a call, with the sequences to which it leads gone into so far. -/
def RunsWithin (s : Setting κ) (bound : Nat) (visit : Local κ) (c : CheckCall κ) : Prop :=
  s.CallRuns c (s.makeCall visit c) ((s.within c).flatMap (s.trail bound))
    (∀ d ∈ s.within c, s.Fits bound d)

theorem runsWithin_of_plain {c : CheckCall κ} (hwithin : s.within c = [])
    (hcall : s.makeCall visit c = s.answer c) : s.RunsWithin bound visit c := by
  rw [RunsWithin, hwithin]
  exact .inl ⟨hcall, rfl, List.forall_mem_nil _⟩

theorem runsWithin_of_replaced {c : CheckCall κ} {check : Check κ}
    (hreplaced : s.pipeline c.stage = some check) : s.RunsWithin bound visit c := by
  refine runsWithin_of_plain ?_ ?_
  · unfold within
    split <;> simp_all
  · simp only [makeCall, answer, stage, hreplaced]

theorem runsWithin_nested (h : s.KeepsTrails bound .required visit) :
    s.RunsWithin bound visit ⟨.nested, n, v, p⟩ := by
  cases hown : s.pipeline .nested with
  | some check => exact runsWithin_of_replaced hown
  | none =>
      refine .inr ⟨?_, ?_⟩
      · simp only [answer, stage, hown, own]
        rfl
      · simp only [makeCall, stage, hown, whole, within, List.flatMap_map, List.forall_mem_map]
        exact (checkNested_runsAlong h).settle

theorem runsWithin_contents (hfields : s.pipeline .fields = none)
    (h : s.KeepsTrails bound .mapping (s.checkFields visit)) :
    s.RunsWithin bound visit ⟨.contents, n, v, p⟩ := by
  cases hown : s.pipeline .contents with
  | some check => exact runsWithin_of_replaced hown
  | none =>
      refine .inr ⟨?_, ?_⟩
      · simp only [answer, stage, hown, own]
        rfl
      · simp only [makeCall, stage, hown, whole, within, List.flatMap_map, List.forall_mem_map]
        exact (checkContents_runsAlong hfields h).settle

theorem checkFields_keepsTrails (h : s.KeepsTrails bound .required visit) :
    s.KeepsTrails (bound + 1) .mapping (s.checkFields visit) := by
  intro n v p
  have hcalls : ∀ c ∈ (⟨.mapping, n, v, p⟩ : CheckCall κ).sequence, s.RunsWithin bound visit c := by
    simp only [CheckCall.sequence, List.forall_mem_cons]
    exact ⟨runsWithin_of_plain rfl rfl, runsWithin_of_plain rfl rfl, runsWithin_nested h,
      List.forall_mem_nil _⟩
  rw [checkFields_eq_inSequence]
  exact runsAlong_upToStop hcalls

theorem checkNode_keepsTrails (hfields : s.pipeline .fields = none)
    (h : s.KeepsTrails bound .mapping (s.checkFields visit)) :
    s.KeepsTrails (bound + 1) .required (s.checkNode visit) := by
  intro n v p
  have hcalls : ∀ c ∈ (⟨.required, n, v, p⟩ : CheckCall κ).sequence,
      s.RunsWithin bound visit c := by
    simp only [CheckCall.sequence, List.forall_mem_cons]
    exact ⟨runsWithin_of_plain rfl rfl, runsWithin_of_plain rfl rfl, runsWithin_of_plain rfl rfl,
      runsWithin_contents hfields h, List.forall_mem_nil _⟩
  rw [checkNode_eq_inSequence]
  exact runsAlong_upToStop hcalls

/-- A level of the schema is two sequences deep. -/
theorem verifyTo_keepsTrails (hfields : s.pipeline .fields = none) (depth : Nat) :
    s.KeepsTrails (2 * depth) .required (s.verifyTo depth) := by
  induction depth with
  | zero => exact fun n v p => runsAlong_of_error rfl
  | succ depth ih => exact checkNode_keepsTrails hfields (checkFields_keepsTrails ih)

end calls

/-- The check passes or stops softly. -/
def GoesOn (c : CheckCall κ) : Prop :=
  (s.answer c).outcome = .ok .pass ∨ (s.answer c).outcome = .ok .stop

/-- What has been done with the calls by when they have come to the signal: each of them was made,
or those up to the first one that failed. -/
inductive ComesTo (run : Run (Event κ) κ (Signal κ)) (calls : List (CheckCall κ)) :
    Signal κ → Prop
  | pass (hcalls : ∀ c ∈ calls, s.GoesOn c)
    (hevents : run.events = calls.flatMap fun c => (s.answer c).events) : ComesTo run calls .pass
  | fail {f : Fault κ} {before after : List (CheckCall κ)} {c : CheckCall κ}
    (hcalls : calls = before ++ c :: after) (hbefore : ∀ d ∈ before, s.GoesOn d)
    (hfails : (s.answer c).outcome = .ok (.fail f))
    (hevents : run.events = (before ++ [c]).flatMap fun d => (s.answer d).events) :
    ComesTo run calls (.fail f)

variable {s}

theorem goThrough_cons_of_goesOn {c : CheckCall κ} (hc : s.GoesOn c) (cs : List (CheckCall κ)) :
    s.goThrough (c :: cs) =
      ⟨(s.answer c).events ++ (s.goThrough cs).events, (s.goThrough cs).outcome⟩ := by
  unfold GoesOn at hc
  rw [goThrough, List.map_cons]
  generalize s.answer c = r at hc
  obtain ⟨events, outcome⟩ := r
  have honward : (⟨events, outcome⟩ : Run (Event κ) κ (Signal κ)).onward = ⟨events, .ok .pass⟩ := by
    rcases hc with rfl | rfl <;> exact Run.ext (List.append_nil _) rfl
  rw [honward]
  rfl

theorem goThrough_cons_of_fail {c : CheckCall κ} {f : Fault κ}
    (hc : (s.answer c).outcome = .ok (.fail f)) (cs : List (CheckCall κ)) :
    s.goThrough (c :: cs) = s.answer c := by
  have hstops : (s.answer c).NeverStops := by
    rw [Run.NeverStops, hc]
    exact nofun
  rw [goThrough, List.map_cons, Run.onward_eq hstops]
  generalize s.answer c = r at hc
  obtain ⟨events, outcome⟩ := r
  obtain rfl : outcome = .ok (.fail f) := hc
  exact Run.ext (List.append_nil _) rfl

theorem ComesTo.cons {r : Run (Event κ) κ (Signal κ)} {calls : List (CheckCall κ)}
    {signal : Signal κ} {c : CheckCall κ} (hc : s.GoesOn c) (h : s.ComesTo r calls signal) :
    s.ComesTo ⟨(s.answer c).events ++ r.events, r.outcome⟩ (c :: calls) signal := by
  cases h with
  | pass hcalls hevents =>
      refine .pass (List.forall_mem_cons.mpr ⟨hc, hcalls⟩) ?_
      rw [List.flatMap_cons, hevents]
  | @fail f before after d hcalls hbefore hfails hevents =>
      have hcons : c :: calls = (c :: before) ++ d :: after := by rw [hcalls, List.cons_append]
      refine .fail hcons (List.forall_mem_cons.mpr ⟨hc, hbefore⟩) hfails ?_
      rw [List.cons_append, List.flatMap_cons, hevents]

theorem goThrough_comesTo {calls : List (CheckCall κ)} {signal : Signal κ}
    (h : (s.goThrough calls).outcome = .ok signal) :
    s.ComesTo (s.goThrough calls) calls signal := by
  induction calls with
  | nil =>
      obtain rfl := Except.ok.inj h
      exact .pass nofun rfl
  | cons c cs ih =>
      have hgoes (hc : s.GoesOn c) : s.ComesTo (s.goThrough (c :: cs)) (c :: cs) signal := by
        rw [goThrough_cons_of_goesOn hc] at h ⊢
        exact (ih h).cons hc
      cases hanswer : (s.answer c).outcome with
      | error f =>
          rw [goThrough, List.map_cons] at h
          generalize s.answer c = r at h hanswer
          obtain ⟨events, outcome⟩ := r
          obtain rfl : outcome = .error f := hanswer
          exact nomatch h
      | ok first =>
          cases first with
          | pass => exact hgoes (.inl hanswer)
          | stop => exact hgoes (.inr hanswer)
          | fail f =>
              rw [goThrough_cons_of_fail hanswer] at h ⊢
              obtain rfl := Except.ok.inj (hanswer.symm.trans h)
              refine .fail (List.nil_append (c :: cs)).symm nofun hanswer ?_
              rw [List.nil_append, List.flatMap_singleton]

/-- Whatever checks take the place of the ones of a node or of its fields, a soft stop ends the
sequence in which it is made and no other. Where nothing raises, all calls are made that no soft
stop before them in their own sequence cuts off, or those of them up to the first that fails; and
the run comes to that failure or passes. -/
theorem soft_stop_ends_only_its_sequence (hfields : s.pipeline .fields = none)
    {root : CheckCall κ} (hroot : root.stage = .required) {depth : Nat} {signal : Signal κ}
    (h : (s.verifyTo depth root.node root.value root.place).outcome = .ok signal) :
    s.ComesTo (s.verifyTo depth root.node root.value root.place) (s.trail (2 * depth) root) signal ∧
      (∀ c ∈ s.trail (2 * depth) root, s.Due root c) ∧
      (signal = .pass → ∀ c, s.Due root c → c ∈ s.trail (2 * depth) root) ∧
      signal ≠ .stop ∧ ∀ visit n v p, (s.checkFields visit n v p).outcome ≠ .ok .stop := by
  obtain ⟨stage, n, v, p⟩ := root
  obtain rfl : stage = .required := hroot
  obtain ⟨hrun, hfits⟩ := verifyTo_keepsTrails hfields depth n v p signal h
  have hcomes : s.ComesTo (s.verifyTo depth n v p) (s.trail (2 * depth) ⟨.required, n, v, p⟩)
      signal := by
    rw [hrun] at h ⊢
    exact goThrough_comesTo h
  refine ⟨hcomes, fun c => due_of_mem_trail, fun hpass c => (hfits hpass).mem_trail_of_due, ?_, ?_⟩
  · rintro rfl
    exact nomatch hcomes
  · intro visit n v p
    rw [checkFields_eq_inSequence]
    exact Run.neverStops_inSequence _

end Setting

namespace OrderFunction

/-- Skips what else would be asked of a count that is zero, and asks nothing of shapes. -/
def skippingZeros : Pipeline OrderFunction
  | .shape => some fun _ _ _ v _ => match v with
    | .int 0 => pure .stop
    | _ => pure .pass
  | _ => none

end OrderFunction

/-- The first count of the order is skipped, and the second one is still checked. -/
theorem zero_count_skipped :
    ∃ (s : Setting OrderFunction) (root : CheckCall OrderFunction),
      s = { OrderFunction.setting [.object .positive] with
        pipeline := OrderFunction.skippingZeros } ∧
      root = ⟨.required, 2, OrderFunction.ofCounts [0, 5], {}⟩ ∧
      (s.verifyAt root.node root.value root.place).events = [.rule .positive (.int 5)] ∧
      s.ComesTo (s.verifyAt root.node root.value root.place) (s.trail 6 root) .pass ∧
      ∀ c, s.Due root c ↔ c ∈ s.trail 6 root := by
  refine ⟨_, _, rfl, rfl, by with_unfolding_all rfl, ?_⟩
  have hpasses : (Setting.verifyTo { OrderFunction.setting [.object .positive] with
      pipeline := OrderFunction.skippingZeros } 3 2 (OrderFunction.ofCounts [0, 5]) {}).outcome =
        .ok .pass := by with_unfolding_all rfl
  obtain ⟨hcomes, hdue, htrail, -⟩ := Setting.soft_stop_ends_only_its_sequence rfl
    (rfl : (⟨.required, 2, OrderFunction.ofCounts [0, 5], {}⟩ : CheckCall OrderFunction).stage = _)
    hpasses
  exact ⟨hcomes, fun c => ⟨htrail rfl c, hdue c⟩⟩

end SchemaTree
