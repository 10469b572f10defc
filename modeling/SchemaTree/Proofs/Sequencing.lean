import SchemaTree.Check.Node

/-!
Checks in sequence. However sequences are nested, one that never stops softly can be laid out flat
in the sequence it is part of.
-/

namespace SchemaTree

variable {ε κ ι α β : Type}

theorem map_indexed (f : α → β) (start : Nat) (xs : List α) :
    (indexed start xs).map (fun e => f e.2) = xs.map f := by
  induction xs generalizing start with
  | nil => rfl
  | cons x xs ih => simp [indexed, ih]

theorem mem_indexed {start i : Nat} {x : α} {xs : List α} :
    (i, x) ∈ indexed start xs ↔ ∃ k, i = start + k ∧ xs[k]? = some x := by
  induction xs generalizing start with
  | nil => simp [indexed]
  | cons y ys ih =>
      simp only [indexed, List.mem_cons, Prod.mk.injEq, ih]
      constructor
      · rintro (⟨rfl, rfl⟩ | ⟨k, rfl, hk⟩)
        · exact ⟨0, rfl, rfl⟩
        · exact ⟨k + 1, by omega, hk⟩
      · rintro ⟨k, rfl, hk⟩
        cases k with
        | zero => exact .inl ⟨rfl, (Option.some.inj hk).symm⟩
        | succ k => exact .inr ⟨k, by omega, hk⟩

theorem indexed_append (start : Nat) (xs ys : List α) :
    indexed start (xs ++ ys) = indexed start xs ++ indexed (start + xs.length) ys := by
  induction xs generalizing start with
  | nil => rfl
  | cons x xs ih =>
      rw [List.cons_append, indexed, ih, indexed, List.cons_append, List.length_cons,
        Nat.add_right_comm, Nat.add_assoc]

theorem indexed_eq_mapIdx (start : Nat) (xs : List α) :
    indexed start xs = xs.mapIdx fun i x => (start + i, x) := by
  induction xs generalizing start with
  | nil => rfl
  | cons x xs ih =>
      rw [indexed, ih, List.mapIdx_cons]
      simp only [Nat.add_zero, Nat.add_assoc, Nat.add_comm 1]

theorem take_indexed (start i : Nat) (xs : List α) :
    (indexed start xs).take i = indexed start (xs.take i) := by
  induction xs generalizing start i with
  | nil => simp [indexed]
  | cons x xs ih =>
      cases i with
      | zero => rfl
      | succ i => simp only [indexed, List.take_succ_cons, ih]

namespace Run

theorem ext {r q : Run ε κ α} (hevents : r.events = q.events) (houtcome : r.outcome = q.outcome) :
    r = q := by
  cases r
  cases q
  simp_all

@[simp] theorem of_ok (a : α) : (of (.ok a) : Run ε κ α) = pure a := rfl

theorem events_map (f : α → β) (r : Run ε κ α) : (f <$> r).events = r.events := by
  obtain ⟨events, e | a⟩ := r
  · rfl
  · exact List.append_nil _

theorem outcome_map (f : α → β) (r : Run ε κ α) : (f <$> r).outcome = r.outcome.map f := by
  obtain ⟨events, e | a⟩ := r <;> rfl

/-- Runs checks in turn. A soft stop ends them well, and the first failure is the result. -/
def inSequence : List (Run ε κ (Signal κ)) → Run ε κ (Signal κ)
  | [] => return .pass
  | r :: rs => do
    match ← r with
    | .pass => inSequence rs
    | .stop => return .pass
    | .fail f => return .fail f

/-- The signal of a check as a sequence takes it: a fault that does not count as true is passed
over. -/
def settle (r : Run ε κ (Signal κ)) : Run ε κ (Signal κ) := do
  match ← r with
  | .fail f => do return if ← of f.truth then .fail f else .pass
  | signal => return signal

theorem ofReport_iterate (step : ι → α → Run ε κ (Signal κ)) (entries : List (ι × α)) :
    (do return Signal.ofReport (← iterate step entries)) =
      inSequence (entries.map fun e => (step e.1 e.2).settle) := by
  rw [iterate]
  generalize ([] : List (ι × α)) = made
  induction entries generalizing made with
  | nil => rfl
  | cons e entries ih =>
      simp only [iterateWith, List.map_cons, inSequence, settle, bind_assoc]
      congr 1
      funext signal
      cases signal with
      | pass => exact ih _
      | stop => rfl
      | fail f =>
          simp only [Paced.pace]
          rcases f.truth with g | _ | _
          · rfl
          · exact ih _
          · rfl

/-- The run ends with a fault only if the fault counts as true. -/
def Settled (r : Run ε κ (Signal κ)) : Prop := ∀ f, r.outcome = .ok (.fail f) → f.truth = .ok true

theorem settle_of_settled {r : Run ε κ (Signal κ)} (hr : r.Settled) : r.settle = r := by
  obtain ⟨events, f | signal⟩ := r
  · rfl
  · cases signal with
    | fail f => simp [settle, bind, hr f rfl, of, pure]
    | _ => simp [settle, bind, pure]

theorem settled_inSequence {rs : List (Run ε κ (Signal κ))} (hrs : ∀ r ∈ rs, r.Settled) :
    (inSequence rs).Settled := by
  induction rs with
  | nil => exact nofun
  | cons r rs ih =>
      have hr : r.Settled := hrs r (by simp)
      have ih := ih fun q hq => hrs q (by simp [hq])
      intro f hf
      obtain ⟨events, g | signal⟩ := r
      · exact nomatch hf
      · cases signal with
        | pass => exact ih f hf
        | stop => exact nomatch hf
        | fail g => exact hr f hf

def NeverStops (r : Run ε κ (Signal κ)) : Prop := r.outcome ≠ .ok .stop

theorem inSequence_singleton {r : Run ε κ (Signal κ)} (hr : r.NeverStops) :
    inSequence [r] = r := by
  obtain ⟨events, f | signal⟩ := r
  · rfl
  · cases signal with
    | stop => exact absurd rfl hr
    | _ => exact Run.ext (List.append_nil events) rfl

theorem inSequence_append {rs qs : List (Run ε κ (Signal κ))} (hrs : ∀ r ∈ rs, r.NeverStops) :
    inSequence (rs ++ qs) = inSequence (inSequence rs :: qs) := by
  induction rs with
  | nil => simp [inSequence]
  | cons r rs ih =>
      have hr : r.NeverStops := hrs r (by simp)
      have ih := ih fun q hq => hrs q (by simp [hq])
      simp only [List.cons_append, inSequence, bind_assoc] at ih ⊢
      obtain ⟨events, f | signal⟩ := r
      · rfl
      · cases signal with
        | pass =>
            rw [ih]
            rfl
        | stop => exact absurd rfl hr
        | fail f => rfl

theorem inSequence_inSequence {rs : List (Run ε κ (Signal κ))} (hrs : ∀ r ∈ rs, r.NeverStops) :
    inSequence [inSequence rs] = inSequence rs := by
  rw [← inSequence_append hrs, List.append_nil]

theorem inSequence_flatMap {xs : List α} {g : α → List (Run ε κ (Signal κ))}
    (hg : ∀ x ∈ xs, ∀ r ∈ g x, r.NeverStops) :
    inSequence (xs.map fun x => inSequence (g x)) = inSequence (xs.flatMap g) := by
  induction xs with
  | nil => rfl
  | cons x xs ih =>
      have ih := ih fun y hy => hg y (by simp [hy])
      rw [List.flatMap_cons, inSequence_append (hg x (by simp)), List.map_cons]
      simp only [inSequence]
      rw [ih]

/-- What comes after a check matters only where the check passes. -/
theorem inSequence_cons_congr {r : Run ε κ (Signal κ)} {rs qs : List (Run ε κ (Signal κ))}
    (h : r.outcome = .ok .pass → inSequence rs = inSequence qs) :
    inSequence (r :: rs) = inSequence (r :: qs) := by
  obtain ⟨events, f | signal⟩ := r
  · rfl
  · cases signal with
    | pass => simp [inSequence, h rfl]
    | stop => rfl
    | fail f => rfl

end Run

end SchemaTree
