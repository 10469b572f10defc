import SchemaTree.Proofs.EarliestFailure

/-!
The first signal that counts as true. A step is called for each entry in turn up to the one that
gives such a signal, and for none after it. The signal is the result of the sequence, unless it is
`true` itself, which ends the sequence without a result. This is shown for `iterateWith` and so for
its instances `iterate` and `iterateList`, whose steps remember nothing.
-/

namespace SchemaTree

variable {ε κ ι α : Type}

section calls

variable {σ : Type} (step : List (ι × α) → ι → α → Run ε κ σ)

/-- The calls of a step for entries, each after the ones for the entries before it and for those
that were `made` first. -/
def callsFor (made entries : List (ι × α)) : List (Run ε κ σ) :=
  entries.mapIdx fun i e => step ((entries.take i).reverse ++ made) e.1 e.2

theorem callsFor_cons (made : List (ι × α)) (e : ι × α) (entries : List (ι × α)) :
    callsFor step made (e :: entries) =
      step made e.1 e.2 :: callsFor step (e :: made) entries := by
  simp [callsFor, List.mapIdx_cons]

theorem exists_entry_of_callsFor {made entries : List (ι × α)} {before after : List (Run ε κ σ)}
    {r : Run ε κ σ} (h : callsFor step made entries = before ++ r :: after) :
    ∃ xs e ys, entries = xs ++ e :: ys ∧ callsFor step made xs = before ∧
      step (xs.reverse ++ made) e.1 e.2 = r := by
  induction before generalizing made entries with
  | nil =>
      cases entries with
      | nil => exact nomatch h
      | cons e ys =>
          rw [callsFor_cons] at h
          exact ⟨[], e, ys, rfl, rfl, (List.cons.inj h).1⟩
  | cons b before ih =>
      cases entries with
      | nil => exact nomatch h
      | cons x entries =>
          rw [callsFor_cons, List.cons_append] at h
          obtain ⟨hb, hrest⟩ := List.cons.inj h
          obtain ⟨xs, e, ys, rfl, hxs, hr⟩ := ih hrest
          refine ⟨x :: xs, e, ys, rfl, ?_, ?_⟩
          · rw [callsFor_cons, hb, hxs]
          · rw [← hr, List.reverse_cons, List.append_assoc, List.singleton_append]

end calls

section lists

variable {σ : Type} (step : List (Nat × α) → Nat → α → Run ε κ σ)

def callsAt (xs : List α) : List (Run ε κ σ) :=
  xs.mapIdx fun i x => step ((xs.take i).mapIdx Prod.mk).reverse i x

/-- The step as it goes on after the items `xs`, whose places are taken. -/
def laterStep (xs : List α) : List (Nat × α) → Nat → α → Run ε κ σ :=
  fun made i x =>
    step (made.map (fun e => (xs.length + e.1, e.2)) ++ (indexed 0 xs).reverse) (xs.length + i) x

theorem callsAt_eq (xs : List α) : callsAt step xs = callsFor step [] (indexed 0 xs) := by
  unfold callsAt callsFor
  simp only [take_indexed, List.append_nil]
  simp only [indexed_eq_mapIdx, Nat.zero_add, List.mapIdx_mapIdx]
  rfl

theorem iterateWith_later [Paced κ σ] (made : List (Nat × α)) (start : Nat) (xs ys : List α) :
    iterateWith step (made.map (fun e => (xs.length + e.1, e.2)) ++ (indexed 0 xs).reverse)
        (indexed (xs.length + start) ys) =
      iterateWith (laterStep step xs) made (indexed start ys) := by
  induction ys generalizing start made with
  | nil => rfl
  | cons y ys ih =>
      have ih := ih ((start, y) :: made) (start + 1)
      rw [List.map_cons, List.cons_append, ← Nat.add_assoc] at ih
      rw [indexed, indexed, iterateWith, iterateWith, ih]
      rfl

end lists

variable [Inspect κ]

/-- Whether the signal that a call gives counts as true. A call that raises does not say. -/
def Run.truth (r : Run ε κ (Value κ)) : Except (Fault κ) Bool := r.outcome >>= Value.isTrue

def Value.report? : Value κ → Option (Value κ)
  | .bool true => none
  | signal => some signal

/-- A run goes through calls up to the first one whose signal counts as true, or through all of
them. What a call raises, or what asking its signal raises, ends the run too. -/
structure EndsAtFirstTrue (calls : List (Run ε κ (Value κ))) (run : Run ε κ (Option (Value κ))) :
    Prop where
  of_all_false (hcalls : ∀ r ∈ calls, r.truth = .ok false) :
    run = ⟨calls.flatMap (·.events), .ok none⟩
  of_true {before after : List (Run ε κ (Value κ))} {r : Run ε κ (Value κ)} {signal : Value κ}
    (hcalls : calls = before ++ r :: after) (hbefore : ∀ b ∈ before, b.truth = .ok false)
    (hsignal : r.outcome = .ok signal) (htrue : signal.isTrue = .ok true) :
    run = ⟨(before ++ [r]).flatMap (·.events), .ok signal.report?⟩
  of_error {before after : List (Run ε κ (Value κ))} {r : Run ε κ (Value κ)} {f : Fault κ}
    (hcalls : calls = before ++ r :: after) (hbefore : ∀ b ∈ before, b.truth = .ok false)
    (herror : r.truth = .error f) :
    run = ⟨(before ++ [r]).flatMap (·.events), .error f⟩

section iterateWith

variable {step : List (ι × α) → ι → α → Run ε κ (Value κ)} {made : List (ι × α)} {e : ι × α}
  {signal : Value κ}

theorem iterateWith_cons_of_ok (hsignal : (step made e.1 e.2).outcome = .ok signal)
    (entries : List (ι × α)) :
    let rest : Run ε κ (Option (Value κ)) := do
      match ← Run.of (Paced.pace signal) with
      | .go => iterateWith step (e :: made) entries
      | .halt => return none
      | .report => return some signal
    iterateWith step made (e :: entries) =
      ⟨(step made e.1 e.2).events ++ rest.events, rest.outcome⟩ := by
  intro rest
  rw [iterateWith]
  generalize step made e.1 e.2 = r at hsignal
  obtain ⟨events, outcome⟩ := r
  obtain rfl : outcome = .ok signal := hsignal
  rfl

theorem Value.pace_of_false (h : signal.isTrue = .ok false) : Paced.pace signal = .ok Pace.go := by
  simp only [Paced.pace, h]
  rfl

theorem Value.pace_of_true (h : signal.isTrue = .ok true) :
    Paced.pace signal = .ok Pace.halt ∧ signal.report? = none ∨
      Paced.pace signal = .ok Pace.report ∧ signal.report? = some signal := by
  cases signal with
  | bool b =>
      obtain rfl : b = true := Except.ok.inj h
      exact .inl ⟨rfl, rfl⟩
  | _ =>
      right
      simp only [Paced.pace, h]
      exact ⟨rfl, rfl⟩

theorem iterateWith_cons_of_false (h : (step made e.1 e.2).truth = .ok false)
    (entries : List (ι × α)) :
    iterateWith step made (e :: entries) =
      ⟨(step made e.1 e.2).events ++ (iterateWith step (e :: made) entries).events,
        (iterateWith step (e :: made) entries).outcome⟩ := by
  obtain ⟨signal, hsignal, hfalse⟩ := bind_eq_ok.mp h
  rw [iterateWith_cons_of_ok hsignal, Value.pace_of_false hfalse]
  rfl

theorem iterateWith_cons_of_true (hsignal : (step made e.1 e.2).outcome = .ok signal)
    (htrue : signal.isTrue = .ok true) (entries : List (ι × α)) :
    iterateWith step made (e :: entries) =
      ⟨(step made e.1 e.2).events, .ok signal.report?⟩ := by
  rw [iterateWith_cons_of_ok hsignal]
  rcases Value.pace_of_true htrue with ⟨hpace, hreport⟩ | ⟨hpace, hreport⟩
  · rw [hpace, hreport]
    exact Run.ext (List.append_nil _) rfl
  · rw [hpace, hreport]
    exact Run.ext (List.append_nil _) rfl

theorem iterateWith_cons_of_error {f : Fault κ} (h : (step made e.1 e.2).truth = .error f)
    (entries : List (ι × α)) :
    iterateWith step made (e :: entries) = ⟨(step made e.1 e.2).events, .error f⟩ := by
  rcases bind_eq_error.mp h with hraises | ⟨signal, hsignal, hasked⟩
  · rw [iterateWith]
    generalize step made e.1 e.2 = r at hraises
    obtain ⟨events, outcome⟩ := r
    obtain rfl : outcome = .error f := hraises
    rfl
  · have hpace : Paced.pace signal = .error f := by
      simp only [Paced.pace, hasked]
      rfl
    rw [iterateWith_cons_of_ok hsignal, hpace]
    exact Run.ext (List.append_nil _) rfl

/-- What comes after a call whose signal does not count as false makes no difference. -/
theorem iterateWith_cons_of_ne_false (h : (step made e.1 e.2).truth ≠ .ok false)
    (entries : List (ι × α)) :
    iterateWith step made (e :: entries) = iterateWith step made [e] := by
  cases htruth : (step made e.1 e.2).truth with
  | error f => rw [iterateWith_cons_of_error htruth, iterateWith_cons_of_error htruth]
  | ok b =>
      cases b with
      | false => exact absurd htruth h
      | true =>
          obtain ⟨signal, hsignal, htrue⟩ := bind_eq_ok.mp htruth
          rw [iterateWith_cons_of_true hsignal htrue, iterateWith_cons_of_true hsignal htrue]

theorem iterateWith_append_of_false {xs : List (ι × α)}
    (h : ∀ r ∈ callsFor step made xs, r.truth = .ok false) (ys : List (ι × α)) :
    iterateWith step made (xs ++ ys) =
      ⟨(callsFor step made xs).flatMap (·.events) ++
          (iterateWith step (xs.reverse ++ made) ys).events,
        (iterateWith step (xs.reverse ++ made) ys).outcome⟩ := by
  induction xs generalizing made with
  | nil => rfl
  | cons x xs ih =>
      rw [callsFor_cons, List.forall_mem_cons] at h
      rw [List.cons_append, iterateWith_cons_of_false h.1, ih h.2, callsFor_cons,
        List.flatMap_cons, List.append_assoc, List.reverse_cons, List.append_assoc,
        List.singleton_append]

theorem iterateWith_of_all_false {entries : List (ι × α)}
    (h : ∀ r ∈ callsFor step made entries, r.truth = .ok false) :
    iterateWith step made entries =
      ⟨(callsFor step made entries).flatMap (·.events), .ok none⟩ := by
  have happend := iterateWith_append_of_false h []
  rw [List.append_nil] at happend
  rw [happend]
  exact Run.ext (List.append_nil _) rfl

theorem iterateWith_endsAtFirstTrue (step : List (ι × α) → ι → α → Run ε κ (Value κ))
    (made entries : List (ι × α)) :
    EndsAtFirstTrue (callsFor step made entries) (iterateWith step made entries) := by
  constructor
  · intro hcalls
    exact iterateWith_of_all_false hcalls
  · intro before after r signal hcalls hbefore hsignal htrue
    obtain ⟨xs, e, ys, rfl, rfl, rfl⟩ := exists_entry_of_callsFor step hcalls
    rw [iterateWith_append_of_false hbefore, iterateWith_cons_of_true hsignal htrue,
      List.flatMap_append, List.flatMap_singleton]
  · intro before after r f hcalls hbefore herror
    obtain ⟨xs, e, ys, rfl, rfl, rfl⟩ := exists_entry_of_callsFor step hcalls
    rw [iterateWith_append_of_false hbefore, iterateWith_cons_of_error herror,
      List.flatMap_append, List.flatMap_singleton]

/-- A sequence that comes to an end within its first part does not see what is behind it. -/
theorem iterateWith_append_of_not_false {xs : List (ι × α)}
    (h : ¬ ∀ r ∈ callsFor step made xs, r.truth = .ok false) (ys : List (ι × α)) :
    iterateWith step made (xs ++ ys) = iterateWith step made xs := by
  rcases forall_or_exists_first (fun r : Run ε κ (Value κ) => r.truth = .ok false)
    (callsFor step made xs) with hall | ⟨before, r, after, hcalls, hbefore, hr⟩
  · exact absurd hall h
  · obtain ⟨xs, e, behind, rfl, rfl, rfl⟩ := exists_entry_of_callsFor step hcalls
    rw [List.append_assoc, iterateWith_append_of_false hbefore,
      iterateWith_append_of_false hbefore, List.cons_append, iterateWith_cons_of_ne_false hr,
      ← iterateWith_cons_of_ne_false hr behind]

end iterateWith

section lists

variable (step : List (Nat × α) → Nat → α → Run ε κ (Value κ))

theorem iterateWith_indexed_append {xs : List α}
    (h : ∀ r ∈ callsAt step xs, r.truth = .ok false) (ys : List α) :
    iterateWith step [] (indexed 0 (xs ++ ys)) =
      iterateWith step [] (indexed 0 xs) >>= fun _ =>
        iterateWith (laterStep step xs) [] (indexed 0 ys) := by
  rw [callsAt_eq] at h
  have hlater := iterateWith_later step [] 0 xs ys
  rw [List.map_nil, List.nil_append, Nat.add_zero] at hlater
  rw [indexed_append, Nat.zero_add, iterateWith_append_of_false h, List.append_nil, hlater,
    iterateWith_of_all_false h]
  rfl

end lists

/-- A step is called for the entries in their order, and so for the items of a list with the places
0, 1, 2 and so on, whatever it remembers of the calls before. The calls go as far as the first one
whose signal counts as true, and no further; that signal is the result, unless it is `true` itself,
and there is no result without such a signal. So a list that goes on is gone through like its first
part, and then, only if no signal there counted as true, like the rest of it with its places behind
those of the first part. -/
theorem sequence_ends_at_first_true :
    (∀ {ι : Type} (step : List (ι × α) → ι → α → Run ε κ (Value κ)) (entries : List (ι × α)),
      EndsAtFirstTrue (callsFor step [] entries) (iterateWith step [] entries)) ∧
    ∀ (step : List (Nat × α) → Nat → α → Run ε κ (Value κ)) (xs : List α),
      let run (items : List α) := iterateWith step [] (indexed 0 items)
      EndsAtFirstTrue (callsAt step xs) (run xs) ∧
      ∀ ys,
        ((∀ r ∈ callsAt step xs, r.truth = .ok false) → run (xs ++ ys) =
          run xs >>= fun _ => iterateWith (laterStep step xs) [] (indexed 0 ys)) ∧
        (¬ (∀ r ∈ callsAt step xs, r.truth = .ok false) → run (xs ++ ys) = run xs) := by
  refine ⟨fun step entries => iterateWith_endsAtFirstTrue step [] entries, ?_⟩
  intro step xs run
  refine ⟨?_, fun ys => ⟨fun h => iterateWith_indexed_append step h ys, fun h => ?_⟩⟩
  · rw [callsAt_eq]
    exact iterateWith_endsAtFirstTrue step [] (indexed 0 xs)
  · rw [callsAt_eq] at h
    dsimp only [run]
    rw [indexed_append]
    exact iterateWith_append_of_not_false h _

namespace OrderFunction

def earlierTotal (made : List (Nat × Int)) (i : Nat) (n : Int) :
    Run (Nat × Int) OrderFunction (Value OrderFunction) :=
  ⟨[(i, n)], .ok (.int (made.foldr (fun e total => e.2 + total) 0))⟩

end OrderFunction

/-- The third count is the first with anything before it, and the fourth is not looked at. -/
theorem earlier_total_ends_counts :
    let run (counts : List Int) := iterateWith OrderFunction.earlierTotal [] (indexed 0 counts)
    run ([0, 4] ++ [1, 7]) = ⟨[(0, 0), (1, 4), (2, 1)], .ok (some (.int 4))⟩ ∧
      run ([0, 4] ++ [1, 7]) =
        run [0, 4] >>= (fun _ =>
          iterateWith (laterStep OrderFunction.earlierTotal [0, 4]) [] (indexed 0 [1, 7])) ∧
      run ([0, 4, 1] ++ [7]) = run [0, 4, 1] := by
  have hnone : ∀ r ∈ callsAt OrderFunction.earlierTotal [0, 4], r.truth = .ok false := by
    simp only [callsAt, List.mapIdx_cons, List.mapIdx_nil, List.forall_mem_cons]
    exact ⟨rfl, rfl, List.forall_mem_nil _⟩
  have hthird : ¬ ∀ r ∈ callsAt OrderFunction.earlierTotal [0, 4, 1], r.truth = .ok false := by
    intro hall
    have hfalse := hall ⟨[(2, 1)], .ok (.int 4)⟩ (by simp [callsAt, OrderFunction.earlierTotal])
    cases hfalse
  have hcalls : callsAt OrderFunction.earlierTotal [0, 4, 1, 7] =
      [⟨[(0, 0)], .ok (.int 0)⟩, ⟨[(1, 4)], .ok (.int 0)⟩] ++
        ⟨[(2, 1)], .ok (.int 4)⟩ :: [⟨[(3, 7)], .ok (.int 5)⟩] := rfl
  have hlists := sequence_ends_at_first_true.2 OrderFunction.earlierTotal
  refine ⟨?_, ((hlists [0, 4]).2 [1, 7]).1 hnone, ((hlists [0, 4, 1]).2 [7]).2 hthird⟩
  apply (hlists [0, 4, 1, 7]).1.of_true hcalls _ rfl rfl
  simp only [List.forall_mem_cons]
  exact ⟨rfl, rfl, List.forall_mem_nil _⟩

end SchemaTree
