import SchemaTree.Value.Inspect

/-!
A computation that calls code of the caller: what was called, in order, and how it ended. The calls
made before a fault stay on record.
-/

namespace SchemaTree

/-- The events of a run, earliest first, and its outcome. -/
structure Run (ε κ α : Type) where
  events : List ε
  outcome : Except (Fault κ) α

namespace Run

variable {ε κ α β : Type}

instance : Monad (Run ε κ) where
  pure a := ⟨[], .ok a⟩
  bind r f :=
    match r.outcome with
    | .ok a => ⟨r.events ++ (f a).events, (f a).outcome⟩
    | .error e => ⟨r.events, .error e⟩

instance : MonadExcept (Fault κ) (Run ε κ) where
  throw e := ⟨[], .error e⟩
  tryCatch r f :=
    match r.outcome with
    | .ok _ => r
    | .error e => ⟨r.events ++ (f e).events, (f e).outcome⟩

def tell (e : ε) : Run ε κ Unit := ⟨[e], .ok ()⟩

def of (x : Except (Fault κ) α) : Run ε κ α := ⟨[], x⟩

def awaited (r : Run ε κ α) : Run ε κ α :=
  ⟨r.events, r.outcome.mapError (Fault.outOf "coroutine")⟩

@[simp] theorem events_pure (a : α) : (pure a : Run ε κ α).events = [] := rfl

@[simp] theorem outcome_pure (a : α) : (pure a : Run ε κ α).outcome = .ok a := rfl

@[simp] theorem events_of (x : Except (Fault κ) α) : (of x : Run ε κ α).events = [] := rfl

@[simp] theorem outcome_of (x : Except (Fault κ) α) : (of x : Run ε κ α).outcome = x := rfl

@[simp] theorem events_tell (e : ε) : (tell e : Run ε κ Unit).events = [e] := rfl

@[simp] theorem outcome_tell (e : ε) : (tell e : Run ε κ Unit).outcome = .ok () := rfl

@[simp] theorem events_awaited (r : Run ε κ α) : r.awaited.events = r.events := rfl

@[simp] theorem outcome_awaited (r : Run ε κ α) :
    r.awaited.outcome = r.outcome.mapError (Fault.outOf "coroutine") := rfl

theorem events_bind (r : Run ε κ α) (f : α → Run ε κ β) :
    (r >>= f).events = r.events ++ match r.outcome with
      | .ok a => (f a).events
      | .error _ => [] := by
  rcases r with ⟨es, e | a⟩ <;> simp [bind]

theorem outcome_bind (r : Run ε κ α) (f : α → Run ε κ β) :
    (r >>= f).outcome = match r.outcome with
      | .ok a => (f a).outcome
      | .error e => .error e := by
  rcases r with ⟨es, e | a⟩ <;> rfl

instance : LawfulMonad (Run ε κ) := LawfulMonad.mk' _
  (by rintro α ⟨es, e | a⟩ <;> simp [Functor.map])
  (by intros; simp [bind, pure])
  (by
    rintro α β γ ⟨es, e | a⟩ f g
    · rfl
    · rcases h : f a with ⟨fs, e | b⟩ <;> simp [bind, h])

end Run

end SchemaTree
