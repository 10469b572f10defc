import SchemaTree.Proofs.BrokenRules

/-!
Where a failure is. The path of a failure is one along which the schema and the value can be walked
together, and the check that failed is one of the node or of the array item at its end.
-/

namespace SchemaTree

variable {κ : Type} [Inspect κ]

def Host.MapperAnswers (host : Host κ) (mapper : Value κ) : Prop :=
  ∀ m f, mapper = .object m → host.mapper m = some f →
    ∀ descriptors options, ∃ answer, f descriptors options = .ok answer

omit [Inspect κ] in
theorem Host.MapperAnswers.callMapper_ne_result {host : Host κ} {mapper : Value κ}
    (h : host.MapperAnswers mapper) (descriptors : Value κ) (options : OptionsArg κ)
    (e : ResultError κ) : (callMapper host mapper descriptors options).outcome ≠
      .error (.result e) := by
  cases mapper with
  | object m =>
      cases hm : host.mapper m with
      | none => simp [callMapper, hm, throw]
      | some f =>
          obtain ⟨answer, hanswer⟩ := h m f rfl hm descriptors options
          simp [callMapper, hm, hanswer, Run.outcome_map, Except.map]
  | _ => simp [callMapper, throw]

/-- Where the mapper answers, only the making of the rules before or after its call can break with
the failure of a value. -/
theorem Setting.MapperBreaks.unmade_of_result {s : Setting κ} {descriptors : List (Value κ)}
    {e : ResultError κ} (hmapper : s.host.MapperAnswers s.options.validator)
    (h : s.MapperBreaks descriptors (.result e)) : s.RulesUnmade descriptors (.result e) := by
  cases h with
  | unmade hunmade => exact hunmade
  | raises hcopy hcall => exact absurd hcall (hmapper.callMapper_ne_result _ _ e)

theorem Value.Copyable.deepCopy_of_snapshot {v copy : Value κ} (hv : v.Copyable)
    (h : v.snapshot = .ok copy) : v.deepCopy = .ok copy := by
  obtain ⟨c, hc⟩ := hv
  rw [snapshot_of_deepCopy hc] at h
  rw [hc, h]

end SchemaTree
