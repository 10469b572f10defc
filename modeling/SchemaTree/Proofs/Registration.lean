import Mathlib.Data.List.Nodup
import SchemaTree.Registry

/-!
What is done to a registry, as a record of its registrations and removals. Replaying the record
gives the entries; a name that is registered only while it is free stands in them with the node that
was registered under it last.
-/

namespace SchemaTree.Registry

variable {κ : Type}

inductive Change where
  | added (name : String) (n : NodeId)
  | removed (name : String)
  | cleared
  deriving DecidableEq, Repr

def Change.apply (entries : List (String × NodeId)) : Change → List (String × NodeId)
  | .added name n => entries ++ [(name, n)]
  | .removed name => entries.filter fun e => e.1 != name
  | .cleared => []

theorem Change.mem_apply {entries : List (String × NodeId)} {change : Change}
    {e : String × NodeId} (he : e ∈ change.apply entries) :
    e ∈ entries ∨ ∃ name n, change = .added name n ∧ e.2 = n := by
  cases change with
  | added name n =>
      rcases List.mem_append.mp he with he | he
      · exact .inl he
      · exact .inr ⟨name, n, rfl, congrArg (·.2) (List.mem_singleton.mp he)⟩
  | removed name => exact .inl (List.mem_filter.mp he).1
  | cleared => exact nomatch he

def replay (changes : List Change) : List (String × NodeId) := changes.foldl Change.apply []

/-- The nodes registered under a name and not freed, after one more change. -/
def Change.applyTo (name : String) (nodes : List NodeId) : Change → List NodeId
  | .added other n => if other = name then nodes ++ [n] else nodes
  | .removed other => if other = name then [] else nodes
  | .cleared => []

/-- The nodes registered under a name since it was removed, or all names were. -/
def sinceFreed (name : String) (changes : List Change) : List NodeId :=
  changes.foldl (Change.applyTo name) []

/-- A name is registered while it is free, and removed while it is taken. -/
def Change.Fits (r : Registry κ) : Change → Prop
  | .added name _ => name ≠ "" ∧ name ∉ r.keys
  | .removed name => name ∈ r.keys
  | .cleared => True

/-- The entries are what the changes come to, under names that differ and are not empty, and each
name has the one node that was registered under it since it was free. -/
structure Records (changes : List Change) (r : Registry κ) : Prop where
  replayed : r.entries = replay changes
  distinct : r.keys.Nodup
  named : "" ∉ r.keys
  once : ∀ name, sinceFreed name changes = (r.find? name).toList

theorem find?_eq_none_iff {r : Registry κ} {name : String} :
    r.find? name = none ↔ name ∉ r.keys := by
  rw [find?, Option.map_eq_none_iff, List.find?_eq_none, keys, List.mem_map]
  exact ⟨fun h ⟨e, he, heq⟩ => h e he (beq_iff_eq.mpr heq),
    fun h e he heq => h ⟨e, he, beq_iff_eq.mp heq⟩⟩

theorem find?_append (r : Registry κ) (other name : String) (n : NodeId) :
    ({ r with entries := r.entries ++ [(other, n)] } : Registry κ).find? name =
      (r.find? name).or (if other = name then some n else none) := by
  rw [find?, List.find?_append, Option.map_or]
  by_cases hother : other = name <;> simp [find?, hother]

theorem find?_filter (r : Registry κ) (other name : String) :
    ({ r with entries := r.entries.filter fun e => e.1 != other } : Registry κ).find? name =
      if other = name then none else r.find? name := by
  rw [find?, List.find?_filter]
  by_cases hother : other = name
  · rw [if_pos hother, Option.map_eq_none_iff, List.find?_eq_none]
    intro e _ he
    simp [hother] at he
  · rw [if_neg hother, find?]
    congr 2
    funext e
    by_cases he : e.1 = name <;> simp [he, Ne.symm hother]

namespace Records

variable {changes : List Change} {r : Registry κ}

theorem nil (name : Value κ) : Records [] { name } :=
  ⟨rfl, List.nodup_nil, List.not_mem_nil, fun _ => rfl⟩

theorem step (h : Records changes r) {change : Change} (hchange : change.Fits r) :
    Records (changes ++ [change]) { r with entries := change.apply r.entries } := by
  have hreplayed : change.apply r.entries = replay (changes ++ [change]) := by
    rw [replay, List.foldl_append, ← replay, ← h.replayed]
    rfl
  have hsince (name : String) : sinceFreed name (changes ++ [change]) =
      change.applyTo name (r.find? name).toList := by
    rw [sinceFreed, List.foldl_append, ← sinceFreed, h.once]
    rfl
  cases change with
  | added other n =>
      obtain ⟨hother, hnew⟩ := hchange
      have hkeys : Registry.keys { r with entries := r.entries ++ [(other, n)] } =
          r.keys ++ [other] := List.map_append
      refine ⟨hreplayed, ?_, ?_, fun name => ?_⟩
      · show (Registry.keys { r with entries := r.entries ++ [(other, n)] }).Nodup
        rw [hkeys]
        refine List.nodup_append.mpr ⟨h.distinct, List.nodup_singleton other, fun key hkey => ?_⟩
        rintro last hlast rfl
        exact hnew (List.mem_singleton.mp hlast ▸ hkey)
      · show "" ∉ Registry.keys { r with entries := r.entries ++ [(other, n)] }
        rw [hkeys, List.mem_append, List.mem_singleton]
        exact fun hmem => hmem.elim h.named hother.symm
      · rw [hsince]
        refine Eq.trans ?_ (congrArg Option.toList (find?_append r other name n)).symm
        by_cases hname : other = name
        · subst hname
          rw [Change.applyTo, if_pos rfl, if_pos rfl, find?_eq_none_iff.mpr hnew]
          rfl
        · rw [Change.applyTo, if_neg hname, if_neg hname, Option.or_none]
  | removed other =>
      have hkeys : (Registry.keys
          { r with entries := r.entries.filter fun e => e.1 != other }).Sublist r.keys :=
        List.filter_sublist.map _
      refine ⟨hreplayed, h.distinct.sublist hkeys, fun hmem => h.named (hkeys.subset hmem),
        fun name => ?_⟩
      rw [hsince]
      refine Eq.trans ?_ (congrArg Option.toList (find?_filter r other name)).symm
      by_cases hname : other = name
      · rw [Change.applyTo, if_pos hname, if_pos hname]
        rfl
      · rw [Change.applyTo, if_neg hname, if_neg hname]
  | cleared => exact ⟨hreplayed, List.nodup_nil, List.not_mem_nil, fun name => hsince name⟩

end Records

end SchemaTree.Registry
