import SchemaTree.Check.Node

/-!
The parts of a value that a schema looks at: the items of an array, the keys of a mapping and the
values under the names of fields. They are no deeper than the value, and their keys are fit to be
keys where those of the value are.
-/

namespace SchemaTree

theorem Entries.exists_key_of_get? {κ : Type} [Inspect κ] {es : Entries κ} {name : String}
    {v : Value κ} (h : get? (.str name) es = some v) :
    ∃ key, key.asText = some name ∧ (key, v) ∈ es := by
  obtain ⟨e, he, rfl⟩ := Option.map_eq_some_iff.mp h
  have hkey := List.find?_some he
  exact ⟨e.1, Value.str_agrees_iff.mp hkey, List.mem_of_find?_eq_some he⟩

namespace Value

variable {κ : Type}

def isMissing : Value κ → Bool
  | .missing => true
  | _ => false

/-- The items of an array. Nothing else has items. -/
def arrayItems : Value κ → List (Value κ)
  | .list _ xs | .tuple _ xs => xs
  | _ => []

def keys : Value κ → List (Value κ)
  | .mapping _ es => es.map (·.1)
  | _ => []

theorem isMissing_iff {v : Value κ} : v.isMissing = true ↔ v = .missing := by
  cases v <;> simp [isMissing]

theorem depth_le_depthAll {x : Value κ} {xs : List (Value κ)} (hx : x ∈ xs) :
    x.depth ≤ depthAll xs := by
  induction xs with
  | nil => simp at hx
  | cons y ys ih =>
      simp only [depthAll]
      rcases List.mem_cons.mp hx with rfl | hx
      · exact Nat.le_max_left _ _
      · exact Nat.le_trans (ih hx) (Nat.le_max_right _ _)

theorem depth_le_depthEntries {k v : Value κ} {es : Entries κ} (h : (k, v) ∈ es) :
    v.depth ≤ depthEntries es := by
  induction es with
  | nil => simp at h
  | cons e es ih =>
      simp only [depthEntries]
      rcases List.mem_cons.mp h with rfl | h
      · exact Nat.le_max_left _ _
      · exact Nat.le_trans (ih h) (Nat.le_max_right _ _)

theorem depth_arrayItems {v x : Value κ} (hx : x ∈ v.arrayItems) : x.depth ≤ v.depth := by
  cases v <;> simp_all [arrayItems, depth, depth_le_depthAll]

variable [Inspect κ]

/-- The value under a field's name, `missing` where there is none. -/
def under (v : Value κ) (name : String) : Value κ :=
  match v with
  | .mapping _ es => (Entries.get? (.str name) es).getD .missing
  | _ => .missing

theorem under_eq (v : Value κ) (name : String) :
    v.under name = .missing ∨
      ∃ m es key, v = .mapping m es ∧ key.asText = some name ∧ (key, v.under name) ∈ es := by
  cases v with
  | mapping m es =>
      cases hfound : Entries.get? (.str name) es with
      | none => simp [under, hfound]
      | some w =>
          obtain ⟨key, hkey, hmem⟩ := Entries.exists_key_of_get? hfound
          refine .inr ⟨m, es, key, rfl, hkey, ?_⟩
          simpa only [under, hfound, Option.getD_some] using hmem
  | _ => simp [under]

/-- The bound of a run of checks goes down with every field. -/
theorem depth_under {v : Value κ} (hv : v.isMapping = true) (name : String) :
    (v.under name).depth < v.depth := by
  rcases v.under_eq name with hnone | ⟨m, es, key, rfl, -, hmem⟩
  · rw [hnone]
    cases v <;> simp_all [isMapping, depth]
  · exact Nat.lt_succ_of_le (depth_le_depthEntries hmem)

theorem fieldValue_of_isMapping {v : Value κ} (hv : v.isMapping = true) (name : String) :
    Setting.fieldValue v name = .ok (v.under name) := by
  cases v <;> simp_all [isMapping, Setting.fieldValue, under]

theorem elements_of_isArray {v : Value κ} (hv : v.isArray = true) :
    v.elements = .ok v.arrayItems := by
  have helements : ∀ xs : List (Value κ),
      (if !xs.isEmpty then Except.ok xs else Except.ok []) =
        (Except.ok xs : Except (Fault κ) (List (Value κ))) := by
    intro xs
    cases xs <;> rfl
  cases v with
  | list m xs | tuple m xs => exact helements xs
  | _ => simp [isArray] at hv

theorem items_of_isMapping {v : Value κ} (hv : v.isMapping = true) : v.items = .ok v.keys := by
  cases v <;> simp_all [isMapping, items, keys]

mutual

/-- All keys of the mappings in a value can be keys, as the keys of a mapping that was built by
setting them are. -/
def KeysFit : Value κ → Prop
  | .list _ xs | .tuple _ xs => KeysFitAll xs
  | .mapping _ es => KeysFitEntries es
  | _ => True

def KeysFitAll : List (Value κ) → Prop
  | [] => True
  | x :: xs => x.KeysFit ∧ KeysFitAll xs

def KeysFitEntries : Entries κ → Prop
  | [] => True
  | (k, v) :: es => k.canBeKey = true ∧ v.KeysFit ∧ KeysFitEntries es

end

theorem keysFit_of_mem {x : Value κ} {xs : List (Value κ)} (hxs : KeysFitAll xs)
    (hx : x ∈ xs) : x.KeysFit := by
  induction xs with
  | nil => simp at hx
  | cons y ys ih =>
      rcases List.mem_cons.mp hx with rfl | hx
      · exact hxs.1
      · exact ih hxs.2 hx

theorem keysFit_of_mem_entries {k v : Value κ} {es : Entries κ} (hes : KeysFitEntries es)
    (h : (k, v) ∈ es) : k.canBeKey = true ∧ v.KeysFit := by
  induction es with
  | nil => simp at h
  | cons e es ih =>
      rcases List.mem_cons.mp h with rfl | h
      · exact ⟨hes.1, hes.2.1⟩
      · exact ih hes.2.2 h

theorem KeysFit.arrayItems {v x : Value κ} (hv : v.KeysFit) (hx : x ∈ v.arrayItems) :
    x.KeysFit := by
  cases v with
  | list m xs | tuple m xs => exact keysFit_of_mem hv hx
  | _ => simp [Value.arrayItems] at hx

theorem KeysFit.under {v : Value κ} (hv : v.KeysFit) (name : String) : (v.under name).KeysFit := by
  rcases v.under_eq name with hnone | ⟨m, es, key, rfl, -, hmem⟩
  · rw [hnone]
    trivial
  · exact (keysFit_of_mem_entries hv hmem).2

theorem KeysFit.canBeKey {v key : Value κ} (hv : v.KeysFit) (hkey : key ∈ v.keys) :
    key.canBeKey = true := by
  cases v with
  | mapping m es =>
      obtain ⟨e, he, rfl⟩ := List.mem_map.mp hkey
      exact (keysFit_of_mem_entries hv he).1
  | _ => simp [keys] at hkey

end Value

namespace Setting

variable {κ : Type} [Inspect κ]

theorem allDeclared_cons (names : List String) {key : Value κ} (keys : List (Value κ))
    (hkey : key.canBeKey = true) :
    allDeclared names (key :: keys) =
      if ∃ name ∈ names, key.asText = some name then allDeclared names keys else .ok false := by
  rw [allDeclared, hkey]
  cases htext : key.asText with
  | none => simp [pure, Except.pure]
  | some name => by_cases hname : name ∈ names <;> simp [hname, pure, Except.pure]

theorem allDeclared_unfit (names : List String) {key : Value κ} (keys : List (Value κ))
    (hkey : key.canBeKey = false) :
    allDeclared names (key :: keys) = .error (.misuse .unsupported) := by
  rw [allDeclared, hkey]
  rfl

end Setting

end SchemaTree
