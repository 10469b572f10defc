import SchemaTree.Proofs.EarliestFailure

/-!
Where a check is. Its path is one along which the schema and the value can be walked together, and
the check is one of the node or of the array item at the end.
-/

namespace SchemaTree

def ReachedIn {α : Type} (P : α → Prop) (xs : List α) (x : α) : Prop :=
  ∃ before after, xs = before ++ x :: after ∧ ∀ y ∈ before, P y

section reachedIn

variable {α β : Type} {P : α → Prop} {x y : α} {xs ys : List α}

theorem ReachedIn.mem (h : ReachedIn P xs x) : x ∈ xs := by
  obtain ⟨before, after, rfl, -⟩ := h
  simp

theorem reachedIn_cons : ReachedIn P (y :: ys) x ↔ x = y ∨ P y ∧ ReachedIn P ys x := by
  constructor
  · rintro ⟨_ | ⟨z, before⟩, after, hxs, hbefore⟩
    · exact .inl (List.cons.inj hxs).1.symm
    · obtain ⟨rfl, rfl⟩ := List.cons.inj hxs
      exact .inr ⟨hbefore y (by simp), before, after, rfl, fun z hz => hbefore z (by simp [hz])⟩
  · rintro (rfl | ⟨hy, before, after, rfl, hbefore⟩)
    · exact ⟨[], ys, rfl, by simp⟩
    · exact ⟨y :: before, after, rfl, by simpa [hy] using hbefore⟩

theorem reachedIn_append (h : ReachedIn P (xs ++ ys) x) :
    ReachedIn P xs x ∨ (∀ z ∈ xs, P z) ∧ ReachedIn P ys x := by
  induction xs with
  | nil => exact .inr ⟨by simp, h⟩
  | cons z xs ih =>
      rw [List.cons_append] at h
      rcases reachedIn_cons.mp h with rfl | ⟨hz, h⟩
      · exact .inl (reachedIn_cons.mpr (.inl rfl))
      · rcases ih h with hxs | ⟨hall, hys⟩
        · exact .inl (reachedIn_cons.mpr (.inr ⟨hz, hxs⟩))
        · exact .inr ⟨by simpa [hz] using hall, hys⟩

theorem reachedIn_flatMap {g : β → List α} {bs : List β} (h : ReachedIn P (bs.flatMap g) x) :
    ∃ b ∈ bs, ReachedIn P (g b) x := by
  induction bs with
  | nil =>
      obtain ⟨before, after, hxs, -⟩ := h
      simp at hxs
  | cons b bs ih =>
      rw [List.flatMap_cons] at h
      rcases reachedIn_append h with hb | ⟨-, h⟩
      · exact ⟨b, by simp, hb⟩
      · obtain ⟨c, hc, hx⟩ := ih h
        exact ⟨c, by simp [hc], hx⟩

theorem ReachedIn.unique (hx : ReachedIn P xs x) (hnotx : ¬ P x) (hy : ReachedIn P xs y)
    (hnoty : ¬ P y) : x = y := by
  induction xs with
  | nil => simpa using hx.mem
  | cons z xs ih =>
      rcases reachedIn_cons.mp hx with rfl | ⟨hz, hx⟩
      · rcases reachedIn_cons.mp hy with rfl | ⟨hz, -⟩
        · rfl
        · exact absurd hz hnotx
      · rcases reachedIn_cons.mp hy with rfl | ⟨-, hy⟩
        · exact absurd hz hnoty
        · exact ih hx hy

end reachedIn

variable {κ : Type} [Inspect κ]

/-- Where a walk through a schema and a value stands: at a node with its value, or at an item of the
value of an array node. -/
inductive Place (κ : Type) where
  | node (t : Tree κ) (v : Value κ)
  | item (t : Tree κ) (v : Value κ)

namespace Place

def value : Place κ → Value κ
  | .node _ v | .item _ v => v

/-- The tests that are made at a place, where `tests` says what becomes of the rules of a node. -/
def tests (tests : Option (List (Value κ)) → List (Test κ)) : Place κ → List (Test κ)
  | .node t _ => t.ownTests tests ++
    if t.fields.isSome && !t.isArray then [.object, .excess t.strict t.names] else []
  | .item t _ => [.object, .excess t.strict t.names]

end Place

namespace Tree

/-- A schema and a value can be walked together along a path to a place. At an array node with
fields the next segment is the index of an item, anywhere else it is the name of a field. The number
is the index of the last item on the way. -/
inductive Leads (t : Tree κ) (v : Value κ) : List String → Option Nat → Place κ → Prop
  | root : Leads t v [] none (.node t v)
  | item {path : List String} {index : Option Nat} {u : Tree κ} {w x : Value κ} {i : Nat}
      (hwalk : Leads t v path index (.node u w)) (harray : u.isArray = true)
      (hfields : u.fields.isSome = true) (hitem : w.arrayItems[i]? = some x) :
      Leads t v (path ++ [toString i]) (some i) (.item u x)
  | field {path : List String} {index : Option Nat} {u : Tree κ} {w : Value κ}
      {f : String × Tree κ} (hwalk : Leads t v path index (.node u w))
      (hsingle : u.isArray = false) (hmapping : w.isMapping = true) (hf : f ∈ u.fieldList) :
      Leads t v (path ++ [f.1]) index (.node f.2 (w.under f.1))
  | itemField {path : List String} {index : Option Nat} {u : Tree κ} {w : Value κ}
      {f : String × Tree κ} (hwalk : Leads t v path index (.item u w))
      (hmapping : w.isMapping = true) (hf : f ∈ u.fieldList) :
      Leads t v (path ++ [f.1]) index (.node f.2 (w.under f.1))

section tests

variable (tests : Option (List (Value κ)) → List (Test κ))

theorem leads_part {t₀ t : Tree κ} {v₀ v : Value κ} {p : Position}
    (hwalk : t₀.Leads v₀ p.path p.index (.node t v)) {part : Value κ × Position}
    (hpart : part ∈ t.parts v p) :
    ∃ place : Place κ, t₀.Leads v₀ part.2.path part.2.index place ∧ place.value = part.1 ∧
      .object ∈ place.tests tests ∧ .excess t.strict t.names ∈ place.tests tests ∧
      (part.1.isMapping = true → ∀ f ∈ t.fieldList,
        t₀.Leads v₀ (part.2.path ++ [f.1]) part.2.index (.node f.2 (part.1.under f.1))) := by
  obtain ⟨hfields, ⟨harray, i, hitem, hplace⟩ | ⟨hsingle, rfl⟩⟩ := mem_parts.mp hpart
  · rw [hplace]
    have hnext : t₀.Leads v₀ (p.item i).path (p.item i).index (.item t part.1) :=
      .item hwalk harray hfields hitem
    exact ⟨.item t part.1, hnext, rfl, by simp [Place.tests], by simp [Place.tests],
      fun hmapping f hf => .itemField hnext hmapping hf⟩
  · exact ⟨.node t v, hwalk, rfl, by simp [Place.tests, hfields, hsingle],
      by simp [Place.tests, hfields, hsingle],
      fun hmapping f hf => .field hwalk hsingle hmapping hf⟩

end tests

variable {host : Host κ} {ignoring : Value κ}
  {tests : Option (List (Value κ)) → List (Test κ)}

/-- A check of the agenda, if those before it accept, is one of the place to which its path
leads. -/
theorem exists_place (t : Tree κ) {t₀ : Tree κ} {v₀ v : Value κ} {p : Position}
    (hwalk : t₀.Leads v₀ p.path p.index (.node t v)) {x : Probe κ}
    (hx : ReachedIn (fun y : Probe κ => y.finding host ignoring = .accepts)
      (t.agenda tests v p) x) :
    ∃ place : Place κ, t₀.Leads v₀ x.place.path x.place.index place ∧ place.value = x.value ∧
      x.test ∈ place.tests tests := by
  induction t using induction_on_fields generalizing v p with
  | step t ih =>
      have hown (test : Test κ) (htest : test ∈ t.ownTests tests) :
          ∃ place : Place κ, t₀.Leads v₀ p.path p.index place ∧ place.value = v ∧
            test ∈ place.tests tests :=
        ⟨.node t v, hwalk, rfl, List.mem_append_left _ htest⟩
      rw [agenda_eq] at hx
      rcases reachedIn_cons.mp hx with rfl | ⟨-, hx⟩
      · exact hown _ (List.mem_cons_self ..)
      split at hx
      · simpa using hx.mem
      rw [List.cons_append] at hx
      rcases reachedIn_cons.mp hx with rfl | ⟨-, hx⟩
      · exact hown _ (by simp [ownTests])
      rcases reachedIn_append hx with hx | ⟨-, hx⟩
      · obtain ⟨test, htest, rfl⟩ := List.mem_map.mp hx.mem
        exact hown test (by simp [ownTests, htest])
      obtain ⟨part, hpart, hx⟩ := reachedIn_flatMap hx
      obtain ⟨place, hleads, hvalue, hobject, hexcess, hnext⟩ :=
        leads_part tests hwalk hpart
      rcases reachedIn_append hx with hx | ⟨haccepts, hx⟩
      · rcases List.mem_pair.mp hx.mem with rfl | rfl
        · exact ⟨place, hleads, hvalue, hobject⟩
        · exact ⟨place, hleads, hvalue, hexcess⟩
      -- A field is reached only after its holder was found to be a mapping.
      · have hmapping : part.1.isMapping = true :=
          Test.object_accepts_iff.mp (haccepts ⟨.object, part.1, part.2⟩ (by simp [partProbes]))
        obtain ⟨f, hf, hx⟩ := reachedIn_flatMap hx
        exact ih f hf (hnext hmapping f hf) hx

end Tree

end SchemaTree
