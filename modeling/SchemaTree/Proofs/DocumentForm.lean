import SchemaTree.Proofs.DocumentKeys
import SchemaTree.Proofs.DocumentSteps
import SchemaTree.Proofs.OwnCopies

/-!
Documents that are well-formed. What a document says is listed in its order: each key, and each
value that stands for rules. A schema is made of a document exactly if all of it is in order, and
otherwise the first thing that is not says which fault comes of it.
-/

namespace SchemaTree.Document

variable {κ α β : Type}

def isRulesKey : Value κ → Bool
  | .str text => text != "" && text.toList.all (· == '=')
  | _ => false

/-- A key for the field of that name: the name, and after it some of the suffixes. -/
structure NamesField (key : Value κ) (name : String) : Prop where
  notRules : isRulesKey key = false
  nonempty : name ≠ ""
  plain : ∀ c ∈ name.toList, c ≠ '[' ∧ c ≠ '?' ∧ c ≠ '!'
  written : ∃ array required strict, key = .str (name ++ suffixes array required strict)

def IsRootKey (key : Value κ) : Prop :=
  ∃ array required strict, key = .str ("schema" ++ suffixes array required strict)

/-- What may stand under the key of a field: anything but a mapping, or a mapping of rules and
fields in which no field is named twice, and of such values under the keys of fields. -/
inductive WellFormed : Value κ → Prop
  | plain {v : Value κ} (hv : v.isMapping = false) : WellFormed v
  | mapping {m : Mark} {es : Entries κ}
      (keys : ∀ e ∈ es, isRulesKey e.1 = true ∨ ∃ name, NamesField e.1 name)
      (once : es.Pairwise fun d e => ∀ name, NamesField d.1 name → ¬ NamesField e.1 name)
      (below : ∀ e ∈ es, isRulesKey e.1 = false → WellFormed e.2) : WellFormed (.mapping m es)

/-- The document has one entry, with a key for the root and this value under it. -/
def HasBody (data body : Value κ) : Prop :=
  ∃ m key, data = .mapping m [(key, body)] ∧ IsRootKey key

def IsSchema (data : Value κ) : Prop := ∃ body, HasBody data body ∧ WellFormed body

inductive Item (κ : Type) where
  /-- A key, and the entries before it in its mapping. -/
  | key (earlier : Entries κ) (key : Value κ)
  /-- A value that stands for rules. -/
  | rules (value : Value κ)

mutual

/-- What a value says, in the order of the document. Rules are not looked into. -/
def items : Value κ → List (Item κ)
  | .mapping _ es => entryItems [] es
  | v => [.rules v]

def entryItems (earlier : Entries κ) : Entries κ → List (Item κ)
  | [] => []
  | (key, v) :: es =>
    .key earlier key :: ((if isRulesKey key then [.rules v] else items v) ++
      entryItems (earlier ++ [(key, v)]) es)

end

def InLine (is : List (Item κ)) : Prop :=
  ∀ earlier text, .key earlier (.str text) ∈ is → '\n' ∉ text.toList

def Repeats (earlier : Entries κ) (key : Value κ) : Prop :=
  ∃ name, NamesField key name ∧ ∃ e ∈ earlier, NamesField e.1 name

def KeyFits (earlier : Entries κ) (key : Value κ) : Prop :=
  isRulesKey key = true ∨
    ∃ name, NamesField key name ∧ ∀ e ∈ earlier, ¬ NamesField e.1 name

section names

variable {key : Value κ} {name other text : String}

theorem NamesField.startsSuffix_eq_false (hkey : NamesField key name) {c : Char}
    (hc : c ∈ name.toList) : startsSuffix c = false := by
  obtain ⟨h₁, h₂, h₃⟩ := hkey.plain c hc
  simp [startsSuffix, h₁, h₂, h₃]

/-- A key for a field is read as the name of the field. -/
theorem NamesField.exists_field? (hkey : NamesField (.str text : Value κ) name) :
    ∃ k, Key.field? text = some k ∧ k.name = name := by
  obtain ⟨array, required, strict, htext⟩ := hkey.written
  rw [Value.str.inj htext]
  exact ⟨_, field?_of_plain (fun c hc => hkey.startsSuffix_eq_false hc) .., rfl⟩

theorem NamesField.unique (hname : NamesField key name) (hother : NamesField key other) :
    name = other := by
  obtain ⟨array, required, strict, rfl⟩ := hname.written
  obtain ⟨k, hread, rfl⟩ := hname.exists_field?
  obtain ⟨k', hread', rfl⟩ := hother.exists_field?
  rw [Option.some.inj (hread.symm.trans hread')]

theorem namesField_of_field? (hline : '\n' ∉ text.toList) {k : Key}
    (hread : Key.field? text = some k) (hrules : isRulesKey (.str text : Value κ) = false)
    (hname : k.name ≠ "") : NamesField (.str text : Value κ) k.name := by
  obtain ⟨hplain, htext⟩ := written_of_field? hline hread
  refine ⟨hrules, hname, fun c hc => ?_, k.array, !k.optional, k.strict, congrArg _ htext⟩
  simpa [startsSuffix, and_assoc] using hplain c hc

theorem KeyFits.not_repeats {earlier : Entries κ} (hkey : KeyFits earlier key) :
    ¬ Repeats earlier key := by
  rintro ⟨name, hname, e, he, hagain⟩
  rcases hkey with hrules | ⟨other, hother, hnew⟩
  · exact Bool.noConfusion (hrules.symm.trans hname.notRules)
  · rw [hname.unique hother] at hagain
    exact hnew e he hagain

theorem keyFits_iff {earlier : Entries κ} : KeyFits earlier key ↔
    (isRulesKey key = true ∨ ∃ name, NamesField key name) ∧
      ∀ e ∈ earlier, ∀ name, NamesField e.1 name → ¬ NamesField key name := by
  constructor
  · intro hkey
    refine ⟨?_, fun e he name hname hagain => hkey.not_repeats ⟨name, hagain, e, he, hname⟩⟩
    exact hkey.imp_right fun ⟨name, hname, _⟩ => ⟨name, hname⟩
  · rintro ⟨hrules | ⟨name, hname⟩, hnew⟩
    · exact .inl hrules
    · exact .inr ⟨name, hname, fun e he hagain => hnew e he name hagain hname⟩

end names

theorem IsRootKey.isRulesKey_eq_false {key : Value κ} (hkey : IsRootKey key) :
    isRulesKey key = false := by
  obtain ⟨array, required, strict, rfl⟩ := hkey
  have hhead : 's' ∈ ("schema" ++ suffixes array required strict).toList := by
    rw [String.toList_append]
    exact List.mem_append_left _ List.mem_cons_self
  rw [isRulesKey, Bool.and_eq_false_iff, List.all_eq_false]
  exact .inr ⟨'s', hhead, by decide⟩

theorem HasBody.isSchema_iff {data body : Value κ} (hdata : HasBody data body) :
    IsSchema data ↔ WellFormed body := by
  refine ⟨fun ⟨other, hother, hform⟩ => ?_, fun hform => ⟨body, hdata, hform⟩⟩
  obtain ⟨m, key, rfl, -⟩ := hdata
  obtain ⟨m', key', heq, -⟩ := hother
  obtain ⟨-, hentries⟩ := Value.mapping.inj heq
  obtain rfl : body = other := congrArg Prod.snd (List.cons.inj hentries).1
  exact hform

theorem HasBody.items_eq {data body : Value κ} (hdata : HasBody data body) :
    ∃ key, items data = .key [] key :: items body := by
  obtain ⟨m, key, rfl, hkey⟩ := hdata
  refine ⟨key, ?_⟩
  simp [items, entryItems, hkey.isRulesKey_eq_false]

theorem items_of_plain {v : Value κ} (hv : v.isMapping = false) : items v = [.rules v] := by
  cases v with
  | mapping m es => exact nomatch hv
  | _ => rfl

mutual

theorem wellFormed_iff (v : Value κ) :
    WellFormed v ↔ ∀ earlier key, .key earlier key ∈ items v → KeyFits earlier key := by
  cases v with
  | mapping m es =>
      have hentries := entryItems_fit_iff es []
      constructor
      · intro hv
        cases hv with
        | plain hv => exact nomatch hv
        | mapping keys once below => exact hentries.mpr ⟨keys, once, nofun, below⟩
      · intro hv
        obtain ⟨keys, once, -, below⟩ := hentries.mp hv
        exact .mapping keys once below
  | _ =>
      refine ⟨fun _ earlier key hmem => ?_, fun _ => .plain rfl⟩
      exact nomatch List.mem_singleton.mp hmem

theorem entryItems_fit_iff (es : Entries κ) (before : Entries κ) :
    (∀ earlier key, .key earlier key ∈ entryItems before es → KeyFits earlier key) ↔
      (∀ e ∈ es, isRulesKey e.1 = true ∨ ∃ name, NamesField e.1 name) ∧
      (es.Pairwise fun d e => ∀ name, NamesField d.1 name → ¬ NamesField e.1 name) ∧
      (∀ d ∈ before, ∀ e ∈ es, ∀ name, NamesField d.1 name → ¬ NamesField e.1 name) ∧
      ∀ e ∈ es, isRulesKey e.1 = false → WellFormed e.2 := by
  cases es with
  | nil => exact ⟨fun _ => ⟨nofun, .nil, fun _ _ => nofun, nofun⟩, fun _ => nofun⟩
  | cons e es =>
      obtain ⟨key, v⟩ := e
      have hsplit : (∀ earlier key', .key earlier key' ∈ entryItems before ((key, v) :: es) →
          KeyFits earlier key') ↔ KeyFits before key ∧ (isRulesKey key = false → WellFormed v) ∧
            ∀ earlier key', .key earlier key' ∈ entryItems (before ++ [(key, v)]) es →
              KeyFits earlier key' := by
        rw [wellFormed_iff v, entryItems]
        cases isRulesKey key <;> simp [or_imp, forall_and]
      rw [hsplit, entryItems_fit_iff es, keyFits_iff]
      simp only [List.forall_mem_cons, List.pairwise_cons, List.forall_mem_append]
      constructor
      · rintro ⟨⟨hkey, hnew⟩, hv, keys, once, ⟨hbefore, hlater, -⟩, below⟩
        exact ⟨⟨hkey, keys⟩, ⟨hlater, once⟩, fun d hd => ⟨hnew d hd, hbefore d hd⟩, hv, below⟩
      · rintro ⟨⟨hkey, keys⟩, ⟨hlater, once⟩, hold, hv, below⟩
        exact ⟨⟨hkey, fun d hd => (hold d hd).1⟩, hv, keys, once,
          ⟨fun d hd => (hold d hd).2, hlater, nofun⟩, below⟩

end

end SchemaTree.Document
