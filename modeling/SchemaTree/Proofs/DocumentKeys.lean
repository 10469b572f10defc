import Mathlib.Data.List.TakeWhile
import SchemaTree.Document.Key

/-!
Keys that are written for fields. Whatever the name of a field is, as long as no character in it
starts a suffix or ends a line, its key is read back as that name with those suffixes, and it is
read as the key of rules only if the name is. And no other keys are read: what is read as a name
with suffixes is written as that name with those suffixes, but for a line feed at its end.
-/

namespace SchemaTree.Document

/-- A name that a key can be written for. -/
structure FieldName (name : String) : Prop where
  nonempty : name ≠ ""
  plain : ∀ c ∈ name.toList, c ≠ '[' ∧ c ≠ '?' ∧ c ≠ '!' ∧ c ≠ '\n'
  notOwnRules : ¬ ∀ c ∈ name.toList, c = '='

def suffixes (array required strict : Bool) : String :=
  (if array then "[]" else "") ++ (if required then "" else "?") ++ (if strict then "!" else "")

theorem ofSuffixes?_suffixes (name : String) (array required strict : Bool) :
    Key.ofSuffixes? name (suffixes array required strict).toList =
      some ⟨name, array, !required, strict⟩ := by
  cases array <;> cases required <;> cases strict <;> rfl

theorem startsSuffix_head (array required strict : Bool) :
    (suffixes array required strict).toList.head?.all startsSuffix = true := by
  cases array <;> cases required <;> cases strict <;> rfl

theorem root?_written (array required strict : Bool) :
    Key.root? ("schema" ++ suffixes array required strict) =
      some ⟨"schema", array, !required, strict⟩ := by
  cases array <;> cases required <;> cases strict <;> decide

/-- A name is plain up to where something starts suffixes. -/
theorem span_append {name rest : String} (hname : ∀ c ∈ name.toList, startsSuffix c = false)
    (hrest : rest.toList.head?.all startsSuffix = true) :
    (name ++ rest).toList.takeWhile (fun c => !startsSuffix c) = name.toList ∧
      (name ++ rest).toList.dropWhile (fun c => !startsSuffix c) = rest.toList := by
  have hplain : ∀ c ∈ name.toList, (!startsSuffix c) = true := fun c hc => by simp [hname c hc]
  rw [String.toList_append, List.takeWhile_append_of_pos hplain,
    List.dropWhile_append_of_pos hplain]
  cases hchars : rest.toList with
  | nil => simp
  | cons c cs =>
      have hc : startsSuffix c = true := by simpa [hchars] using hrest
      simp [hc]

theorem field?_append {name rest : String} (hname : ∀ c ∈ name.toList, startsSuffix c = false)
    (hrest : rest.toList.head?.all startsSuffix = true) :
    Key.field? (name ++ rest) = Key.ofSuffixes? name rest.toList := by
  obtain ⟨htake, hdrop⟩ := span_append hname hrest
  rw [Key.field?, htake, hdrop, String.ofList_toList]

theorem field?_of_plain {name : String} (hname : ∀ c ∈ name.toList, startsSuffix c = false)
    (array required strict : Bool) :
    Key.field? (name ++ suffixes array required strict) =
      some ⟨name, array, !required, strict⟩ := by
  rw [field?_append hname (startsSuffix_head array required strict), ofSuffixes?_suffixes]

section written

variable {name : String} (hname : FieldName name) (array required strict : Bool)

include hname

theorem FieldName.startsSuffix_eq_false {c : Char} (hc : c ∈ name.toList) :
    startsSuffix c = false := by
  obtain ⟨h₁, h₂, h₃, -⟩ := hname.plain c hc
  simp [startsSuffix, h₁, h₂, h₃]

theorem field?_written :
    Key.field? (name ++ suffixes array required strict) =
      some ⟨name, array, !required, strict⟩ :=
  field?_of_plain (fun _ hc => hname.startsSuffix_eq_false hc) array required strict

/-- A character of the name is left where the key of rules would end. -/
theorem isOwnRules_written : isOwnRules (name ++ suffixes array required strict) = false := by
  have hrest : isEnd ((name ++ suffixes array required strict).toList.dropWhile (· == '=')) =
      false := by
    rw [String.toList_append, List.dropWhile_append]
    cases hleft : name.toList.dropWhile (· == '=') with
    | nil =>
        rw [List.dropWhile_eq_nil_iff] at hleft
        exact absurd (fun c hc => by simpa using hleft c hc) hname.notOwnRules
    | cons c cs =>
        have hmem : c ∈ name.toList := by
          apply (List.dropWhile_sublist (· == '=')).subset
          rw [hleft]
          exact List.mem_cons_self ..
        have hc := (hname.plain c hmem).2.2.2
        simp [isEnd, hc]
  rw [isOwnRules, hrest, Bool.and_false]

end written

theorem written_injective {name other : String} (hname : FieldName name) (hother : FieldName other)
    {a b c a' b' c' : Bool} (h : name ++ suffixes a b c = other ++ suffixes a' b' c') :
    name = other := by
  have hread := field?_written hname a b c
  rw [h, field?_written hother] at hread
  exact (Key.mk.inj (Option.some.inj hread)).1.symm

section reading

theorem takenBrackets_append (rest : List Char) :
    (if (takenBrackets rest).1 then ['[', ']'] else []) ++ (takenBrackets rest).2 = rest := by
  unfold takenBrackets
  split <;> rfl

theorem taken_append (c : Char) (rest : List Char) :
    (if (taken c rest).1 then [c] else []) ++ (taken c rest).2 = rest := by
  cases rest with
  | nil => rfl
  | cons d cs =>
      by_cases hd : d = c
      · simp [taken, hd]
      · simp [taken, hd]

theorem toList_suffixes (array required strict : Bool) :
    (suffixes array required strict).toList = (if array then ['[', ']'] else []) ++
      ((if required then [] else ['?']) ++ (if strict then ['!'] else [])) := by
  cases array <;> cases required <;> cases strict <;> rfl

def Key.suffixes (k : Key) : String := Document.suffixes k.array (!k.optional) k.strict

/-- What can be left of a key after its name is its suffixes, and a line feed after them. -/
theorem ofSuffixes?_iff {name : String} {rest : List Char} {k : Key} :
    Key.ofSuffixes? name rest = some k ↔
      k.name = name ∧ (rest = k.suffixes.toList ∨ rest = k.suffixes.toList ++ ['\n']) := by
  constructor
  · intro h
    obtain ⟨a, ha⟩ : ∃ a, a = takenBrackets rest := ⟨_, rfl⟩
    obtain ⟨b, hb⟩ : ∃ b, b = taken '?' a.2 := ⟨_, rfl⟩
    obtain ⟨c, hc⟩ : ∃ c, c = taken '!' b.2 := ⟨_, rfl⟩
    have hread : Key.ofSuffixes? name rest =
        if isEnd c.2 then some ⟨name, a.1, b.1, c.1⟩ else none := by
      rw [hc, hb, ha]
      rfl
    -- what is cut off and what is left make up the rest
    have hrest : rest = (if a.1 then ['[', ']'] else []) ++
        ((if b.1 then ['?'] else []) ++ ((if c.1 then ['!'] else []) ++ c.2)) := by
      rw [hc, taken_append, hb, taken_append, ha, takenBrackets_append]
    rw [hread] at h
    split at h
    · rename_i hend
      obtain rfl := Option.some.inj h
      have hcut : rest = (Key.suffixes ⟨name, a.1, b.1, c.1⟩).toList ++ c.2 := by
        rw [hrest, Key.suffixes, toList_suffixes]
        cases b.1 <;> simp
      refine ⟨rfl, ?_⟩
      rw [hcut]
      rcases Bool.or_eq_true_iff.mp hend with hleft | hleft
      · rw [beq_iff_eq.mp hleft, List.append_nil]
        exact .inl rfl
      · rw [beq_iff_eq.mp hleft]
        exact .inr rfl
    · exact nomatch h
  · obtain ⟨label, array, optional, strict⟩ := k
    simp only [Key.suffixes, toList_suffixes]
    rintro ⟨rfl, rfl | rfl⟩ <;> cases array <;> cases optional <;> cases strict <;> rfl

/-- A key is read as the field of a name if and only if it is the name with suffixes. After a
suffix, but not after the name itself, a line feed is dropped. -/
theorem field?_iff {text : String} {k : Key} :
    Key.field? text = some k ↔ (∀ c ∈ k.name.toList, startsSuffix c = false) ∧
      (text = k.name ++ k.suffixes ∨ k.suffixes ≠ "" ∧ text = k.name ++ k.suffixes ++ "\n") := by
  have hhead : k.suffixes.toList.head?.all startsSuffix = true := startsSuffix_head ..
  constructor
  · intro h
    obtain ⟨hname, hrest⟩ := ofSuffixes?_iff.mp h
    have htake : text.toList.takeWhile (fun c => !startsSuffix c) = k.name.toList := by
      rw [hname, String.toList_ofList]
    have htext : text.toList =
        k.name.toList ++ text.toList.dropWhile (fun c => !startsSuffix c) := by
      rw [← htake, List.takeWhile_append_dropWhile]
    refine ⟨fun c hc => ?_, ?_⟩
    · rw [← htake] at hc
      simpa using List.mem_takeWhile_imp hc
    rcases hrest with hrest | hrest
    · exact .inl (String.toList_injective (by rw [htext, hrest, String.toList_append]))
    · refine .inr ⟨fun hempty => ?_, String.toList_injective ?_⟩
      -- without suffixes the line feed would be the first character that starts one
      · have hstops := List.head?_dropWhile_not (fun c => !startsSuffix c) text.toList
        rw [hrest, hempty] at hstops
        exact nomatch hstops
      · rw [htext, hrest]
        simp
  · rintro ⟨hplain, rfl | ⟨hsuffixes, rfl⟩⟩
    · rw [field?_append hplain hhead]
      exact ofSuffixes?_iff.mpr ⟨rfl, .inl rfl⟩
    · rw [String.append_assoc, field?_append hplain]
      · exact ofSuffixes?_iff.mpr ⟨rfl, .inr (by simp)⟩
      · rw [String.toList_append]
        cases hchars : k.suffixes.toList with
        | nil => exact absurd (String.toList_injective hchars) hsuffixes
        | cons c cs => simpa [hchars] using hhead

theorem root?_iff {text : String} {k : Key} :
    Key.root? text = some k ↔ k.name = "schema" ∧
      (text = "schema" ++ k.suffixes ∨ text = "schema" ++ k.suffixes ++ "\n") := by
  have htext : ∀ rest : String, text = "schema" ++ rest ↔
      text.toList.take 6 = "schema".toList ∧ text.toList.drop 6 = rest.toList := by
    intro rest
    rw [← String.toList_inj, String.toList_append]
    constructor
    · intro h
      rw [h]
      exact ⟨rfl, rfl⟩
    · rintro ⟨htake, hdrop⟩
      rw [← htake, ← hdrop, List.take_append_drop]
  rw [String.append_assoc, htext, htext, String.toList_append, Key.root?]
  split
  · rename_i hroot
    simp [ofSuffixes?_iff, hroot]
  · rename_i hroot
    simp only [hroot, false_and, or_self, and_false, reduceCtorEq]

theorem isOwnRules_append {signs rest : String} (hne : signs ≠ "")
    (hsigns : ∀ c ∈ signs.toList, c = '=') :
    isOwnRules (signs ++ rest) = isEnd (rest.toList.dropWhile (· == '=')) := by
  have hall : ∀ c ∈ signs.toList, (c == '=') = true := fun c hc => beq_iff_eq.mpr (hsigns c hc)
  have hhead : (signs ++ rest).toList.head? = some '=' := by
    cases hchars : signs.toList with
    | nil => exact absurd (String.toList_injective hchars) hne
    | cons c cs => simp [hchars, hsigns c (by simp [hchars])]
  rw [isOwnRules, hhead, String.toList_append, List.dropWhile_append_of_pos hall]
  rfl

/-- A key holds a node's own rules if and only if it is made of `=` only, but for a line feed at
its end. -/
theorem isOwnRules_iff {text : String} :
    isOwnRules text = true ↔ ∃ signs : String, signs ≠ "" ∧ (∀ c ∈ signs.toList, c = '=') ∧
      (text = signs ∨ text = signs ++ "\n") := by
  constructor
  · intro h
    obtain ⟨hhead, hend⟩ := Bool.and_eq_true_iff.mp h
    cases hchars : text.toList with
    | nil => simp [hchars] at hhead
    | cons c cs =>
        obtain rfl : c = '=' := by simpa [hchars] using hhead
        have hleft : cs.dropWhile (· == '=') = [] ∨ cs.dropWhile (· == '=') = ['\n'] := by
          simpa [hchars, isEnd] using hend
        have hsplit : text.toList = '=' :: cs.takeWhile (· == '=') ++ cs.dropWhile (· == '=') := by
          rw [hchars, List.cons_append, List.takeWhile_append_dropWhile]
        refine ⟨String.ofList ('=' :: cs.takeWhile (· == '=')), by simp, fun c hc => ?_, ?_⟩
        · rw [String.toList_ofList] at hc
          rcases List.mem_cons.mp hc with rfl | hc
          · rfl
          · simpa using List.mem_takeWhile_imp hc
        · refine hleft.imp (fun hleft => ?_) fun hleft => ?_ <;>
            exact String.toList_injective (by simp [hsplit, hleft])
  · rintro ⟨signs, hne, hsigns, rfl | rfl⟩
    · rw [← String.append_empty (s := text), isOwnRules_append hne hsigns]
      rfl
    · rw [isOwnRules_append hne hsigns]
      rfl

theorem written_of_field? {text : String} {k : Key} (hline : '\n' ∉ text.toList)
    (h : Key.field? text = some k) :
    (∀ c ∈ k.name.toList, startsSuffix c = false) ∧
      text = k.name ++ suffixes k.array (!k.optional) k.strict := by
  obtain ⟨hplain, rfl | ⟨-, rfl⟩⟩ := field?_iff.mp h
  · exact ⟨hplain, rfl⟩
  · exact absurd (by simp) hline

theorem written_of_root? {text : String} {k : Key} (hline : '\n' ∉ text.toList)
    (h : Key.root? text = some k) :
    text = "schema" ++ suffixes k.array (!k.optional) k.strict := by
  obtain ⟨-, rfl | rfl⟩ := root?_iff.mp h
  · rfl
  · exact absurd (by simp) hline

theorem isOwnRules_eq {text : String} (hline : '\n' ∉ text.toList) :
    isOwnRules text = (text != "" && text.toList.all (· == '=')) := by
  rw [Bool.eq_iff_iff, isOwnRules_iff, Bool.and_eq_true_iff, List.all_eq_true]
  simp only [bne_iff_ne, beq_iff_eq]
  constructor
  · rintro ⟨signs, hne, hsigns, rfl | rfl⟩
    · exact ⟨hne, hsigns⟩
    · exact absurd (by simp) hline
  · rintro ⟨hne, hsigns⟩
    exact ⟨text, hne, hsigns, .inl rfl⟩

end reading

end SchemaTree.Document
