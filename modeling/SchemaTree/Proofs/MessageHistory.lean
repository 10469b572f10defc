import SchemaTree.Proofs.CopyFaults

/-!
Messages in the course of a table. Whatever formatters have been set and dropped, a name has the one
that was set last, unless it was dropped since. What a formatter cannot tell is told in general
terms, so that a failure is left without a text only if its name cannot be shown.
-/

namespace SchemaTree

variable {κ : Type} [Inspect κ]

inductive TableChange (κ : Type) where
  | register (name : Value κ) (f : Formatter κ)
  | unregister (name : Value κ)

omit [Inspect κ] in
def TableChange.name : TableChange κ → Value κ
  | register name _ | unregister name => name

def TableChange.IsAbout (c : TableChange κ) (n : String) : Prop := c.name.asText = some n

/-- The formatter that a name has in a table after changes, where `default` is that of all others:
the one registered last for the name, if it was not unregistered since. -/
inductive Stands (default : Formatter κ) (changes : List (TableChange κ)) :
    Value κ → Formatter κ → Prop
  | registered {n : String} {k : Value κ} {f : Formatter κ} {before after : List (TableChange κ)}
    (hchanges : changes = before ++ .register k f :: after) (hk : k.asText = some n)
    (hafter : ∀ c ∈ after, ¬ c.IsAbout n) : Stands default changes (.str n) f
  | unregistered {n : String} {k : Value κ} {before after : List (TableChange κ)}
    (hchanges : changes = before ++ .unregister k :: after) (hk : k.asText = some n)
    (hafter : ∀ c ∈ after, ¬ c.IsAbout n) : Stands default changes (.str n) default
  | never {n : String} (hchanges : ∀ c ∈ changes, ¬ c.IsAbout n) :
    Stands default changes (.str n) default
  | noText {name : Value κ} (hname : ∀ n, name ≠ .str n) : Stands default changes name default

theorem exists_stands (default : Formatter κ) (changes : List (TableChange κ)) (name : Value κ) :
    ∃ f, Stands default changes name f := by
  cases name with
  | str n =>
      rcases forall_or_exists_first (fun c : TableChange κ => ¬ c.IsAbout n) changes.reverse with
        hall | ⟨after, c, before, hchanges, hafter, hc⟩
      · exact ⟨default, .never fun c hc => hall c (List.mem_reverse.mpr hc)⟩
      have hafter : ∀ c ∈ after.reverse, ¬ c.IsAbout n :=
        fun c hc => hafter c (List.mem_reverse.mp hc)
      have hchanges : changes = before.reverse ++ c :: after.reverse := by
        rw [← List.reverse_reverse changes, hchanges]
        simp
      have hc : c.name.asText = some n := not_not.mp hc
      cases c with
      | register k f => exact ⟨f, .registered hchanges hc hafter⟩
      | unregister k => exact ⟨default, .unregistered hchanges hc hafter⟩
  | _ => exact ⟨default, .noText nofun⟩

def Texts (items : List (Value κ)) (texts : List String) : Prop :=
  List.Forall₂ (fun item text => item.text = .ok text) items texts

/-- What a path is told as. -/
inductive Locates (path : Value κ) : String → Prop
  | root (hpath : path.isTrue = .ok false) : Locates path "<root>"
  | parts {parts : List (Value κ)} {texts : List String} (hpath : path.isTrue = .ok true)
    (hparts : path.items = .ok parts) (htexts : Texts parts texts) :
    Locates path (".".intercalate texts)

/-- What a formatter says of a failure, where `phrase` is the meaning of the caller's ones. Where it
says nothing, it raises. -/
inductive Formatter.Says (phrase : κ → Option (Phrase κ)) (name params path value : Value κ) :
    Formatter κ → String → Prop
  | unnamed {location : String} (hpath : Locates path location) (hname : name = .null) :
    Says phrase name params path value .generic ("Value at '" ++ location ++ "' is invalid")
  | named {location shown : String} (hpath : Locates path location) (hname : name ≠ .null)
    (hshown : name.text = .ok shown) (hparams : params = .null) :
    Says phrase name params path value .generic
      ("Value at '" ++ location ++ "' failed rule '" ++ shown ++ "'")
  | detailed {location shown printed : String} (hpath : Locates path location)
    (hname : name ≠ .null) (hshown : name.text = .ok shown) (hparams : params ≠ .null)
    (hprinted : params.render = .ok printed) :
    Says phrase name params path value .generic
      ("Value at '" ++ location ++ "' failed rule '" ++ shown ++ "' (" ++ printed ++ ")")
  | required {location : String} (hpath : Locates path location) :
    Says phrase name params path value .required ("Field '" ++ location ++ "' is required")
  | type {location expected : String} (hpath : Locates path location)
    (hparams : params.text = .ok expected) :
    Says phrase name params path value .type
      ("Field '" ++ location ++ "' expects " ++ expected ++ ", got " ++ value.kind)
  | availableFields {location : String} {allowed : List (Value κ)} {texts : List String}
    (hpath : Locates path location) (hparams : params.elements = .ok allowed)
    (htexts : Texts allowed texts) :
    Says phrase name params path value .availableFields
      ("Field '" ++ location ++ "' has unknown fields, allowed fields: " ++
        ", ".intercalate texts)
  | given {o : κ} {p : Phrase κ} {text : String} (hphrase : phrase o = some p)
    (htext : p name params path value = .ok text) :
    Says phrase name params path value (.given (.object o)) text

theorem textParts_eq_ok_iff {items : List (Value κ)} {texts : List String} :
    textParts items = .ok texts ↔ Texts items texts := by
  rw [textParts, mapError_eq_ok]
  refine ⟨mapM_eq_ok, fun h => ?_⟩
  induction h with
  | nil => rfl
  | cons htext _ ih => rw [List.mapM_cons, htext, ih]; rfl

theorem formatPath_eq_ok_iff {path : Value κ} {location : String} :
    formatPath path = .ok location ↔ Locates path location := by
  constructor
  · intro h
    obtain ⟨b, hb, h⟩ := bind_eq_ok.mp h
    cases b with
    | false =>
        obtain rfl := Except.ok.inj h
        exact .root hb
    | true =>
        obtain ⟨parts, hparts, h⟩ := bind_eq_ok.mp h
        obtain ⟨texts, htexts, h⟩ := bind_eq_ok.mp h
        obtain rfl := Except.ok.inj h
        exact .parts hb hparts (textParts_eq_ok_iff.mp htexts)
  · intro h
    unfold formatPath
    cases h with
    | root hpath => rw [hpath]; rfl
    | parts hpath hparts htexts =>
        simp only [hpath, hparts, bind, Except.bind, textParts_eq_ok_iff.mpr htexts]
        rfl

namespace Formatter

variable {phrase : κ → Option (Phrase κ)} {name params path value : Value κ} {text : String}

theorem genericText_named (hname : name ≠ .null) :
    genericText name .null path value = do
      let location ← formatPath path
      return "Value at '" ++ location ++ "' failed rule '" ++ (← name.text) ++ "'" := by
  unfold genericText
  congr 1
  funext location
  split
  · exact absurd rfl hname
  · rfl
  · exact absurd rfl ‹_›

theorem genericText_detailed (hname : name ≠ .null) (hparams : params ≠ .null) :
    genericText name params path value = do
      let location ← formatPath path
      return "Value at '" ++ location ++ "' failed rule '" ++ (← name.text) ++ "' (" ++
        (← params.render) ++ ")" := by
  unfold genericText
  congr 1
  funext location
  split
  · exact absurd rfl hname
  · exact absurd rfl hparams
  · rfl

theorem generic_says_iff :
    Formatter.generic.Says phrase name params path value text ↔
      genericText name params path value = .ok text := by
  constructor
  · intro h
    cases h with
    | unnamed hpath hname =>
        rw [genericText, formatPath_eq_ok_iff.mpr hpath, hname]
        rfl
    | named hpath hname hshown hparams =>
        rw [hparams, genericText_named hname, formatPath_eq_ok_iff.mpr hpath, hshown]
        rfl
    | detailed hpath hname hshown hparams hprinted =>
        rw [genericText_detailed hname hparams, formatPath_eq_ok_iff.mpr hpath, hshown, hprinted]
        rfl
  · intro h
    by_cases hname : name = .null
    · subst hname
      obtain ⟨location, hpath, h⟩ := bind_eq_ok.mp h
      obtain rfl := Except.ok.inj h
      exact .unnamed (formatPath_eq_ok_iff.mp hpath) rfl
    by_cases hparams : params = .null
    · subst hparams
      rw [genericText_named hname] at h
      obtain ⟨location, hpath, h⟩ := bind_eq_ok.mp h
      obtain ⟨shown, hshown, h⟩ := bind_eq_ok.mp h
      obtain rfl := Except.ok.inj h
      exact .named (formatPath_eq_ok_iff.mp hpath) hname hshown rfl
    · rw [genericText_detailed hname hparams] at h
      obtain ⟨location, hpath, h⟩ := bind_eq_ok.mp h
      obtain ⟨shown, hshown, h⟩ := bind_eq_ok.mp h
      obtain ⟨printed, hprinted, h⟩ := bind_eq_ok.mp h
      obtain rfl := Except.ok.inj h
      exact .detailed (formatPath_eq_ok_iff.mp hpath) hname hshown hparams hprinted

theorem apply_eq_ok_of {f : Formatter κ} (h : f.Says phrase name params path value text) :
    f.apply phrase name params path value = .ok text := by
  cases f with
  | generic => exact generic_says_iff.mp h
  | required =>
      cases h with
      | required hpath =>
          simp only [apply, formatPath_eq_ok_iff.mpr hpath, bind, Except.bind]
          rfl
  | type =>
      cases h with
      | type hpath hparams =>
          simp only [apply, formatPath_eq_ok_iff.mpr hpath, hparams, bind, Except.bind]
          rfl
  | availableFields =>
      cases h with
      | availableFields hpath hparams htexts =>
          simp only [apply, hparams, formatPath_eq_ok_iff.mpr hpath, bind, Except.bind,
            textParts_eq_ok_iff.mpr htexts]
          rfl
  | given v =>
      cases h with
      | given hphrase htext =>
          simp only [apply, hphrase]
          exact htext

theorem says_iff {f : Formatter κ} :
    f.Says phrase name params path value text ↔
      f.apply phrase name params path value = .ok text := by
  refine ⟨apply_eq_ok_of, fun h => ?_⟩
  cases f with
  | generic => exact generic_says_iff.mpr h
  | required =>
      obtain ⟨location, hpath, h⟩ := bind_eq_ok.mp h
      obtain rfl := Except.ok.inj h
      exact .required (formatPath_eq_ok_iff.mp hpath)
  | type =>
      obtain ⟨location, hpath, h⟩ := bind_eq_ok.mp h
      obtain ⟨expected, hparams, h⟩ := bind_eq_ok.mp h
      obtain rfl := Except.ok.inj h
      exact .type (formatPath_eq_ok_iff.mp hpath) hparams
  | availableFields =>
      obtain ⟨allowed, hparams, h⟩ := bind_eq_ok.mp h
      obtain ⟨texts, htexts, h⟩ := bind_eq_ok.mp h
      obtain ⟨location, hpath, h⟩ := bind_eq_ok.mp h
      obtain rfl := Except.ok.inj h
      exact .availableFields (formatPath_eq_ok_iff.mp hpath) hparams (textParts_eq_ok_iff.mp htexts)
  | given v =>
      cases v with
      | object o =>
          cases hphrase : phrase o with
          | some p =>
              simp only [apply, hphrase] at h
              exact .given hphrase h
          | none =>
              simp only [apply, hphrase] at h
              cases h
      | _ => cases h

end Formatter

/-- The table after a call. One that fails leaves it as it was. -/
def TableChange.apply (t : MessageTable κ) : TableChange κ → MessageTable κ
  | register name f => (t.register name f).toOption.getD t
  | unregister name => (t.unregister name).toOption.getD t

namespace MessageTable

def after (t : MessageTable κ) (changes : List (TableChange κ)) : MessageTable κ :=
  changes.foldl TableChange.apply t

theorem builtin_eq_after : (builtin : MessageTable κ) = ({} : MessageTable κ).after
    [.register (.str "required") .required, .register (.str "type") .type,
      .register (.str "available_fields") .availableFields] := by
  rfl

section lookups

variable {t : MessageTable κ} {n : String} {name : Value κ} {f : Formatter κ}

theorem find?_put_self (hname : name.asText = some n) (es : List (Value κ × Formatter κ)) :
    ((put name f es).find? fun e => (Value.str n).agrees e.1).map (·.2) = some f := by
  fun_induction put name f es with
  | case1 => simp [Value.str_agrees_iff.mpr hname]
  | case2 k g es hk =>
      simp [Value.str_agrees_iff.mpr ((Value.asText_of_agrees hk).symm.trans hname)]
  | case3 k g es hk ih =>
      have hk : (Value.str n).agrees k = false := by
        rw [Bool.eq_false_iff, ne_eq, Value.str_agrees_iff]
        exact fun htext => hk (Value.agrees_of_asText hname htext)
      simpa [hk] using ih

theorem find?_put_of_ne (hname : name.asText ≠ some n) (es : List (Value κ × Formatter κ)) :
    (put name f es).find? (fun e => (Value.str n).agrees e.1) =
      es.find? fun e => (Value.str n).agrees e.1 := by
  fun_induction put name f es with
  | case1 => simpa [Value.str_agrees_iff] using hname
  | case2 k g es hk =>
      have hk : (Value.str n).agrees k = false := by
        rw [Bool.eq_false_iff, ne_eq, Value.str_agrees_iff, ← Value.asText_of_agrees hk]
        exact hname
      simp [hk]
  | case3 k g es hk ih =>
      simp only [List.find?_cons, ih]

theorem find?_dropped_self (hname : name.asText = some n) (es : List (Value κ × Formatter κ)) :
    (es.filter fun e => !name.agrees e.1).find? (fun e => (Value.str n).agrees e.1) = none := by
  rw [List.find?_eq_none]
  intro e he htext
  obtain ⟨-, hkept⟩ := List.mem_filter.mp he
  rw [Value.agrees_of_asText hname (Value.str_agrees_iff.mp htext)] at hkept
  cases hkept

theorem find?_dropped_of_ne (hname : name.asText ≠ some n) (es : List (Value κ × Formatter κ)) :
    (es.filter fun e => !name.agrees e.1).find? (fun e => (Value.str n).agrees e.1) =
      es.find? fun e => (Value.str n).agrees e.1 := by
  rw [List.find?_filter]
  congr 1
  funext e
  by_cases he : (Value.str n).agrees e.1 = true
  · have hother : name.agrees e.1 = false := by
      rw [Bool.eq_false_iff]
      intro hagrees
      exact hname ((Value.asText_of_agrees hagrees).trans (Value.str_agrees_iff.mp he))
    simp [he, hother]
  · simp [he]

theorem formatter_str (t : MessageTable κ) (n : String) :
    t.formatter (.str n) =
      ((t.entries.find? fun e => (Value.str n).agrees e.1).map (·.2)).getD t.fallback := by
  unfold formatter
  cases t.entries.find? fun e => (Value.str n).agrees e.1 <;> rfl

theorem fallback_apply (t : MessageTable κ) (c : TableChange κ) :
    (c.apply t).fallback = t.fallback := by
  cases c with
  | register name f =>
      simp only [TableChange.apply, register]
      split <;> rfl
  | unregister name =>
      simp only [TableChange.apply, unregister]
      split <;> rfl

theorem formatter_apply_register (hname : name.asText = some n) (t : MessageTable κ)
    (f : Formatter κ) : ((TableChange.register name f).apply t).formatter (.str n) = f := by
  have happly : (TableChange.register name f).apply t =
      { t with entries := put name f t.entries } := by
    simp [TableChange.apply, register, Value.canBeKey_of_asText hname, Except.toOption]
  rw [happly, formatter_str, find?_put_self hname]
  rfl

theorem formatter_apply_unregister (hname : name.asText = some n) (t : MessageTable κ) :
    ((TableChange.unregister name).apply t).formatter (.str n) = t.fallback := by
  have happly : (TableChange.unregister name).apply t =
      { t with entries := t.entries.filter fun e => !name.agrees e.1 } := by
    simp [TableChange.apply, unregister, Value.canBeKey_of_asText hname, Except.toOption]
  rw [happly, formatter_str, find?_dropped_self hname]
  rfl

theorem formatter_apply_of_ne {c : TableChange κ} (hc : ¬ c.IsAbout n) (t : MessageTable κ) :
    (c.apply t).formatter (.str n) = t.formatter (.str n) := by
  cases c with
  | register name f =>
      simp only [TableChange.apply, register]
      split
      · rw [formatter_str, formatter_str]
        exact congrArg (fun e => (e.map (·.2)).getD t.fallback) (find?_put_of_ne hc t.entries)
      · rfl
  | unregister name =>
      simp only [TableChange.apply, unregister]
      split
      · rw [formatter_str, formatter_str]
        exact congrArg (fun e => (e.map (·.2)).getD t.fallback) (find?_dropped_of_ne hc t.entries)
      · rfl

end lookups

section after

variable {n : String} (t : MessageTable κ)

theorem fallback_after (changes : List (TableChange κ)) :
    (t.after changes).fallback = t.fallback := by
  induction changes generalizing t with
  | nil => rfl
  | cons c changes ih => exact (ih (c.apply t)).trans (t.fallback_apply c)

theorem formatter_after_of_ne {changes : List (TableChange κ)}
    (hchanges : ∀ c ∈ changes, ¬ c.IsAbout n) :
    (t.after changes).formatter (.str n) = t.formatter (.str n) := by
  induction changes generalizing t with
  | nil => rfl
  | cons c changes ih =>
      rw [List.forall_mem_cons] at hchanges
      exact (ih (c.apply t) hchanges.2).trans (formatter_apply_of_ne hchanges.1 t)

theorem after_append (xs ys : List (TableChange κ)) :
    t.after (xs ++ ys) = (t.after xs).after ys := List.foldl_append

theorem formatter_of_stands {default f : Formatter κ} {changes : List (TableChange κ)}
    {name : Value κ} (h : Stands default changes name f) :
    (after { fallback := default } changes).formatter name = f := by
  cases h with
  | registered hchanges hk hafter =>
      rw [hchanges, after_append]
      exact (formatter_after_of_ne _ hafter).trans (formatter_apply_register hk ..)
  | unregistered hchanges hk hafter =>
      rw [hchanges, after_append]
      refine (formatter_after_of_ne _ hafter).trans ?_
      rw [formatter_apply_unregister hk, fallback_after]
  | never hchanges => exact formatter_after_of_ne _ hchanges
  | noText hname =>
      refine Eq.trans ?_ (fallback_after { fallback := default } changes)
      cases name with
      | str n => exact absurd rfl (hname n)
      | _ => rfl

end after

end MessageTable

variable {phrase : κ → Option (Phrase κ)} {name params path value : Value κ}

/-- Where nothing is told of the parameters, there is a text for every path and name that can be
shown. -/
theorem generic_says_of_shown {location shown : String} (hpath : Locates path location)
    (hname : name.text = .ok shown) :
    ∃ text, Formatter.generic.Says phrase name .null path value text := by
  by_cases hnull : name = .null
  · exact ⟨_, .unnamed hpath hnull⟩
  · exact ⟨_, .named hpath hnull hname rfl⟩

/-- A message is what the formatter of a name says, or what the generic one says without the
parameters where that one raises. -/
theorem MessageTable.format_eq_ok_iff {t : MessageTable κ} {text : String} :
    t.format phrase name params path value = .ok text ↔
      (t.formatter name).Says phrase name params path value text ∨
        (∀ other, ¬ (t.formatter name).Says phrase name params path value other) ∧
          Formatter.generic.Says phrase name .null path value text := by
  simp only [Formatter.says_iff, MessageTable.format]
  cases (t.formatter name).apply phrase name params path value with
  | ok other => simp
  | error f => simp [Formatter.apply]

namespace MessageTable

theorem exists_format {t : MessageTable κ} {location shown : String}
    (hpath : Locates path location) (hname : name.text = .ok shown) :
    ∃ text, t.format phrase name params path value = .ok text := by
  by_cases hspoken : ∃ text, (t.formatter name).Says phrase name params path value text
  · obtain ⟨text, htext⟩ := hspoken
    exact ⟨text, format_eq_ok_iff.mpr (.inl htext)⟩
  · obtain ⟨text, htext⟩ : ∃ text, Formatter.generic.Says phrase name .null path value text :=
      generic_says_of_shown hpath hname
    exact ⟨text, format_eq_ok_iff.mpr (.inr ⟨not_exists.mp hspoken, htext⟩)⟩

end MessageTable

namespace Wording

variable (w : Wording κ)

theorem exists_validation {n : String} (hn : n ≠ "") (params : Value κ) :
    ∃ text, w.format (.str n) params (.list .fresh []) .null = .ok text ∧
      w.validation (.str n) params = .ok { name := n, params, text } := by
  obtain ⟨text, htext⟩ : ∃ text, w.format (.str n) params (.list .fresh []) .null = .ok text :=
    MessageTable.exists_format (.root rfl) rfl
  have htrue : (Value.str n : Value κ).isTrue = .ok true := by simp [Value.isTrue, hn]
  refine ⟨text, htext, ?_⟩
  simp only [validation, htrue, htext]
  rfl

/-- A failure of a value is made of copies, and can be told if its path and the name of the rule can
be. -/
theorem exists_resultError {location shown : String} {parts : List (Value κ)}
    {params' value' : Value κ} (hparams : params.snapshot = .ok params')
    (hvalue : value.snapshot = .ok value') (hparts : path.elements = .ok parts)
    (hpath : Locates (.list .fresh parts) location) (hname : name.text = .ok shown)
    (index : Value κ) :
    ∃ e, w.resultError name params value index path = .ok e ∧
      w.format name params' (.list .fresh parts) value' = .ok e.text := by
  obtain ⟨text, htext⟩ : ∃ text, w.format name params' (.list .fresh parts) value' = .ok text :=
    MessageTable.exists_format hpath hname
  simp only [resultError, hparams, hvalue, hparts, bind, Except.bind, htext]
  exact ⟨_, rfl, rfl⟩

end Wording

/-- Whatever has been registered and unregistered in a table, exactly one formatter stands for a
name, and the message is what it says. Where it raises, the message is what the generic formatter
says without the parameters. So there is a message wherever the path and the name can be shown: a
rule's failure is raised whatever it has to say, and one of a value is told. -/
theorem format_by_standing_formatter (default : Formatter κ) (changes : List (TableChange κ)) :
    (∀ name, ∃ f, Stands default changes name f ∧ (∀ g, Stands default changes name g → g = f) ∧
      ∀ phrase params path value text,
        (MessageTable.after { fallback := default } changes).format phrase name params path value =
            .ok text ↔
          f.Says phrase name params path value text ∨
            (∀ other, ¬ f.Says phrase name params path value other) ∧
              Formatter.generic.Says phrase name .null path value text) ∧
    (∀ phrase name params path value location shown, Locates path location →
      name.text = .ok shown →
      ∃ text, (MessageTable.after { fallback := default } changes).format phrase name params path
        value = .ok text) ∧
    ∀ w : Wording κ, w.table = MessageTable.after { fallback := default } changes →
      (∀ n params, n ≠ "" → ∃ text,
        w.format (.str n) params (.list .fresh []) .null = .ok text ∧
          w.validation (.str n) params = .ok { name := n, params, text }) ∧
      ∀ name params params' value value' index path parts location shown,
        params.snapshot = .ok params' → value.snapshot = .ok value' →
        path.elements = .ok parts → Locates (.list .fresh parts) location →
        name.text = .ok shown →
        ∃ e, w.resultError name params value index path = .ok e ∧
          w.format name params' (.list .fresh parts) value' = .ok e.text := by
  refine ⟨fun name => ?_, fun phrase name params path value location shown hpath hname =>
    MessageTable.exists_format hpath hname, fun w _ => ⟨fun n params hn =>
    w.exists_validation hn params, fun name params params' value value' index path parts location
    shown hparams hvalue hparts hpath hname =>
    w.exists_resultError hparams hvalue hparts hpath hname index⟩⟩
  obtain ⟨f, hf⟩ := exists_stands default changes name
  have hfound := MessageTable.formatter_of_stands hf
  refine ⟨f, hf, fun g hg => (MessageTable.formatter_of_stands hg).symm.trans hfound, ?_⟩
  intro phrase params path value text
  rw [MessageTable.format_eq_ok_iff, hfound]

/-- Of a rule that gives a number where the formatter for its name needs names of fields, nothing is
told but where it failed. -/
theorem foreign_params_left_out :
    OrderFunction.wording.format (.str "available_fields") (.int 5) (.list .fresh [.str "items"])
      .null = .ok "Value at 'items' failed rule 'available_fields'" := by
  obtain ⟨hformat, -, -⟩ := format_by_standing_formatter (κ := OrderFunction) .generic
    [.register (.str "required") .required, .register (.str "type") .type,
      .register (.str "available_fields") .availableFields]
  obtain ⟨f, -, hunique, hspoken⟩ := hformat (.str "available_fields")
  obtain rfl : .availableFields = f :=
    hunique .availableFields (.registered (rfl : _ = [_, _] ++ _ :: []) rfl (by simp))
  rw [← MessageTable.builtin_eq_after] at hspoken
  have hpath : Locates (.list .fresh [.str "items"] : Value OrderFunction) "items" :=
    .parts rfl rfl (.cons rfl .nil)
  have hshown : (Value.str "available_fields" : Value OrderFunction).text =
    .ok "available_fields" := rfl
  refine (hspoken ..).mpr (.inr ⟨fun other hother => ?_, .named hpath (by simp) hshown rfl⟩)
  cases hother with
  | availableFields _ hparams _ => cases hparams

/-- There is no message for a rule that is named by a connection. -/
theorem connection_not_told :
    ¬ ∃ text, Connection.wording.format (.object (.line 1)) .null (.list .fresh []) .null =
      .ok text := by
  have hraises : Connection.wording.format (.object (.line 1)) .null (.list .fresh []) .null =
      .error (.raised { kind := "ConnectionError", message := "no answer" }) := by
    with_unfolding_all rfl
  rintro ⟨text, htext⟩
  rw [hraises] at htext
  cases htext

end SchemaTree
