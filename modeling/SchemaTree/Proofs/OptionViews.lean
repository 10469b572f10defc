import SchemaTree.Proofs.DocumentFaults

/-!
The views of options. Options are read from a mapping, looked up by key, told as a mapping again,
and taken without their mapper; all of these show the same settings, and nothing of a mapping gets
lost or comes in twice under another name.
-/

namespace SchemaTree

variable {κ : Type} [Inspect κ]

namespace Entries

/-- No key matches one before it, as in a mapping whose keys were set one after the other. -/
def KeysApart (es : Entries κ) : Prop := es.Pairwise fun d e => e.1.agrees d.1 = false

def without (names : List String) (es : Entries κ) : Entries κ :=
  es.filter fun e => !names.any fun name => e.1.agrees (.str name)

theorem get?_cons (key k v : Value κ) (es : Entries κ) :
    get? key ((k, v) :: es) = if key.agrees k then some v else get? key es := by
  unfold get?
  rw [List.find?_cons]
  cases key.agrees k <;> rfl

section insert

variable {key value : Value κ} {es into : Entries κ}

theorem insert_of_new (h : ∀ e ∈ es, key.agrees e.1 = false) :
    insert key value es = es ++ [(key, value)] := by
  fun_induction insert key value es with
  | case1 => rfl
  | case2 k v es hk => simp [hk] at h
  | case3 k v es hk ih =>
      rw [List.forall_mem_cons] at h
      rw [ih h.2, List.cons_append]

theorem mem_insert {e : Value κ × Value κ} (he : e ∈ insert key value es) :
    e.1 = key ∨ ∃ d ∈ es, d.1 = e.1 := by
  fun_induction insert key value es with
  | case1 => exact .inl (by rw [List.mem_singleton.mp he])
  | case2 k v es hk =>
      rcases List.mem_cons.mp he with rfl | he
      · exact .inr ⟨(k, v), List.mem_cons_self, rfl⟩
      · exact .inr ⟨e, List.mem_cons_of_mem _ he, rfl⟩
  | case3 k v es hk ih =>
      rcases List.mem_cons.mp he with rfl | he
      · exact .inr ⟨(k, v), List.mem_cons_self, rfl⟩
      · rcases ih he with hkey | ⟨d, hd, hsame⟩
        · exact .inl hkey
        · exact .inr ⟨d, List.mem_cons_of_mem _ hd, hsame⟩

theorem KeysApart.insert (h : es.KeysApart) : (insert key value es).KeysApart := by
  fun_induction Entries.insert key value es with
  | case1 => exact List.pairwise_singleton _ _
  | case2 k v es hk => exact List.pairwise_cons.mpr (List.pairwise_cons.mp h)
  | case3 k v es hk ih =>
      obtain ⟨hfirst, hrest⟩ := List.pairwise_cons.mp h
      refine List.pairwise_cons.mpr ⟨fun e he => ?_, ih hrest⟩
      rcases mem_insert he with hkey | ⟨d, hd, hsame⟩
      · rw [hkey]
        exact Bool.eq_false_iff.mpr hk
      · rw [← hsame]
        exact hfirst d hd

theorem KeysApart.insertAll (h : into.KeysApart) (es : Entries κ) :
    (insertAll es into).KeysApart := by
  induction es generalizing into with
  | nil => exact h
  | cons e es ih => exact ih h.insert

/-- Entries whose keys are new come behind the others as they are. -/
theorem insertAll_of_new (hes : es.KeysApart)
    (hnew : ∀ e ∈ es, ∀ d ∈ into, e.1.agrees d.1 = false) : insertAll es into = into ++ es := by
  induction es generalizing into with
  | nil => exact (List.append_nil into).symm
  | cons e es ih =>
      obtain ⟨hfirst, hrest⟩ := List.pairwise_cons.mp hes
      rw [List.forall_mem_cons] at hnew
      have hlater : ∀ c ∈ es, ∀ d ∈ into ++ [e], c.1.agrees d.1 = false := by
        intro c hc d hd
        rcases List.mem_append.mp hd with hd | hd
        · exact hnew.2 c hc d hd
        · rw [List.mem_singleton.mp hd]
          exact hfirst c hc
      calc insertAll (e :: es) into
          = insertAll es (Entries.insert e.1 e.2 into) := rfl
        _ = insertAll es (into ++ [e]) := by rw [insert_of_new hnew.1]
        _ = into ++ e :: es := by rw [ih hrest hlater, List.append_assoc, List.singleton_append]

end insert

section without

variable {names more : List String} {es : Entries κ} {name : String}

theorem mem_without {e : Value κ × Value κ} :
    e ∈ es.without names ↔ e ∈ es ∧ ∀ name ∈ names, e.1.asText ≠ some name := by
  simp only [without, List.mem_filter, Bool.not_eq_true', List.any_eq_false, ne_eq,
    Value.agrees_str_iff]

theorem KeysApart.without (h : es.KeysApart) (names : List String) :
    (es.without names).KeysApart :=
  List.Pairwise.filter _ h

theorem without_without_of_subset (h : names ⊆ more) :
    (es.without names).without more = es.without more := by
  unfold Entries.without
  rw [List.filter_filter]
  apply List.filter_congr
  intro e _
  rw [Bool.and_eq_left_iff_imp]
  intro hmore
  simp only [Bool.not_eq_true', List.any_eq_false] at hmore ⊢
  exact fun name hname => hmore name (h hname)

theorem get?_eq_none_iff {key : Value κ} :
    get? key es = none ↔ ∀ e ∈ es, key.agrees e.1 = false := by
  simp [get?]

theorem get?_without_of_mem (h : name ∈ names) : get? (.str name) (es.without names) = none := by
  rw [get?_eq_none_iff]
  intro e he
  rw [Bool.eq_false_iff, ne_eq, Value.str_agrees_iff]
  exact (mem_without.mp he).2 name h

theorem get?_without_of_not_mem (h : name ∉ names) :
    get? (.str name) (es.without names) = get? (.str name) es := by
  unfold get? Entries.without
  rw [List.find?_filter]
  congr 2
  funext e
  by_cases he : (Value.str name).agrees e.1 = true
  · rw [Value.str_agrees_iff] at he
    have hkept : ∀ other ∈ names, e.1.agrees (.str other) = false := by
      intro other hother
      rw [Bool.eq_false_iff, ne_eq, Value.agrees_str_iff, he]
      intro heq
      exact h (Option.some.inj heq ▸ hother)
    simpa [he] using fun _ => hkept
  · simp [he]

end without

end Entries

namespace Options

def ownNames : List String := ["validator", "ignore_excess", "ignoreExcess"]

def mapperIn (d : Entries κ) : Value κ := (Entries.get? (.str "validator") d).getD .null

/-- What a mapping says of excess keys. What stands in counts only where the name is absent. -/
def ignoringIn (d : Entries κ) : Value κ :=
  ((Entries.get? (.str "ignore_excess") d).or (Entries.get? (.str "ignoreExcess") d)).getD
    (.bool false)

def MapperFits (mapper : Value κ) : Prop := mapper = .null ∨ mapper.isCallable = true

variable {m : Mark} {d : Entries κ} {o : Options κ} {f : Fault κ}

theorem canBeMapper_iff {mapper : Value κ} : canBeMapper mapper = true ↔ MapperFits mapper := by
  cases mapper <;> simp [canBeMapper, MapperFits]

theorem filter_eq_without (d : Entries κ) :
    d.filter (fun e => !isOwnName e.1) = d.without ownNames := by
  apply List.filter_congr
  intro e _
  congr 1
  rw [Bool.eq_iff_iff]
  simp only [ownNames, List.any_cons, List.any_nil, Bool.or_eq_true, Value.agrees_str_iff]
  unfold isOwnName
  cases e.1.asText <;> simp [or_assoc]

theorem ofValue_eq_of_not_fits (h : ¬ MapperFits (mapperIn d)) :
    ofValue (.mapping m d) = .error (.validatorKind (mapperIn d).kind) := by
  rw [← canBeMapper_iff, Bool.not_eq_true, ← Bool.not_eq_true'] at h
  unfold ofValue
  simp only [entriesOf]
  exact if_pos h

theorem ofValue_eq_of_fits (h : MapperFits (mapperIn d)) :
    ofValue (.mapping m d) = (ignoringIn d).isTrue.map fun ignoring =>
      ⟨mapperIn d, .bool ignoring, .mapping .fresh (d.without ownNames)⟩ := by
  have hfits : ¬ (!canBeMapper (mapperIn d)) = true := by
    rw [canBeMapper_iff.mpr h]
    exact Bool.false_ne_true
  have hignoring : (Entries.get? (.str "ignore_excess") d).getD
      ((Entries.get? (.str "ignoreExcess") d).getD (.bool false)) = ignoringIn d := by
    unfold ignoringIn
    cases Entries.get? (.str "ignore_excess") d <;> rfl
  unfold ofValue
  simp only [entriesOf]
  refine (if_neg hfits).trans ?_
  rw [hignoring, filter_eq_without]
  cases (ignoringIn d).isTrue <;> rfl

theorem ofValue_eq_ok_iff :
    ofValue (.mapping m d) = .ok o ↔ MapperFits (mapperIn d) ∧ ∃ ignoring,
      (ignoringIn d).isTrue = .ok ignoring ∧
        o = ⟨mapperIn d, .bool ignoring, .mapping .fresh (d.without ownNames)⟩ := by
  by_cases hfits : MapperFits (mapperIn d)
  · rw [ofValue_eq_of_fits hfits, map_eq_ok]
    simp only [hfits, true_and, eq_comm]
  · rw [ofValue_eq_of_not_fits hfits]
    simp [hfits]

theorem ofValue_eq_error_iff :
    ofValue (.mapping m d) = .error f ↔
      ¬ MapperFits (mapperIn d) ∧ f = .validatorKind (mapperIn d).kind ∨
        MapperFits (mapperIn d) ∧ (ignoringIn d).isTrue = .error f := by
  by_cases hfits : MapperFits (mapperIn d)
  · rw [ofValue_eq_of_fits hfits, map_eq_error]
    simp [hfits]
  · rw [ofValue_eq_of_not_fits hfits]
    simp [hfits, eq_comm]

def told (mapper : Value κ) (ignoring : Bool) (extra : Entries κ) : Entries κ :=
  (.str "validator", mapper) :: (.str "ignore_excess", .bool ignoring) :: extra

section told

variable {mapper : Value κ} {ignoring : Bool} {extra : Entries κ}

theorem toValue_eq_told (mapper : Value κ) (ignoring : Bool) (hextra : extra.KeysApart)
    (hown : ∀ e ∈ extra, ∀ name ∈ ownNames, e.1.asText ≠ some name) :
    (⟨mapper, .bool ignoring, .mapping .fresh extra⟩ : Options κ).toValue =
        .ok (.mapping .fresh (told mapper ignoring extra)) ∧
      (told mapper ignoring extra).KeysApart := by
  have hother : ∀ e ∈ extra, ∀ name ∈ ownNames, e.1.agrees (.str name) = false := by
    intro e he name hname
    rw [Bool.eq_false_iff, ne_eq, Value.agrees_str_iff]
    exact hown e he name hname
  have hnamed : (told mapper ignoring []).KeysApart := by
    refine List.pairwise_cons.mpr ⟨?_, List.pairwise_singleton _ _⟩
    rw [List.forall_mem_singleton]
    rfl
  have hentries : Entries.insertAll extra (told mapper ignoring []) =
      told mapper ignoring extra := by
    apply Entries.insertAll_of_new hextra
    intro e he d hd
    rcases List.mem_pair.mp hd with rfl | rfl
    · exact hother e he "validator" (by decide)
    · exact hother e he "ignore_excess" (by decide)
  constructor
  · exact congrArg (fun es => Except.ok (Value.mapping .fresh es)) hentries
  · rw [← hentries]
    exact hnamed.insertAll extra

theorem ofValue_told (hmapper : MapperFits mapper) (hextra : extra.without ownNames = extra) :
    ofValue (.mapping .fresh (told mapper ignoring extra)) =
      .ok ⟨mapper, .bool ignoring, .mapping .fresh extra⟩ := by
  have hwithout : (told mapper ignoring extra).without ownNames = extra.without ownNames := rfl
  rw [ofValue_eq_ok_iff, hwithout, hextra]
  exact ⟨hmapper, ignoring, rfl, rfl⟩

/-- A key that equals the name of an option and is no text. -/
def Poses (key : Value κ) : Prop :=
  (∀ name, key ≠ .str name) ∧
    (key.asText = some "validator" ∨ key.asText = some "ignore_excess")

theorem get_eq_told {key : Value κ} (hkey : key.canBeKey = true) (hposes : ¬ Poses key)
    (default : Value κ) :
    (⟨mapper, .bool ignoring, .mapping .fresh extra⟩ : Options κ).get key default =
      .ok ((Entries.get? key (told mapper ignoring extra)).getD default) := by
  unfold get told
  rw [Entries.get?_cons, Entries.get?_cons]
  split
  · rfl
  · rfl
  · rename_i hvalidator hignoring
    have hnot : ¬ (key.asText = some "validator" ∨ key.asText = some "ignore_excess") := by
      intro hown
      refine hposes ⟨?_, hown⟩
      rintro name rfl
      rcases hown with hown | hown
      · exact hvalidator (congrArg Value.str (Option.some.inj hown))
      · exact hignoring (congrArg Value.str (Option.some.inj hown))
    rw [if_neg hnot, if_neg fun h => hnot (.inl (Value.agrees_str_iff.mp h)),
      if_neg fun h => hnot (.inr (Value.agrees_str_iff.mp h))]
    exact if_pos hkey

theorem get_of_poses {key : Value κ} (h : Poses key) (o : Options κ) (default : Value κ) :
    o.get key default = .error (.misuse .unsupported) := by
  obtain ⟨hnot, hown⟩ := h
  unfold get
  split
  · exact absurd rfl (hnot _)
  · exact absurd rfl (hnot _)
  · exact if_pos hown

end told

theorem without_validator_eq (d : Entries κ) :
    mapperIn (d.without ["validator"]) = .null ∧
      ignoringIn (d.without ["validator"]) = ignoringIn d ∧
      (d.without ["validator"]).without ownNames = d.without ownNames := by
  refine ⟨?_, ?_, ?_⟩
  · rw [mapperIn, Entries.get?_without_of_mem (List.mem_singleton.mpr rfl)]
    rfl
  · rw [ignoringIn, Entries.get?_without_of_not_mem (by decide),
      Entries.get?_without_of_not_mem (by decide), ignoringIn]
  · exact Entries.without_without_of_subset (by simp [ownNames])

end Options

namespace OrderFunction

def settings : Entries OrderFunction :=
  [(.str "locale", .str "en"), (.str "ignoreExcess", .bool true),
    (.str "validator", .object .callables), (.str "ignore_excess", .int 0), (.int 3, .null)]

end OrderFunction

namespace Readings

/-- Settings that leave it to a series of readings whether excess keys are ignored. -/
def settings : Entries Readings := [(.str "ignore_excess", .object (.series 1))]

end Readings

/-- A label, which is equal to the text on it. -/
inductive Label where
  | on (text : String)
  deriving DecidableEq

instance : Inspect Label where
  kind _ := "Label"
  render | .on text => .ok (Text.quoted text)
  text | .on text => .ok text
  asText | .on text => some text
  truth _ := .ok true
  callable _ := false
  identical a b := a == b
  same a b := a == b
  asText_of_identical h := by rw [beq_iff_eq.mp h]
  canBeKey _ := true
  canBeKey_of_asText _ := rfl
  items | .on text => .ok (text.toList.map fun c => .object (.on (String.singleton c)))
  deepCopy := .ok
  shallowCopy := .ok
  fixed _ := true
  replace _ o := o

end SchemaTree
