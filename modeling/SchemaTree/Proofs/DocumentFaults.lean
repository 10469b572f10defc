import SchemaTree.Proofs.DocumentForm

/-!
What comes of a document. It is read in its order, and the reading goes on as long as what it meets
is in order: then there is a node in the end. Otherwise it stops at the first key or object that is
not, with a fault that tells which of the ways to be out of order it is.
-/

namespace SchemaTree

variable {κ α β : Type}

theorem Value.isTrue_eq_error_iff [Inspect κ] {v : Value κ} {f : Fault κ} :
    v.isTrue = .error f ↔ ∃ o, v = .object o ∧ Inspect.truth o = .error f := by
  cases v <;> simp [Value.isTrue]

namespace Document

variable [Inspect κ]

/-- A key is in order if it fits, and rules unless they are an object that refuses to say whether
it counts as true. -/
def Item.Fits : Item κ → Prop
  | .key earlier k => KeyFits earlier k
  | .rules v => ∀ o f, v = .object o → Inspect.truth o ≠ .error f

def Item.Raises (f : Fault κ) : Item κ → Prop
  | .key earlier k => ¬ KeyFits earlier k ∧
    (f.family = .duplicateKey ∧ Repeats earlier k ∨ f.family = .definition ∧ ¬ Repeats earlier k)
  | .rules v => ∃ o, v = .object o ∧ Inspect.truth o = .error f

/-- The first item that is out of order. -/
def FirstMisfit (is : List (Item κ)) (i : Item κ) : Prop :=
  ∃ before after, is = before ++ i :: after ∧ (∀ j ∈ before, j.Fits) ∧ ¬ i.Fits

theorem Item.Raises.not_fits {f : Fault κ} {i : Item κ} (hi : i.Raises f) : ¬ i.Fits := by
  cases i with
  | key earlier key => exact hi.1
  | rules v =>
      obtain ⟨o, hv, htruth⟩ := hi
      exact fun hfits => hfits o f hv htruth

theorem all_fit_iff {is : List (Item κ)} : (∀ i ∈ is, i.Fits) ↔
    (∀ earlier key, .key earlier key ∈ is → KeyFits earlier key) ∧
      ∀ o, .rules (.object o) ∈ is → ∃ b, Inspect.truth o = .ok b := by
  constructor
  · refine fun his => ⟨fun earlier key hmem => his _ hmem, fun o hmem => ?_⟩
    cases htruth : Inspect.truth o with
    | ok b => exact ⟨b, rfl⟩
    | error f => exact absurd htruth (his _ hmem o f rfl)
  · rintro ⟨hkeys, hobjects⟩ i hi
    cases i with
    | key earlier key => exact hkeys earlier key hi
    | rules v =>
        rintro o f rfl htruth
        obtain ⟨b, hb⟩ := hobjects o hi
        exact nomatch hb.symm.trans htruth

namespace FirstMisfit

variable {is js : List (Item κ)} {i : Item κ}

theorem singleton (hi : ¬ i.Fits) : FirstMisfit [i] i := ⟨[], [], rfl, nofun, hi⟩

theorem append_left (hi : FirstMisfit is i) (js : List (Item κ)) : FirstMisfit (is ++ js) i := by
  obtain ⟨before, after, rfl, hbefore, hmisfit⟩ := hi
  exact ⟨before, after ++ js, List.append_assoc .., hbefore, hmisfit⟩

theorem append_right (his : ∀ j ∈ is, j.Fits) (hi : FirstMisfit js i) :
    FirstMisfit (is ++ js) i := by
  obtain ⟨before, after, rfl, hbefore, hmisfit⟩ := hi
  exact ⟨is ++ before, after, (List.append_assoc ..).symm,
    List.forall_mem_append.mpr ⟨his, hbefore⟩, hmisfit⟩

theorem exists_not_fits (hi : FirstMisfit is i) : ∃ j ∈ is, ¬ j.Fits := by
  obtain ⟨before, after, rfl, -, hmisfit⟩ := hi
  exact ⟨i, List.mem_append_right _ List.mem_cons_self, hmisfit⟩

end FirstMisfit

/-- From the heap `h` on a computation reads these items. If all are in order it returns with
`post`, and otherwise it ends in a fault of the first one that is not. -/
structure Reads (is : List (Item κ)) (x : Build κ α) (h : Heap κ) (post : α → Heap κ → Prop) :
    Prop where
  returns : ∀ a h', x.run h = (.ok a, h') → (∀ i ∈ is, i.Fits) ∧ post a h'
  raises : ∀ f h', x.run h = (.error f, h') → ∃ i, FirstMisfit is i ∧ i.Raises f

namespace Reads

variable {is js : List (Item κ)} {i : Item κ} {x : Build κ α} {g : α → Build κ β}
  {h h' : Heap κ} {post post' : α → Heap κ → Prop} {after : β → Heap κ → Prop} {a : α}
  {f : Fault κ}

theorem of_ok (hx : x.run h = (.ok a, h')) (his : ∀ i ∈ is, i.Fits) (hpost : post a h') :
    Reads is x h post := by
  constructor
  · intro b h'' hb
    obtain ⟨hab, rfl⟩ := Prod.mk.inj (hx.symm.trans hb)
    obtain rfl := Except.ok.inj hab
    exact ⟨his, hpost⟩
  · intro f h'' hf
    exact nomatch (Prod.mk.inj (hx.symm.trans hf)).1

theorem of_error (hx : x.run h = (.error f, h')) (hi : i.Raises f) : Reads [i] x h post := by
  constructor
  · intro b h'' hb
    exact nomatch (Prod.mk.inj (hx.symm.trans hb)).1
  · intro f' h'' hf
    obtain rfl := Except.error.inj (Prod.mk.inj (hx.symm.trans hf)).1
    exact ⟨i, .singleton hi.not_fits, hi⟩

theorem mono (hx : Reads is x h post) (hpost : ∀ a h', post a h' → post' a h') :
    Reads is x h post' :=
  ⟨fun a h' ha => (hx.returns a h' ha).imp_right (hpost a h'), hx.raises⟩

theorem bind (hx : Reads is x h post) (hg : ∀ a h', post a h' → Reads js (g a) h' after) :
    Reads (is ++ js) (x >>= g) h after := by
  cases hrun : x.run h with
  | mk outcome h' =>
      have hbind := Build.run_bind x g h
      rw [hrun] at hbind
      cases outcome with
      | error f =>
          obtain ⟨i, hi, hf⟩ := hx.raises f h' hrun
          constructor
          · intro b h'' hb
            exact nomatch (Prod.mk.inj (hbind.symm.trans hb)).1
          · intro f' h'' hf'
            obtain rfl := Except.error.inj (Prod.mk.inj (hbind.symm.trans hf')).1
            exact ⟨i, hi.append_left js, hf⟩
      | ok a =>
          obtain ⟨his, hpost⟩ := hx.returns a h' hrun
          have hnext := hg a h' hpost
          constructor
          · intro b h'' hb
            obtain ⟨hjs, hafter⟩ := hnext.returns b h'' (hbind.symm.trans hb)
            exact ⟨List.forall_mem_append.mpr ⟨his, hjs⟩, hafter⟩
          · intro f h'' hf
            obtain ⟨i, hi, hraises⟩ := hnext.raises f h'' (hbind.symm.trans hf)
            exact ⟨i, hi.append_right his, hraises⟩

theorem cons (hi : i.Fits) (hx : Reads is x h post) : Reads (i :: is) x h post := by
  have hitem : ∀ j ∈ [i], j.Fits := List.forall_mem_singleton.mpr hi
  constructor
  · intro a h' ha
    obtain ⟨his, hpost⟩ := hx.returns a h' ha
    exact ⟨List.forall_mem_cons.mpr ⟨hi, his⟩, hpost⟩
  · intro f h' hf
    obtain ⟨j, hj, hraises⟩ := hx.raises f h' hf
    exact ⟨j, hj.append_right hitem, hraises⟩

theorem exists_ok_iff (hx : Reads is x h post) :
    (∃ a h', x.run h = (.ok a, h')) ↔ ∀ i ∈ is, i.Fits := by
  constructor
  · rintro ⟨a, h', ha⟩
    exact (hx.returns a h' ha).1
  · intro his
    cases hrun : x.run h with
    | mk outcome h' =>
        cases outcome with
        | ok a => exact ⟨a, h', rfl⟩
        | error f =>
            obtain ⟨i, hi, -⟩ := hx.raises f h' hrun
            obtain ⟨j, hj, hmisfit⟩ := hi.exists_not_fits
            exact absurd (his j hj) hmisfit

end Reads

/-- A node of its own, with the fields that the entries `earlier` name. -/
structure Open (r : RegistryId) (earlier : Entries κ) (n : NodeId) (h : Heap κ) : Prop where
  lt : n < h.nodes.length
  registry : (h.node n).registry = r
  rulesMark : (h.node n).rulesMark = .fresh
  fieldsMark : (h.node n).fieldsMark = .fresh
  names : ∀ name, name ∈ ((h.node n).fields.getD []).map (·.1) ↔
    ∃ e ∈ earlier, NamesField e.1 name

section steps

variable {r : RegistryId} {earlier : Entries κ} {n c : NodeId} {key v : Value κ} {h h' : Heap κ}

omit [Inspect κ] in
theorem Open.of_sameBut (hn : Open r earlier n h) (hsame : h.SameBut c h') (hne : n ≠ c) :
    Open r earlier n h' := by
  have hnode : h'.node n = h.node n := hsame.same n hn.lt hne
  exact ⟨Nat.lt_of_lt_of_le hn.lt hsame.grows, hnode ▸ hn.registry, hnode ▸ hn.rulesMark,
    hnode ▸ hn.fieldsMark, hnode ▸ hn.names⟩

omit [Inspect κ] in
theorem Open.setRules (hn : Open r earlier n h) (hkey : isRulesKey key = true)
    (rules : Option (List (Value κ))) :
    Open r (earlier ++ [(key, v)]) n (h.setNode n { h.node n with rules }) := by
  have hnode : (h.setNode n { h.node n with rules }).node n = { h.node n with rules } :=
    Heap.node_setNode_self hn.lt _
  refine ⟨?_, ?_, ?_, ?_, fun name => ?_⟩
  · rw [Heap.length_setNode]
    exact hn.lt
  all_goals rw [hnode]
  · exact hn.registry
  · exact hn.rulesMark
  · exact hn.fieldsMark
  · refine (hn.names name).trans ⟨fun ⟨e, he, hname⟩ => ⟨e, by simp [he], hname⟩, ?_⟩
    rintro ⟨e, he, hname⟩
    rcases List.mem_append.mp he with he | he
    · exact ⟨e, he, hname⟩
    · rw [List.mem_singleton.mp he] at hname
      exact Bool.noConfusion (hkey.symm.trans hname.notRules)

theorem reads_validate (hn : Open r earlier n h) (v : Value κ) :
    Reads [.rules v] (Build.validate n v) h fun _ h' =>
      ∃ rules, h' = h.setNode n { h.node n with rules } := by
  cases hv : v.isTrue with
  | error f =>
      have hrun : (Build.validate n v).run h = (.error f, h) := by
        unfold Build.validate
        rw [Build.run_bind, hv]
        rfl
      exact .of_error hrun (Value.isTrue_eq_error_iff.mp hv)
  | ok b =>
      have hfits : (Item.rules v).Fits := by
        intro o f hobject htruth
        cases hv.symm.trans (Value.isTrue_eq_error_iff.mpr ⟨o, hobject, htruth⟩)
      have htrue : (Build.of v.isTrue).run h = (.ok b, h) := by
        rw [hv]
        rfl
      obtain ⟨rules, hrun⟩ : ∃ rules, (Build.validate n v).run h =
          (.ok n, h.setNode n { h.node n with rules }) := by
        unfold Build.validate
        rw [Build.run_bind_ok htrue]
        cases b with
        | false => exact ⟨(h.node n).rules, congrArg _ (Heap.setNode_node h n).symm⟩
        | true => exact ⟨_, congrArg _ (Heap.addRules_of_fresh hn.rulesMark _)⟩
      exact .of_ok hrun (List.forall_mem_singleton.mpr hfits) ⟨rules, rfl⟩

theorem run_addField_open (hn : Open r earlier n h) {name : String} (hname : NamesField key name)
    (hnew : ∀ e ∈ earlier, ¬ NamesField e.1 name) :
    ∃ c h', (addField r n key).run h = (.ok c, h') ∧ h.SameBut n h' ∧ h.nodes.length ≤ c ∧
      Open r (earlier ++ [(key, v)]) n h' ∧ Open r [] c h' := by
  obtain ⟨array, required, strict, rfl⟩ := hname.written
  obtain ⟨k, hread, rfl⟩ := hname.exists_field?
  have hfree : k.name ∉ ((h.node n).fields.getD []).map (·.1) := fun hmem =>
    let ⟨e, he, htaken⟩ := (hn.names k.name).mp hmem
    hnew e he htaken
  obtain ⟨h', c, hrun, hgrown, hc, hclt, hnode, hchild⟩ :=
    run_addField hread hname.nonempty hn.lt hn.registry hn.fieldsMark hfree
  refine ⟨c, h', hrun, ⟨hgrown.grows, hgrown.same⟩, hc, ?_, ?_⟩
  · refine ⟨Nat.lt_of_lt_of_le hn.lt hgrown.grows, ?_, ?_, ?_, fun other => ?_⟩
    all_goals rw [hnode]
    · exact hn.registry
    · exact hn.rulesMark
    · exact hn.fieldsMark
    · have hlast : other = k.name ↔ NamesField (.str (k.name ++ suffixes array required strict) :
          Value κ) other := ⟨fun h => h ▸ hname, fun h => h.unique hname⟩
      simp [Node.withField, ← hlast, ← hn.names other, or_comm, exists_or, or_and_right]
  · refine ⟨hclt, ?_, ?_, ?_, fun name => ?_⟩
    all_goals rw [hchild]
    · rfl
    · rfl
    · rfl
    · simp [Key.node]

theorem reads_addField (hn : Open r earlier n h) (hkey : isRulesKey key = false)
    (hline : ∀ text, key = .str text → '\n' ∉ text.toList) (v : Value κ) :
    Reads [.key earlier key] (addField r n key) h fun c h' =>
      h.SameBut n h' ∧ h.nodes.length ≤ c ∧ Open r (earlier ++ [(key, v)]) n h' ∧
        Open r [] c h' := by
  by_cases hnamed : ∃ name, NamesField key name
  · obtain ⟨name, hname⟩ := hnamed
    by_cases htaken : ∃ e ∈ earlier, NamesField e.1 name
    · obtain ⟨array, required, strict, rfl⟩ := hname.written
      obtain ⟨k, hread, rfl⟩ := hname.exists_field?
      obtain ⟨f, h', hrun, hfamily⟩ :=
        exists_addField_error (r := r) hread hn.lt (.inr ((hn.names k.name).mpr htaken))
      rw [if_neg hname.nonempty] at hfamily
      have hrepeats : Repeats earlier (.str (k.name ++ suffixes array required strict)) :=
        ⟨k.name, hname, htaken⟩
      exact .of_error hrun ⟨fun hfits => hfits.not_repeats hrepeats, .inl ⟨hfamily, hrepeats⟩⟩
    · have hnew : ∀ e ∈ earlier, ¬ NamesField e.1 name := fun e he hagain =>
        htaken ⟨e, he, hagain⟩
      obtain ⟨c, h', hrun, hpost⟩ := run_addField_open (v := v) hn hname hnew
      exact .of_ok hrun (List.forall_mem_singleton.mpr (.inr ⟨name, hname, hnew⟩)) hpost
  · have hraises (f : Fault κ) (hf : f.family = .definition) :
        (Item.key earlier key).Raises f := by
      refine ⟨?_, .inr ⟨hf, fun ⟨name, hname, _⟩ => hnamed ⟨name, hname⟩⟩⟩
      rintro (hrules | ⟨name, hname, -⟩)
      · exact Bool.noConfusion (hrules.symm.trans hkey)
      · exact hnamed ⟨name, hname⟩
    have hrefused (hrun : (addField r n key).run h = (.error (.fieldKey key), h)) :
        Reads [.key earlier key] (addField r n key) h fun c h' =>
          h.SameBut n h' ∧ h.nodes.length ≤ c ∧ Open r (earlier ++ [(key, v)]) n h' ∧
            Open r [] c h' := .of_error hrun (hraises _ rfl)
    cases key with
    | str text =>
        cases hread : Key.field? text with
        | none =>
            refine hrefused ?_
            simp only [addField, hread]
            rfl
        | some k =>
            have hempty : k.name = "" := by
              by_contra hname
              exact hnamed ⟨k.name, namesField_of_field? (hline text rfl) hread hkey hname⟩
            obtain ⟨f, h', hrun, hfamily⟩ :=
              exists_addField_error (r := r) hread hn.lt (.inl hempty)
            exact .of_error hrun (hraises f (hfamily.trans (if_pos hempty)))
    | _ => exact hrefused rfl

end steps

omit [Inspect κ] in
theorem isOwnKey_eq {key : Value κ} (hline : ∀ text, key = .str text → '\n' ∉ text.toList) :
    isOwnKey key = isRulesKey key := by
  cases key with
  | str text => exact isOwnRules_eq (hline text rfl)
  | _ => rfl

mutual

theorem reads_fillField {r : RegistryId} {c : NodeId} {h : Heap κ} (v : Value κ)
    (hc : Open r [] c h) (hlines : InLine (items v)) :
    Reads (items v) (fillField r c v) h fun _ h' => h.SameBut c h' := by
  have hrules (hv : v.isMapping = false) (hnull : v ≠ .null) :
      Reads (items v) (fillField r c v) h fun _ h' => h.SameBut c h' := by
    rw [items_of_plain hv, fillField_of_plain hv hnull, ← List.append_nil [Item.rules v]]
    refine (reads_validate hc v).bind fun _ h' hh' => .of_ok rfl nofun ?_
    obtain ⟨rules, rfl⟩ := hh'
    exact .setNode c h _
  cases v with
  | mapping m es =>
      rw [fillField]
      exact reads_fill es hc hlines
  | null =>
      rw [fillField]
      exact .of_ok rfl (List.forall_mem_singleton.mpr nofun) (.refl c h)
  | _ => exact hrules rfl nofun

theorem reads_fill {r : RegistryId} {n : NodeId} {earlier : Entries κ} {h : Heap κ}
    (es : Entries κ) (hn : Open r earlier n h) (hlines : InLine (entryItems earlier es)) :
    Reads (entryItems earlier es) (fill r n es) h fun _ h' => h.SameBut n h' := by
  cases es with
  | nil =>
      rw [fill]
      exact .of_ok rfl nofun (.refl n h)
  | cons e es =>
      obtain ⟨key, v⟩ := e
      have hline : ∀ text, key = .str text → '\n' ∉ text.toList := by
        rintro text rfl
        exact hlines earlier text List.mem_cons_self
      have hrest : InLine (entryItems (earlier ++ [(key, v)]) es) := fun before text hmem =>
        hlines before text (List.mem_cons_of_mem _ (List.mem_append_right _ hmem))
      rw [fill_cons, isOwnKey_eq hline, entryItems]
      cases hkey : isRulesKey key with
      | true =>
          refine .cons (.inl hkey) ((reads_validate hn v).bind fun _ h₁ hh₁ => ?_)
          obtain ⟨rules, rfl⟩ := hh₁
          exact (reads_fill es (hn.setRules hkey rules) hrest).mono fun _ _ hsame =>
            (Heap.SameBut.setNode n h _).trans hsame
      | false =>
          have hbelow : InLine (items v) := fun before text hmem => by
            refine hlines before text (List.mem_cons_of_mem _ (List.mem_append_left _ ?_))
            rwa [hkey]
          refine (reads_addField hn hkey hline v).bind ?_
          rintro c h₁ ⟨hsame₁, hc, hn₁, hchild⟩
          have hne : n ≠ c := Nat.ne_of_lt (Nat.lt_of_lt_of_le hn.lt hc)
          -- the child is new, so filling it leaves the node as it is
          refine .bind (reads_fillField v hchild hbelow) fun _ h₂ hsame₂ => ?_
          refine (reads_fill es (hn₁.of_sameBut hsame₂ hne) hrest).mono fun _ h₃ hsame₃ => ?_
          exact (hsame₁.trans_new hc hsame₂).trans hsame₃

end

omit [Inspect κ] in
theorem exists_root?_iff {key : Value κ} (hline : ∀ text, key = .str text → '\n' ∉ text.toList) :
    (∃ text k, key = .str text ∧ Key.root? text = some k) ↔ IsRootKey key := by
  constructor
  · rintro ⟨text, k, rfl, hread⟩
    exact ⟨k.array, !k.optional, k.strict, congrArg _ (written_of_root? (hline text rfl) hread)⟩
  · rintro ⟨array, required, strict, rfl⟩
    exact ⟨_, _, rfl, root?_written array required strict⟩

theorem exists_error_of_not_hasBody {data : Value κ} (hlines : InLine (items data))
    (hdata : ¬ ∃ body, HasBody data body) (r : RegistryId) (h : Heap κ) :
    ∃ f, (toSchema r data).run h = (.error f, h) ∧ f.family = .definition := by
  rcases run_toSchema_cases r data h with hrefused | ⟨m, text, body, k, rfl, hread⟩
  · exact hrefused
  · have hline : ∀ other, (.str text : Value κ) = .str other → '\n' ∉ other.toList := by
      intro other htext
      rw [← Value.str.inj htext]
      exact hlines [] text List.mem_cons_self
    exact absurd ⟨body, m, _, rfl, (exists_root?_iff hline).mp ⟨text, k, rfl, hread⟩⟩ hdata

theorem reads_toSchema {data body : Value κ} (hdata : HasBody data body)
    (hlines : InLine (items data)) (r : RegistryId) (h : Heap κ) :
    Reads (items body) (toSchema r data) h fun _ _ => True := by
  have hbelow : InLine (items body) := fun before text hmem => by
    obtain ⟨key, hitems⟩ := hdata.items_eq
    exact hlines before text (hitems ▸ List.mem_cons_of_mem _ hmem)
  obtain ⟨m, key, rfl, array, required, strict, rfl⟩ := hdata
  obtain ⟨k, hk⟩ : ∃ k, Key.root? ("schema" ++ suffixes array required strict) = some k :=
    ⟨_, root?_written ..⟩
  have hopen : Open r [] h.nodes.length (h.addNode (k.node r)) := by
    refine ⟨?_, ?_, ?_, ?_, fun name => ?_⟩
    · rw [Heap.length_addNode]
      exact Nat.lt_succ_self _
    all_goals rw [Heap.node_addNode]
    · rfl
    · rfl
    · rfl
    · simp [Key.node]
  have hfill := reads_fillField body hopen hbelow
  have hreads : Reads (items body) (do
      fillField r h.nodes.length body
      return h.nodes.length) (h.addNode (k.node r)) fun _ _ => True := by
    rw [← List.append_nil (items body)]
    exact hfill.bind fun _ _ _ => .of_ok rfl nofun trivial
  have hrun := run_toSchema_of_root? hk r m body h
  exact ⟨fun a h' ha => hreads.returns a h' (hrun ▸ ha),
    fun f h' hf => hreads.raises f h' (hrun ▸ hf)⟩

end Document

open Document

variable [Inspect κ]

/-- A document gives a schema if and only if it has the form of one and no object among its rules
refuses to say whether it counts as true. Otherwise it either has no root, or its first item that
is out of order tells the fault: another one for a name that is taken than for any other key. -/
theorem toSchema_returns_iff_isSchema {data : Value κ} (hlines : InLine (items data))
    (r : RegistryId) (h : Heap κ) :
    ((∃ n h', (toSchema r data).run h = (.ok n, h')) ↔
      IsSchema data ∧ ∀ o, .rules (.object o) ∈ items data → ∃ b, Inspect.truth o = .ok b) ∧
    ∀ f h', (toSchema r data).run h = (.error f, h') →
      (f.family = .definition ∧ ¬ ∃ body, HasBody data body) ∨
        ∃ body i, HasBody data body ∧ FirstMisfit (items body) i ∧ i.Raises f := by
  by_cases hdata : ∃ body, HasBody data body
  · obtain ⟨body, hbody⟩ := hdata
    have hreads := reads_toSchema hbody hlines r h
    refine ⟨?_, fun f h' hf => ?_⟩
    · obtain ⟨key, hitems⟩ := hbody.items_eq
      rw [hreads.exists_ok_iff, all_fit_iff, hbody.isSchema_iff, wellFormed_iff, hitems]
      simp
    · obtain ⟨i, hi, hraises⟩ := hreads.raises f h' hf
      exact .inr ⟨body, i, hbody, hi, hraises⟩
  · obtain ⟨f, hrun, hf⟩ := exists_error_of_not_hasBody hlines hdata r h
    refine ⟨⟨?_, ?_⟩, fun f' h' hf' => ?_⟩
    · rintro ⟨n, h', hn⟩
      exact nomatch (Prod.mk.inj (hrun.symm.trans hn)).1
    · rintro ⟨⟨body, hbody, -⟩, -⟩
      exact absurd ⟨body, hbody⟩ hdata
    · obtain rfl := Except.error.inj (Prod.mk.inj (hrun.symm.trans hf')).1
      exact .inl ⟨hf, hdata⟩

/-- A document of orders in which the field for the items comes twice, once as an array. Under the
key for rules stands what would be no schema. -/
def OrderFunction.twice : Value OrderFunction :=
  let count := .mapping .fresh [(.str "count?", .list .fresh [.object .positive])]
  .mapping .fresh [(.str "schema!", .mapping .fresh [
    (.str "==", .mapping .fresh [(.int 3, .null)]),
    (.str "items[]", count),
    (.str "items?", .null),
    (.int 7, .null)])]

theorem order_items_twice :
    InLine (items OrderFunction.twice) ∧
      ∃ f h', (toSchema Heap.defaultRegistry OrderFunction.twice).run Heap.initial =
          (.error f, h') ∧ f.family = .duplicateKey ∧
        ∃ body i, HasBody OrderFunction.twice body ∧ FirstMisfit (items body) i ∧ i.Raises f := by
  have hlines : InLine (items OrderFunction.twice) := by
    intro earlier text hmem
    have htext : text ∈ ["schema!", "==", "items[]", "count?", "items?"] := by
      simp [OrderFunction.twice, items, entryItems, isRulesKey] at hmem
      grind
    have hlines : ∀ key ∈ ["schema!", "==", "items[]", "count?", "items?"],
        '\n' ∉ key.toList := by decide
    exact hlines text htext
  obtain ⟨-, hfaults⟩ := toSchema_returns_iff_isSchema hlines Heap.defaultRegistry Heap.initial
  obtain ⟨h', hrun⟩ : ∃ h', (toSchema Heap.defaultRegistry OrderFunction.twice).run Heap.initial =
      (.error (.duplicateField "items" ["items"]), h') := ⟨_, by with_unfolding_all rfl⟩
  refine ⟨hlines, _, h', hrun, rfl, ?_⟩
  rcases hfaults _ h' hrun with ⟨hfamily, -⟩ | hmisfit
  · cases hfamily
  · exact hmisfit

/-- The objects of a program that measures. A series of readings counts as neither true nor
false. -/
inductive Readings where
  | series (label : Nat)
  deriving DecidableEq

namespace Readings

instance : Inspect Readings where
  kind _ := "Readings"
  render _ := .ok "<readings>"
  text _ := .ok "<readings>"
  truth _ := .error (.valueError "truth value is ambiguous")
  callable _ := false
  identical a b := a == b
  same a b := a == b
  canBeKey _ := true
  items _ := .error (.misuse .unsupported)
  deepCopy := .ok
  shallowCopy := .ok
  fixed _ := false
  replace _ o := o

def document : Value Readings :=
  .mapping .fresh [(.str "schema", .mapping .fresh [(.str "level", .object (.series 1))])]

end Readings

/-- The document has the form of a schema, but its rule does not say whether it counts as true. -/
theorem toSchema_readings_raises :
    IsSchema Readings.document ∧ InLine (items Readings.document) ∧
      ((toSchema Heap.defaultRegistry Readings.document).run Heap.initial).1 =
        .error (.valueError "truth value is ambiguous") := by
  have hlevel : NamesField (.str "level" : Value Readings) "level" :=
    ⟨by decide, by decide, by simp, false, true, false, rfl⟩
  refine ⟨?_, fun before text hmem => ?_, by with_unfolding_all rfl⟩
  · refine ⟨_, ⟨_, _, rfl, false, true, false, rfl⟩,
      (wellFormed_iff _).mpr fun before key hmem => ?_⟩
    obtain ⟨rfl, rfl⟩ : before = [] ∧ key = .str "level" := by
      simpa [items, entryItems, isRulesKey] using hmem
    exact .inr ⟨"level", hlevel, by simp⟩
  · have htext : before = [] ∧ text = "schema" ∨ before = [] ∧ text = "level" := by
      simpa [Readings.document, items, entryItems, isRulesKey] using hmem
    rcases htext with ⟨-, rfl⟩ | ⟨-, rfl⟩ <;> decide

end SchemaTree
