import SchemaTree.Proofs.RegistryCalls

/-!
Registries in the course of a program. A registry is what its own registrations and removals make of
it, one after the other, and a name in it is the one node that was registered under it since it was
free; no other call changes it, and no call that fails does.
-/

namespace SchemaTree

variable {σ : Type}

/-- What happened to one registry, of what happened to all. -/
def Registry.changesOf (r : RegistryId) (log : List (RegistryId × Change)) : List Change :=
  (log.filter fun e => e.1 == r).map (·.2)

namespace Registry

variable {log : List (RegistryId × Change)} {r other : RegistryId} {change : Change}

theorem changesOf_append_self :
    changesOf r (log ++ [(r, change)]) = changesOf r log ++ [change] := by
  simp [changesOf]

theorem changesOf_append_of_ne (hne : other ≠ r) :
    changesOf r (log ++ [(other, change)]) = changesOf r log := by
  simp [changesOf, hne]

theorem changesOf_eq_nil (hlog : ∀ e ∈ log, e.1 ≠ r) : changesOf r log = [] := by
  rw [changesOf, List.filter_eq_nil_iff.mpr fun e he => by simpa using hlog e he, List.map_nil]

end Registry

/-- Each registry is what its own changes come to, and the nodes in it are there. -/
structure Heap.Recorded {κ : Type} (log : List (RegistryId × Registry.Change)) (h : Heap κ) :
    Prop where
  unshared : h.Unshared
  records : ∀ r < h.registries.length, Registry.Records (Registry.changesOf r log) (h.registry r)
  held : ∀ r < h.registries.length, ∀ e ∈ (h.registry r).entries, e.2 < h.nodes.length
  logged : ∀ e ∈ log, e.1 < h.registries.length

namespace Heap.Recorded

variable {log : List (RegistryId × Registry.Change)}

theorem initial {κ : Type} : Recorded [] (Heap.initial : Heap κ) where
  unshared := nofun
  records r hr := by
    obtain rfl : r = 0 := Nat.lt_one_iff.mp hr
    exact .nil _
  held r hr e he := by
    obtain rfl : r = 0 := Nat.lt_one_iff.mp hr
    exact nomatch he
  logged := nofun

theorem quiet {κ : Type} {before h : Heap κ} (hrec : before.Recorded log)
    (hh : before.QuietFrom h) : h.Recorded log where
  unshared := hh.unshared
  records r hr := by
    rw [hh.registry]
    exact hrec.records r (by rwa [← hh.registries])
  held r hr e he := by
    rw [hh.registry] at he
    exact Nat.lt_of_lt_of_le (hrec.held r (by rwa [← hh.registries]) e he) hh.length
  logged e he := by
    rw [hh.registries]
    exact hrec.logged e he

theorem made {κ : Type} {h : Heap κ} (hrec : h.Recorded log) (name : Value κ) :
    Recorded log { h with registries := h.registries ++ [{ name }] } := by
  have hlength : (h.registries ++ [({ name } : Registry κ)]).length = h.registries.length + 1 := by
    simp
  have hlast : ({ h with registries := h.registries ++ [{ name }] } : Heap κ).registry
      h.registries.length = { name } := by
    simp [registry]
  refine ⟨hrec.unshared, fun r hr => ?_, fun r hr e he => ?_, fun e he => ?_⟩
  · rcases Nat.lt_succ_iff_lt_or_eq.mp (hlength ▸ hr) with hlt | rfl
    · rw [registry_append hlt]
      exact hrec.records r hlt
    · rw [hlast, Registry.changesOf_eq_nil fun e he => Nat.ne_of_lt (hrec.logged e he)]
      exact .nil name
  · rcases Nat.lt_succ_iff_lt_or_eq.mp (hlength ▸ hr) with hlt | rfl
    · rw [registry_append hlt] at he
      exact hrec.held r hlt e he
    · rw [hlast] at he
      exact absurd he List.not_mem_nil
  · rw [hlength]
    exact Nat.lt_succ_of_lt (hrec.logged e he)

theorem changed {κ : Type} {h : Heap κ} (hrec : h.Recorded log) {r : RegistryId}
    {change : Registry.Change} (hr : r < h.registries.length) (hfits : change.Fits (h.registry r))
    (hnode : ∀ name n, change = .added name n → n < h.nodes.length) :
    (h.setRegistry r { h.registry r with entries := change.apply (h.registry r).entries }).Recorded
      (log ++ [(r, change)]) := by
  refine ⟨hrec.unshared, fun other hother => ?_, fun other hother e he => ?_, fun e he => ?_⟩
  · rw [length_setRegistry] at hother
    by_cases heq : r = other
    · subst heq
      rw [registry_setRegistry_self hr, Registry.changesOf_append_self]
      exact (hrec.records r hr).step hfits
    · rw [registry_setRegistry_of_ne heq, Registry.changesOf_append_of_ne heq]
      exact hrec.records other hother
  · rw [length_setRegistry] at hother
    by_cases heq : r = other
    · subst heq
      rw [registry_setRegistry_self hr] at he
      rcases Registry.Change.mem_apply he with he | ⟨name, n, rfl, rfl⟩
      · exact hrec.held r hr e he
      · exact hnode name e.2 rfl
    · rw [registry_setRegistry_of_ne heq] at he
      exact hrec.held other hother e he
  · rw [length_setRegistry]
    rcases List.mem_append.mp he with he | he
    · exact hrec.logged e he
    · exact List.mem_singleton.mp he ▸ hr

theorem step {h h' : Heap (Object σ)} (hrec : h.Recorded log) {call : Call σ}
    {outcome : Except (Fault (Object σ)) (Value (Object σ))} (heffect : call.Effect h outcome h') :
    h'.Recorded (log ++ (call.change? outcome).toList) := by
  cases heffect with
  | quiet hnone hh =>
      rw [hnone, Option.toList_none, List.append_nil]
      exact hrec.quiet hh
  | made hnone _ name =>
      rw [hnone, Option.toList_none, List.append_nil]
      exact hrec.made name
  | changed hsome _ hlt hfits hh hnode =>
      rw [hsome, Option.toList_some, ← hh.registry]
      rw [← hh.registry] at hfits
      exact (hrec.quiet hh).changed (by rwa [hh.registries]) hfits hnode

end Heap.Recorded

/-- A call of a program, and what objects answer at its time. -/
structure Turn (σ : Type) where
  answers : Inspect (Object σ)
  call : Call σ

def Turn.run [Caller σ] (turn : Turn σ) : Build (Object σ) (Value (Object σ)) :=
  @Call.run σ _ turn.answers turn.call

namespace Heap

variable [Caller σ]

/-- The heap after turns. It goes on after a call that fails. -/
def afterTurns (h : Heap (Object σ)) (turns : List (Turn σ)) : Heap (Object σ) :=
  turns.foldl (fun h turn => (turn.run.run h).2) h

/-- The registries and nodes that calls are given are there by then. -/
def TurnsKnown (h : Heap (Object σ)) : List (Turn σ) → Prop
  | [] => True
  | turn :: turns => turn.call.Known h ∧ (turn.run.run h).2.TurnsKnown turns

/-- What turns do to registries, in order. -/
def changes (h : Heap (Object σ)) : List (Turn σ) → List (RegistryId × Registry.Change)
  | [] => []
  | turn :: turns =>
    (turn.call.change? (turn.run.run h).1).toList ++ (turn.run.run h).2.changes turns

theorem Recorded.afterTurns {log : List (RegistryId × Registry.Change)} {h : Heap (Object σ)}
    (hrec : h.Recorded log) (turns : List (Turn σ)) (hknown : h.TurnsKnown turns) :
    (h.afterTurns turns).Recorded (log ++ h.changes turns) := by
  -- the record grows with the heap: what is done first stands before what the rest does
  induction turns generalizing h log with
  | nil => rwa [changes, List.append_nil]
  | cons turn turns ih =>
      rw [changes, ← List.append_assoc]
      refine ih (hrec.step ?_) hknown.2
      exact @Call.does_run σ h turn.answers _ hrec.unshared turn.call hknown.1

end Heap

/-- A call that has a node to register under a name. -/
def Call.Offers [Inspect (Object σ)] (h : Heap (Object σ)) (r : RegistryId) (name : String) :
    Call σ → Prop
  | .register other key schema => other = r ∧ key = .str name ∧ ∃ n, schema = node n
  | .newNode key registry => key = .str name ∧ registry.toRegistry = .ok r
  | .load document key registry => key = .str name ∧ registry.toRegistry = .ok r ∧
    ∃ data n, document = .ok data ∧ ((Document.toSchema r data).run h).1 = .ok n
  | _ => False

theorem Build.run_register_of_mem {κ : Type} [Inspect κ] {h : Heap κ} {r : RegistryId}
    {name : String} (hname : name ≠ "") (hmem : name ∈ (h.registry r).keys) (n : NodeId) :
    (register r (.str name) (.node n)).run h =
      (.error (.duplicateSchema name (h.registry r).name), h) := by
  have hgiven : Value.isTrue (.str name : Value κ) = .ok true := by simp [Value.isTrue, hname]
  obtain ⟨m, hfind⟩ : ∃ m, (h.registry r).find? name = some m :=
    Option.ne_none_iff_exists'.mp fun hnone => Registry.find?_eq_none_iff.mp hnone hmem
  rw [register, run_bind_ok (run_registry h r), hgiven, run_bind_ok (run_of_ok h true)]
  simp only [hfind]
  rfl

namespace Call

variable [Caller σ] [Inspect (Object σ)] {h : Heap (Object σ)} {r : RegistryId} {name : String}

theorem duplicate_of_offers (hu : h.Unshared) (hname : name ≠ "")
    (hmem : name ∈ (h.registry r).keys) {call : Call σ} (hoffers : call.Offers h r name) :
    ∃ f, (call.run.run h).1 = .error f ∧ f.family = .duplicateKey := by
  -- what is done before the registration leaves the registries as they are
  have hrefused {g : NodeId → Build (Object σ) (Value (Object σ))} {h' : Heap (Object σ)}
      (hh : h.QuietFrom h') (n : NodeId) :
      ∃ f, ((Build.register r (.str name) (.node n) >>= g).run h').1 = .error f ∧
        f.family = .duplicateKey := by
    refine ⟨.duplicateSchema name (h'.registry r).name, ?_, rfl⟩
    rw [Build.run_bind, Build.run_register_of_mem hname (by rwa [hh.registry])]
  cases call with
  | register other key schema =>
      obtain ⟨rfl, rfl, n, rfl⟩ := hoffers
      exact hrefused (.refl hu) n
  | newNode key registry =>
      obtain ⟨rfl, hr⟩ := hoffers
      have hcreate : (Build.create r).run h =
          (.ok h.nodes.length, h.addNode { registry := r }) := rfl
      have hregistry : (Build.of registry.toRegistry).run h = (.ok r, h) := by rw [hr]; rfl
      rw [run, Build.run_bind_ok hregistry, Build.createNamed, bind_assoc,
        Build.run_bind_ok hcreate]
      exact hrefused ((Heap.QuietFrom.refl hu).extend (by simp)) h.nodes.length
  | load document key registry =>
      obtain ⟨rfl, hr, data, n, rfl, hn⟩ := hoffers
      have hregistry : (Build.of registry.toRegistry).run h = (.ok r, h) := by rw [hr]; rfl
      have hgiven : (Build.of (Value.isTrue (.str name))).run ((Document.toSchema r data).run h).2 =
          (.ok true, ((Document.toSchema r data).run h).2) := by
        rw [show Value.isTrue (.str name : Value (Object σ)) = .ok true by
          simp [Value.isTrue, hname]]
        rfl
      rw [run, Build.run_bind_ok hregistry, Build.run_bind_ok (Build.run_of_ok h data),
        Document.toNamedSchema, bind_assoc, Build.run_bind_ok (Prod.ext hn rfl), bind_assoc,
        Build.run_bind_ok hgiven, if_pos rfl]
      exact hrefused (Document.keeps_toSchema hu r data).heap n
  | _ => exact hoffers.elim

theorem get_eq_ok_iff {strict : Value (Object σ)} {n : NodeId} :
    ((Call.get r (.str name) strict).run.run h).1 = .ok (node n) ↔
      (h.registry r).find? name = some n := by
  rw [run, Build.lookup, bind_assoc, Build.run_bind_ok (Build.run_registry h r)]
  cases hfind : (h.registry r).find? name with
  | some m =>
      simp only [hfind, pure_bind]
      show (Except.ok (node m) : Except (Fault (Object σ)) _) = .ok (node n) ↔ _
      simp [node]
  | none =>
      refine iff_of_false ?_ (Option.some_ne_none n).symm
      simp only [hfind]
      cases hstrict : strict.isTrue with
      | error f =>
          intro h
          cases h
      | ok given =>
          intro h
          cases given <;> cases h

theorem run_has : (Call.has r (.str name)).run.run h =
    (.ok (.bool ((h.registry r).find? name).isSome), h) := rfl

theorem run_listKeys : (Call.listKeys r).run.run h =
    (.ok (.list .fresh ((h.registry r).keys.map .str)), h) := rfl

theorem run_count : (Call.count r).run.run h =
    (.ok (.int (h.registry r).entries.length), h) := rfl

end Call

/-- What looking into a registry tells is what was done to it. -/
structure Registry.Tells [Caller σ] (changes : List Registry.Change) (h : Heap (Object σ))
    (r : RegistryId) : Prop where
  get : ∀ answers name strict n,
    ((Turn.run ⟨answers, .get r (.str name) strict⟩).run h).1 = .ok (Call.node n) ↔
      Registry.sinceFreed name changes = [n]
  has : ∀ answers name, (Turn.run ⟨answers, .has r (.str name)⟩).run h =
    (.ok (.bool !(Registry.sinceFreed name changes).isEmpty), h)
  listKeys : ∀ answers, (Turn.run ⟨answers, .listKeys r⟩).run h =
    (.ok (.list .fresh (((Registry.replay changes).map (·.1)).map .str)), h)
  count : ∀ answers, (Turn.run ⟨answers, .count r⟩).run h =
    (.ok (.int (Registry.replay changes).length), h)

theorem Registry.Records.tells [Caller σ] {changes : List Registry.Change} {h : Heap (Object σ)}
    {r : RegistryId} (hrecords : Registry.Records changes (h.registry r)) :
    Registry.Tells changes h r where
  get answers name strict n := by
    rw [hrecords.once, Option.toList_eq_singleton_iff]
    exact @Call.get_eq_ok_iff σ _ answers h r name strict n
  has answers name := by
    have hisSome : (!(Registry.sinceFreed name changes).isEmpty) =
        ((h.registry r).find? name).isSome := by
      rw [hrecords.once]
      cases (h.registry r).find? name <;> rfl
    rw [hisSome]
    exact @Call.run_has σ _ answers h r name
  listKeys answers := by
    rw [← hrecords.replayed]
    exact @Call.run_listKeys σ _ answers h r
  count answers := by
    rw [← hrecords.replayed]
    exact @Call.run_count σ _ answers h r

/-- A turn changes no registry but its own, and none if it fails; a name that is taken makes it
fail. -/
structure Turn.KeepsRegistries [Caller σ] (h : Heap (Object σ)) (turn : Turn σ) : Prop where
  failed : ∀ f, (turn.run.run h).1 = .error f → (turn.run.run h).2.registries = h.registries
  other : ∀ r < h.registries.length, turn.call.changes? ≠ some r →
    (turn.run.run h).2.registry r = h.registry r
  taken : ∀ r < h.registries.length, ∀ name ∈ (h.registry r).keys,
    @Call.Offers σ turn.answers h r name turn.call →
      ∃ f, (turn.run.run h).1 = .error f ∧ f.family = .duplicateKey

theorem Heap.Recorded.keepsRegistries [Caller σ] {log : List (RegistryId × Registry.Change)}
    {h : Heap (Object σ)} (hrec : h.Recorded log) {turn : Turn σ} (hknown : turn.call.Known h) :
    turn.KeepsRegistries h := by
  have heffect : turn.call.Effect h (turn.run.run h).1 (turn.run.run h).2 :=
    @Call.does_run σ h turn.answers _ hrec.unshared turn.call hknown
  refine ⟨fun f hf => ?_, fun r hr hne => heffect.registry_of_ne hr hne,
    fun r hr name hname hoffers => ?_⟩
  · rw [hf] at heffect
    exact heffect.registries_of_error
  · have hempty : name ≠ "" := by
      rintro rfl
      exact (hrec.records r hr).named hname
    exact @Call.duplicate_of_offers σ _ turn.answers h r name hrec.unshared hempty hname _ hoffers

instance : Caller Empty where
  kind := nofun
  text := nofun
  truth := nofun
  callable := nofun
  copying := nofun
  map _ := nofun
  rule _ := nofun
  mapper := nofun
  phrase := nofun
  pipeline _ := nofun

namespace RegistryHistory

def own : Value (Object Empty) := .object (.registry .fresh 1)

/-- A name is taken in an empty registry, refused there a second time, taken in the registry that
everyone shares, freed, not taken for a text that cannot be read, and taken again. -/
def calls : List (Call Empty) :=
  [.newRegistry (.str "own"), .newNode (.str "item") own, .newNode (.str "item") own,
    .register 0 (.str "item") (Call.node 0), .unregister 1 (.str "item"),
    .load (.error .malformedText) (.str "item") own, .newNode (.str "item") own]

def turns : List (Turn Empty) := calls.map fun call => ⟨Session.inspect {}, call⟩

end RegistryHistory

end SchemaTree
