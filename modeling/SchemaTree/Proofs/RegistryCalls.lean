import SchemaTree.Proofs.QuietRuns
import SchemaTree.Proofs.Registration
import SchemaTree.Session.Call

/-!
Calls of a program, and what each of them does to the registries: a call changes at most the
registry that it belongs to, as its answer tells, and none if it fails.
-/

namespace SchemaTree

namespace Heap

variable {κ : Type} {h : Heap κ}

theorem length_setRegistry (h : Heap κ) (r : RegistryId) (reg : Registry κ) :
    (h.setRegistry r reg).registries.length = h.registries.length := List.length_set

theorem registry_setRegistry_self {r : RegistryId} (hr : r < h.registries.length)
    (reg : Registry κ) : (h.setRegistry r reg).registry r = reg := by
  simp [registry, setRegistry, hr]

theorem registry_setRegistry_of_ne {r other : RegistryId} (hne : r ≠ other) (reg : Registry κ) :
    (h.setRegistry r reg).registry other = h.registry other := by
  simp [registry, setRegistry, List.getElem?_set_ne hne]

theorem registry_append {r : RegistryId} (hr : r < h.registries.length)
    (more : List (Registry κ)) :
    ({ h with registries := h.registries ++ more } : Heap κ).registry r = h.registry r := by
  simp [registry, List.getElem?_append_left hr]

end Heap

variable {σ : Type}

/-- A call of a program. The registry that a method belongs to is given by its number, one that is
handed over as any value. -/
inductive Call (σ : Type) where
  | newRegistry (name : Value (Object σ))
  | newNode (name registry : Value (Object σ))
  | register (r : RegistryId) (key schema : Value (Object σ))
  | get (r : RegistryId) (key strict : Value (Object σ))
  | has (r : RegistryId) (key : Value (Object σ))
  | contains (r : RegistryId) (key : Value (Object σ))
  | unregister (r : RegistryId) (key : Value (Object σ))
  | listKeys (r : RegistryId)
  | count (r : RegistryId)
  | clear (r : RegistryId)
  | operate (n : NodeId) (op : Operation (Object σ))
  | toSchema (data registry : Value (Object σ))
  /-- A text or a file is read, and what is read is made a schema. -/
  | load (document : Except (Fault (Object σ)) (Value (Object σ)))
      (name registry : Value (Object σ))
  | compile (host : Host (Object σ)) (wording : Wording (Object σ))
      (schema mapper options verifier : Value (Object σ))
  | compileNode (host : Host (Object σ)) (n : NodeId) (mapper options : Value (Object σ))
  | verify (host : Host (Object σ)) (wording : Wording (Object σ))
      (schema value options verifier : Value (Object σ))

theorem Value.eq_of_toSchemaArg [Inspect (Object σ)] {v : Value (Object σ)} {n : NodeId}
    (hv : v.toSchemaArg = .node n) : v = .object (.node n) := by
  unfold toSchemaArg at hv
  split at hv
  · exact nomatch hv
  · rw [SchemaArg.node.inj hv]
  · exact nomatch hv

/-- A run that may change the heap, for what comes of it and of the heap. -/
def Build.ofRun {κ α : Type} (x : Heap κ → Run (Event κ) κ α × Heap κ) : Build κ α :=
  ExceptT.mk fun h => ((x h).1.outcome, (x h).2)

namespace Call

def node (n : NodeId) : Value (Object σ) := .object (.node n)

def run [Caller σ] [Inspect (Object σ)] : Call σ → Build (Object σ) (Value (Object σ))
  | .newRegistry name => do return .object (.registry .fresh (← Build.createRegistry name))
  | .newNode name registry => do
    return node (← Build.createNamed name (← Build.of registry.toRegistry))
  | .register r key schema => do return node (← Build.register r key schema.toSchemaArg)
  | .get r key strict => do return (← Build.lookup r key strict).elim .null node
  | .has r key => do return .bool (← Build.has r key)
  | .contains r key => do return .bool (← Build.contains r key)
  | .unregister r key => do return node (← Build.unregister r key)
  | .listKeys r => do return .list .fresh ((← Build.registry r).keys.map .str)
  | .count r => do return .int (← Build.registry r).entries.length
  | .clear r => do
    Build.clear r
    return .null
  | .operate n op => do return node (← op.run n)
  | .toSchema data registry => do
    return node (← Document.toSchema (← Build.of registry.toRegistry) data)
  | .load document name registry => do
    let r ← Build.of registry.toRegistry
    return node (← Document.toNamedSchema r (← Build.of document) name)
  | .compile host wording schema mapper options verifier => do
    let c ← Build.ofRun (SchemaTree.compile host schema.toSchemaArg mapper options.toOptionsArg
      (verifier.toPipeline wording))
    return .object (.compiled .fresh c.root (.object (.options .fresh c.options)) verifier)
  | .compileNode host n mapper options => do
    Build.ofRun (SchemaTree.compileNode host mapper options.toOptionsArg n)
    return node n
  | .verify host wording schema value options verifier => do
    let verdict ← Build.ofRun fun h => (SchemaTree.verify host wording h schema.toSchemaArg value
      options.toOptionsArg (verifier.toPipeline wording), h)
    return .object verdict.toObject

/-- What a call has done to a registry: where it succeeds, the node that it was given, or that it
has made and returns, is registered, or a name is free. -/
def change? (call : Call σ) (outcome : Except (Fault (Object σ)) (Value (Object σ))) :
    Option (RegistryId × Registry.Change) :=
  match call, outcome with
  | .register r (.str name) (.object (.node n)), .ok _ => some (r, .added name n)
  | .newNode (.str name) registry, .ok (.object (.node n))
  | .load _ (.str name) registry, .ok (.object (.node n)) =>
    if name = "" then none
    else registry.toRegistry.toOption.map fun r => (r, .added name n)
  | .unregister r (.str name), .ok _ => some (r, .removed name)
  | .clear r, .ok _ => some (r, .cleared)
  | _, _ => none

/-- The registry that a call may change. -/
def changes? : Call σ → Option RegistryId
  | .register r .. | .unregister r _ | .clear r => some r
  | .newNode _ registry | .load _ _ registry => registry.toRegistry.toOption
  | _ => none

/-- The registry and the node that a call is given to register there are there. -/
def Known (h : Heap (Object σ)) : Call σ → Prop
  | .register r _ schema => r < h.registries.length ∧ ∀ n, schema = node n → n < h.nodes.length
  | .newNode _ registry | .load _ _ registry =>
    ∀ r, registry.toRegistry = .ok r → r < h.registries.length
  | .unregister r _ | .clear r => r < h.registries.length
  | _ => True

/-- What a call does to the registries: nothing, or it makes another one, or it changes the one that
it belongs to as its answer tells. -/
inductive Effect (call : Call σ) (before : Heap (Object σ)) :
    Except (Fault (Object σ)) (Value (Object σ)) → Heap (Object σ) → Prop
  | quiet {outcome h} (hnone : call.change? outcome = none) (hh : before.QuietFrom h) :
    Effect call before outcome h
  | made {outcome} (hnone : call.change? outcome = none) (hok : ∃ v, outcome = .ok v)
      (name : Value (Object σ)) :
    Effect call before outcome
      { before with registries := before.registries ++ [{ name }] }
  | changed {outcome r change h} (hsome : call.change? outcome = some (r, change))
      (hr : call.changes? = some r) (hlt : r < before.registries.length)
      (hfits : change.Fits (before.registry r)) (hh : before.QuietFrom h)
      (hnode : ∀ name n, change = .added name n → n < h.nodes.length) :
    Effect call before outcome (h.setRegistry r
      { before.registry r with entries := change.apply (before.registry r).entries })

/-- What is left of a call does that from the heap `h` on. -/
def Does (call : Call σ) (before : Heap (Object σ))
    (x : Build (Object σ) (Value (Object σ))) (h : Heap (Object σ)) : Prop :=
  call.Effect before (x.run h).1 (x.run h).2

theorem change?_error (call : Call σ) (f : Fault (Object σ)) : call.change? (.error f) = none := by
  cases call <;> simp [change?]

theorem Effect.registries_of_error {before h : Heap (Object σ)} {call : Call σ}
    {f : Fault (Object σ)} (heffect : call.Effect before (.error f) h) :
    h.registries = before.registries := by
  cases heffect with
  | quiet _ hh => exact hh.registries
  | made _ hok => exact nomatch hok
  | changed hsome => exact nomatch hsome.symm.trans (call.change?_error f)

theorem Effect.registry_of_ne {before h : Heap (Object σ)} {call : Call σ}
    {outcome : Except (Fault (Object σ)) (Value (Object σ))}
    (heffect : call.Effect before outcome h) {r : RegistryId} (hr : r < before.registries.length)
    (hne : call.changes? ≠ some r) : h.registry r = before.registry r := by
  cases heffect with
  | quiet _ hh => exact hh.registry r
  | made => exact Heap.registry_append hr _
  | changed _ hother _ _ hh =>
      rw [Heap.registry_setRegistry_of_ne, hh.registry]
      rintro rfl
      exact hne hother

section does

variable {before h h' : Heap (Object σ)} {call : Call σ} {α : Type} {x : Build (Object σ) α}
  {g : α → Build (Object σ) (Value (Object σ))}

theorem Does.of_error {f : Fault (Object σ)} (hx : x.run h = (.error f, h'))
    (hh : before.QuietFrom h') : call.Does before (x >>= g) h := by
  rw [Does, Build.run_bind, hx]
  exact .quiet (call.change?_error f) hh

theorem Does.of_ok {a : α} (hx : x.run h = (.ok a, h')) (hg : call.Does before (g a) h') :
    call.Does before (x >>= g) h := by
  rwa [Does, Build.run_bind_ok hx]

theorem Does.of_except {outcome : Except (Fault (Object σ)) α} (hh : before.QuietFrom h)
    (hg : ∀ a, outcome = .ok a → call.Does before (g a) h) :
    call.Does before (Build.of outcome >>= g) h := by
  cases outcome with
  | error f => exact .of_error (x := Build.of (.error f)) rfl hh
  | ok a => exact .of_ok (x := Build.of (.ok a)) rfl (hg a rfl)

theorem Does.of_keeps {P : Value (Object σ) → Prop} {x : Build (Object σ) (Value (Object σ))}
    (hx : Build.Keeps before.QuietFrom P x h) (hnone : ∀ outcome, call.change? outcome = none) :
    call.Does before x h := .quiet (hnone _) hx.heap

theorem Does.pure {v : Value (Object σ)} (hh : before.QuietFrom h)
    (hnone : call.change? (.ok v) = none) : call.Does before (pure v) h := .quiet hnone hh

variable [Inspect (Object σ)]

theorem does_register (hh : before.QuietFrom h) {r : RegistryId} {key : Value (Object σ)}
    {schema : SchemaArg} (hlt : r < before.registries.length)
    (hnode : ∀ n, schema = .node n → n < h.nodes.length) (hr : call.changes? = some r)
    (hchange : ∀ name n, key = .str name → name ≠ "" → schema = .node n →
      call.change? (.ok (node n)) = some (r, .added name n)) :
    call.Does before (Build.register r key schema >>= fun n => Pure.pure (node n)) h := by
  rcases Build.run_register_cases h r key schema with
    ⟨f, hrun⟩ | ⟨name, n, hkey, hschema, hname, hfree, hrun⟩
  · exact .of_error hrun hh
  · refine .of_ok hrun ?_
    rw [hh.registry] at hfree ⊢
    refine .changed (hchange name n hkey hname hschema) hr hlt
      ⟨hname, Registry.find?_eq_none_iff.mp hfree⟩ hh fun name' n' heq => ?_
    obtain ⟨-, rfl⟩ := Registry.Change.added.inj heq
    exact hnode n hschema

theorem does_toNamedSchema (hu : h.Unshared) {r : RegistryId} {data name : Value (Object σ)}
    (hlt : r < h.registries.length) (hr : call.changes? = some r)
    (hchange : ∀ text n, name = .str text → text ≠ "" →
      call.change? (.ok (node n)) = some (r, .added text n))
    (hnone : ∀ n, name.isTrue = .ok false → call.change? (.ok (node n)) = none) :
    call.Does h (Document.toNamedSchema r data name >>= fun n => Pure.pure (node n)) h := by
  have hschema := Document.keeps_toSchema hu r data
  cases hrun : (Document.toSchema r data).run h with
  | mk outcome h₁ =>
      have hquiet : h.QuietFrom h₁ := by simpa [hrun] using hschema.heap
      rw [Document.toNamedSchema, bind_assoc]
      cases outcome with
      | error f => exact .of_error hrun hquiet
      | ok n =>
          -- the schema is whole before it is registered
          have hn : n < h₁.nodes.length := by
            simpa [hrun] using (hschema.result n (by rw [hrun])).2
          refine .of_ok hrun ?_
          rw [bind_assoc]
          refine .of_except hquiet fun given hgiven => ?_
          cases given with
          | true =>
              rw [if_pos rfl]
              refine does_register hquiet hlt ?_ hr ?_
              · rintro m heq
                exact SchemaArg.node.inj heq ▸ hn
              · exact fun text m htext hempty _ => hchange text m htext hempty
          | false =>
              rw [if_neg Bool.false_ne_true, pure_bind]
              exact .pure hquiet (hnone n hgiven)

theorem does_run [Caller σ] (hu : h.Unshared) (call : Call σ) (hknown : call.Known h) :
    call.Does h call.run h := by
  have hh : h.QuietFrom h := .refl hu
  have hI := Heap.QuietFrom.invariant h
  have hdone {α : Type} {P : α → Prop} {x : Build (Object σ) α} {v : α → Value (Object σ)}
      (hx : Build.Keeps h.QuietFrom P x h) :
      Build.Keeps h.QuietFrom (fun _ => True) (x >>= fun a => Pure.pure (v a)) h :=
    hx.bind fun _ _ _ hh' _ => .pure hh' trivial
  cases call with
  | newRegistry name =>
      have heffect : (Call.newRegistry name).Effect h
          (.ok (.object (.registry .fresh h.registries.length))) _ :=
        .made rfl ⟨_, rfl⟩ name
      exact heffect
  | newNode name registry =>
      refine .of_except hh fun r hr => ?_
      rw [Build.createNamed, bind_assoc]
      -- the node is made before its name is looked at, so it stays when the name is refused
      have hcreate : (Build.create r).run h =
          (.ok h.nodes.length, h.addNode { registry := r }) := rfl
      refine .of_ok hcreate ?_
      have hnew : h.QuietFrom (h.addNode { registry := r }) :=
        hh.extend (by simp)
      have hnode : h.nodes.length < (h.addNode { registry := r }).nodes.length := by
        rw [Heap.length_addNode]
        exact Nat.lt_succ_self _
      have hregister (name : Value (Object σ)) :
          (Call.newNode name registry).Does h (Build.register r name (.node h.nodes.length) >>=
            fun n => Pure.pure (node n)) (h.addNode { registry := r }) := by
        refine does_register hnew (hknown r hr) ?_ ?_ ?_
        · rintro m heq
          exact SchemaArg.node.inj heq ▸ hnode
        · simp [changes?, hr, Except.toOption]
        · rintro text n rfl htext -
          simp [change?, node, htext, hr, Except.toOption]
      cases name with
      | null => exact .pure hnew rfl
      | _ => exact hregister _
  | register r key schema =>
      have hschema (n : NodeId) (hn : schema.toSchemaArg = .node n) : schema = node n :=
        Value.eq_of_toSchemaArg hn
      refine does_register hh hknown.1 (fun n hn => hknown.2 n (hschema n hn)) rfl ?_
      rintro name n rfl - hn
      rw [hschema n hn]
      rfl
  | get r key strict =>
      exact .of_keeps (hdone (Build.keeps_lookup hh r key strict)) fun _ => rfl
  | has r key => exact .of_keeps (hdone (Build.keeps_has hh r key)) fun _ => rfl
  | contains r key => exact .of_keeps (hdone (Build.keeps_contains hh r key)) fun _ => rfl
  | unregister r key =>
      rcases Build.run_unregister_cases h r key with ⟨f, hrun⟩ | ⟨name, n, rfl, hfind, hrun⟩
      · exact .of_error hrun hh
      · have hmem : name ∈ (h.registry r).keys := by
          by_contra hfree
          rw [Registry.find?_eq_none_iff.mpr hfree] at hfind
          exact nomatch hfind
        refine .of_ok hrun ?_
        have heffect : (Call.unregister r (.str name)).Effect h (.ok (node n)) _ :=
          .changed rfl rfl hknown hmem hh nofun
        exact heffect
  | listKeys r => exact .pure hh rfl
  | count r => exact .pure hh rfl
  | clear r =>
      have heffect : (Call.clear r).Effect h (.ok .null) _ :=
        .changed rfl rfl hknown trivial hh nofun
      exact heffect
  | operate n op =>
      exact .of_keeps (hdone (op.keeps_run hI hh (op.each_of_forall Operation.inScope_all h n)))
        fun _ => rfl
  | toSchema data registry =>
      refine .of_except hh fun r _ => ?_
      exact .of_keeps (hdone (Document.keeps_toSchema hu r data)) fun _ => rfl
  | load document name registry =>
      refine .of_except hh fun r hr => .of_except hh fun data _ => ?_
      refine does_toNamedSchema hu (hknown r hr) ?_ ?_ ?_
      · simp [changes?, hr, Except.toOption]
      · rintro text n rfl htext
        simp [change?, node, htext, hr, Except.toOption]
      · intro n hfalse
        cases name with
        | str text =>
            have htext : text = "" := by simpa [Value.isTrue] using hfalse
            simp [change?, node, htext]
        | _ => rfl
  | compile host wording schema mapper options verifier =>
      have hcompile : h.QuietFrom (SchemaTree.compile host schema.toSchemaArg mapper
          options.toOptionsArg (verifier.toPipeline wording) h).2 := hh.compileWith ..
      exact .of_keeps (hdone (P := fun _ => True) ⟨hcompile, fun _ _ => trivial⟩) fun _ => rfl
  | compileNode host n mapper options =>
      have hcompile : h.QuietFrom
          (SchemaTree.compileNode host mapper options.toOptionsArg n h).2 := hh.compileNodeWith ..
      exact .of_keeps (hdone (P := fun _ => True) ⟨hcompile, fun _ _ => trivial⟩) fun _ => rfl
  | verify host wording schema value options verifier =>
      exact .of_keeps (hdone (P := fun _ => True) ⟨hh, fun _ _ => trivial⟩) fun _ => rfl

end does

end Call

end SchemaTree
