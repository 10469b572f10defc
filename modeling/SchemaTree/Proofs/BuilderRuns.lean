import SchemaTree.Proofs.BuildSteps

/-!
Sequences of operations on schemas and registries. What each change keeps, whole sequences keep,
with the builders in them. Whatever the operations are, no two nodes share anything; and where all
nodes that they are given are of some kind, they change no node of another kind.
-/

namespace SchemaTree

variable {κ : Type} [Inspect κ]

omit [Inspect κ] in
def Likeness.Within (ok : NodeId → Prop) : Likeness κ → Prop
  | .node m => ok m
  | .object _ => True

mutual

/-- All nodes that define the fields of `n` are `ok`, be they given themselves, by name or by a
builder. -/
def Source.Within (ok : NodeId → Prop) (h : Heap κ) (n : NodeId) : Source κ → Prop
  | .node m => ok m
  | .named name => (SchemaArg.named name).Within ok h (h.node n).registry
  | .plan body => (body n).Within ok h
  | .mismatched | .unfit _ => True

def Operation.Within (ok : NodeId → Prop) (h : Heap κ) (n : NodeId) : Operation κ → Prop
  | .attachTo parent _ => parent.Within ok h (h.node n).registry
  | .like other => other.Within ok
  | .object source | .arrayOf source => source.Within ok h n
  | .validate _ | .array | .arrayFlag _ | .field _ | .required .. | .optional .. | .strict _
  | .clone => True

/-- All nodes that the operations of a plan are given or aimed at are `ok`, as the plan goes on from
the heap. -/
def Plan.Within (ok : NodeId → Prop) (h : Heap κ) : Plan κ → Prop
  | .done | .raise _ => True
  | .act target op next => ok target ∧ op.Within ok h target ∧
    ∀ ending h', (op.run target).run h = (ending, h') → (next ending).Within ok h'

end

mutual

/-- What is asked of an operation where it is performed, asked of those of a builder that defines
the fields of `n`. One that has fields is not given to a builder. -/
def Source.Each (P : Heap κ → NodeId → Operation κ → Prop) (h : Heap κ) (n : NodeId) :
    Source κ → Prop
  | .plan body => (h.node n).fields = none → (body n).Each P h
  | .node _ | .named _ | .mismatched | .unfit _ => True

def Operation.Each (P : Heap κ → NodeId → Operation κ → Prop) (h : Heap κ) (n : NodeId) :
    Operation κ → Prop
  | .object source => P h n (.object source) ∧ source.Each P h n
  | .arrayOf source => P h n (.arrayOf source) ∧ source.Each P h n
  | op => P h n op

def Plan.Each (P : Heap κ → NodeId → Operation κ → Prop) (h : Heap κ) : Plan κ → Prop
  | .done | .raise _ => True
  | .act target op next => op.Each P h target ∧
    ∀ ending h', (op.run target).run h = (ending, h') → (next ending).Each P h'

end

/-- An operation is aimed at a node in scope, and so is one that puts a node under another. -/
def Operation.InScope (s : Scope κ) (h : Heap κ) (n : NodeId) : Operation κ → Prop
  | .attachTo parent name =>
    (∃ c, (((Operation.attachTo parent name).run n).run h).1 = .ok c) →
      ∀ p, parent.Refers h (h.node n).registry p → s.changes p ∧ s.attaches h p n
  | _ => s.changes n ∧ s.grows h n

section invariant

variable {s : Scope κ} {I : Heap κ → Prop}

mutual

theorem Source.keeps_define (hI : Heap.Invariant s I) {h : Heap κ} (hh : I h) {n : NodeId}
    (hn : s.changes n) (hgrows : s.grows h n) (source : Source κ)
    (hsource : source.Each (Operation.InScope s) h n) :
    Build.Keeps I (fun _ => True) (source.define n) h := by
  have hguard {g : Unit → Build κ NodeId} (hg : (h.node n).fields = none →
      Build.Keeps I (fun _ => True) (g ()) h) :
      Build.Keeps I (fun _ => True) (Build.undefinedOnly n >>= g) h := by
    rcases Build.run_undefinedOnly_cases h n with ⟨f, hrun⟩ | ⟨hnone, hrun⟩
    · exact .of_error (by rw [Build.run_bind, hrun]) hh
    · exact .of_bind hrun (hg hnone)
  cases source with
  | node m => exact hguard fun _ => hI.keeps_similar hh hn hgrows m
  | named name =>
      refine hguard fun _ => .of_node ?_
      rcases Build.run_resolve_cases h (h.node n).registry name with ⟨f, hrun⟩ | ⟨m, -, hrun⟩
      · exact .of_error (by rw [Build.run_bind, hrun]) hh
      · exact .of_bind hrun (hI.keeps_similar hh hn hgrows m)
  | plan body =>
      -- the guard has changed nothing, so the plan starts from the heap that it was judged in
      refine hguard fun hnone => ?_
      exact .bind ((body n).keeps_execute hI hh (hsource hnone)) fun _ _ _ hh' _ =>
        .pure hh' trivial
  | mismatched => exact hguard fun _ => .throw hh _
  | unfit kind => exact hguard fun _ => .throw hh _

theorem Operation.keeps_run (hI : Heap.Invariant s I) {h : Heap κ} (hh : I h) {n : NodeId}
    (op : Operation κ) (hop : op.Each (Operation.InScope s) h n) :
    Build.Keeps I (fun _ => True) (op.run n) h := by
  cases op with
  | attachTo parent name =>
      exact .of_bind (a := h.current name) rfl
        ((hI.keeps_attachTo hh hop).mono fun _ _ => trivial)
  | validate rules =>
      exact .of_bind (a := h.current rules) rfl
        ((hI.keeps_validate hh hop.1 _).mono fun _ _ => trivial)
  | object source => exact source.keeps_define hI hh hop.1.1 hop.1.2 hop.2
  | array => exact hI.keeps_setArray hh hop.1 true
  | arrayFlag flag => exact hI.keeps_setArray hh hop.1 flag
  | arrayOf source =>
      exact .bind (source.keeps_define hI hh hop.1.1 hop.1.2 hop.2) fun _ _ _ hh' _ =>
        hI.keeps_setArray hh' hop.1.1 true
  | field name =>
      exact .of_bind (a := h.current name) rfl
        ((hI.keeps_field hh hop.1 hop.2 _).mono fun _ _ => trivial)
  | required name rules =>
      exact .of_bind (a := h.current name) rfl (.of_bind (a := h.current rules) rfl
        ((hI.keeps_required hh hop.1 hop.2 _ _).mono fun _ _ => trivial))
  | optional name rules =>
      exact .of_bind (a := h.current name) rfl (.of_bind (a := h.current rules) rfl
        ((hI.keeps_optional hh hop.1 hop.2 _ _).mono fun _ _ => trivial))
  | strict flag =>
      exact .of_bind (a := h.current flag) rfl (hI.keeps_strict hh hop.1 _)
  | like other => exact hI.keeps_like hh hop.1 other
  | clone => exact (hI.keeps_clone hh n).mono fun _ _ => trivial

theorem Plan.keeps_execute (hI : Heap.Invariant s I) {h : Heap κ} (hh : I h) (plan : Plan κ)
    (hplan : plan.Each (Operation.InScope s) h) :
    Build.Keeps I (fun _ => True) plan.execute h := by
  cases plan with
  | done => exact .pure hh trivial
  | raise f => exact .throw hh f
  | act target op next =>
      obtain ⟨hop, hnext⟩ := hplan
      exact .of_observed ((next _).keeps_execute hI (op.keeps_run hI hh hop).heap (hnext _ _ rfl))

end

end invariant

theorem Operation.inScope_all (h : Heap κ) (n : NodeId) (op : Operation κ) :
    op.InScope .all h n := by
  cases op with
  | attachTo parent name => exact fun _ _ _ => ⟨trivial, trivial⟩
  | _ => exact ⟨trivial, trivial⟩

section each

variable {P : Heap κ → NodeId → Operation κ → Prop}

mutual

theorem Source.each_of_forall (hP : ∀ h n op, P h n op) (h : Heap κ) (n : NodeId)
    (source : Source κ) : source.Each P h n := by
  cases source with
  | plan body => exact fun _ => (body n).each_of_forall hP h
  | _ => trivial

theorem Operation.each_of_forall (hP : ∀ h n op, P h n op) (h : Heap κ) (n : NodeId)
    (op : Operation κ) : op.Each P h n := by
  cases op with
  | object source => exact ⟨hP h n _, source.each_of_forall hP h n⟩
  | arrayOf source => exact ⟨hP h n _, source.each_of_forall hP h n⟩
  | _ => exact hP h n _

theorem Plan.each_of_forall (hP : ∀ h n op, P h n op) (h : Heap κ) (plan : Plan κ) :
    plan.Each P h := by
  cases plan with
  | act target op next =>
      exact ⟨op.each_of_forall hP h target, fun ending h' _ => (next ending).each_of_forall hP h'⟩
  | _ => trivial

end

end each

namespace Build

theorem run_register_cases (h : Heap κ) (r : RegistryId) (key : Value κ) (schema : SchemaArg) :
    (∃ f, (register r key schema).run h = (.error f, h)) ∨
      ∃ name n, key = .str name ∧ schema = .node n ∧ name ≠ "" ∧
        (h.registry r).find? name = none ∧
        (register r key schema).run h =
          (.ok n, h.setRegistry r ((h.registry r).insert name n)) := by
  rw [register, run_bind_ok (run_registry h r)]
  cases hgiven : key.isTrue with
  | error f => exact .inl ⟨f, by rw [run_bind]; rfl⟩
  | ok given =>
      rw [run_bind_ok (run_of_ok h given)]
      cases given with
      | false => exact .inl ⟨_, rfl⟩
      | true =>
          cases key with
          | str name =>
              have hname : name ≠ "" := by simpa [Value.isTrue] using hgiven
              cases schema with
              | node n =>
                  cases hfind : (h.registry r).find? name with
                  | some m => exact .inl ⟨_, by simp only [hfind]; rfl⟩
                  | none =>
                      exact .inr ⟨name, n, rfl, rfl, hname, hfind, by simp only [hfind]; rfl⟩
              | named other => exact .inl ⟨_, rfl⟩
              | other kind => exact .inl ⟨_, rfl⟩
          | _ => exact .inl ⟨_, rfl⟩

theorem run_unregister_cases (h : Heap κ) (r : RegistryId) (key : Value κ) :
    (∃ f, (unregister r key).run h = (.error f, h)) ∨
      ∃ name n, key = .str name ∧ (h.registry r).find? name = some n ∧
        (unregister r key).run h = (.ok n, h.setRegistry r ((h.registry r).erase name)) := by
  cases hkey : key.canBeKey with
  | false =>
      refine .inl ⟨.misuse .unsupported, ?_⟩
      unfold unregister
      simp only [hkey]
      rfl
  | true =>
      unfold unregister
      simp only [hkey, Bool.not_true, Bool.false_eq_true, if_false]
      rw [run_bind_ok (run_registry h r)]
      cases key with
      | str name =>
          cases hfind : (h.registry r).find? name with
          | none => exact .inl ⟨_, by simp only [hfind]; rfl⟩
          | some n => exact .inr ⟨name, n, rfl, hfind, by simp only [hfind]; rfl⟩
      | _ => exact .inl ⟨_, rfl⟩

end Build

/-- What a program does to its schemas and registries. -/
inductive Act (κ : Type) where
  /-- Makes a node, registered if it is given a name. -/
  | create (name : Value κ) (r : RegistryId)
  | operate (n : NodeId) (op : Operation κ)
  | createRegistry (name : Value κ)
  | register (r : RegistryId) (key : Value κ) (schema : SchemaArg)
  | unregister (r : RegistryId) (key : Value κ)
  | clear (r : RegistryId)

namespace Act

def perform : Act κ → Build κ Unit
  | .create name r => do let _ ← Build.createNamed name r
  | .operate n op => do let _ ← op.run n
  | .createRegistry name => do let _ ← Build.createRegistry name
  | .register r key schema => do let _ ← Build.register r key schema
  | .unregister r key => do let _ ← Build.unregister r key
  | .clear r => Build.clear r

def Within (ok : NodeId → Prop) (h : Heap κ) : Act κ → Prop
  | .operate n op => ok n ∧ op.Within ok h n
  | .create .. | .createRegistry _ | .register .. | .unregister .. | .clear _ => True

def Each (P : Heap κ → NodeId → Operation κ → Prop) (h : Heap κ) : Act κ → Prop
  | .operate n op => op.Each P h n
  | .create .. | .createRegistry _ | .register .. | .unregister .. | .clear _ => True

theorem each_of_forall {P : Heap κ → NodeId → Operation κ → Prop} (hP : ∀ h n op, P h n op)
    (h : Heap κ) (act : Act κ) : act.Each P h := by
  cases act with
  | operate n op => exact op.each_of_forall hP h n
  | _ => trivial

section invariant

variable {s : Scope κ} {I : Heap κ → Prop} {h : Heap κ}
  (hregistries : ∀ {h}, I h → ∀ registries, I { h with registries }) (hh : I h)

include hregistries hh

theorem keeps_register (r : RegistryId) (key : Value κ) (schema : SchemaArg) :
    Build.Keeps I (fun _ => True) (Build.register r key schema) h := by
  rcases Build.run_register_cases h r key schema with ⟨f, hrun⟩ | ⟨name, n, -, -, -, -, hrun⟩
  · exact .of_error hrun hh
  · exact .of_ok hrun (hregistries hh _) trivial

theorem keeps_unregister (r : RegistryId) (key : Value κ) :
    Build.Keeps I (fun _ => True) (Build.unregister r key) h := by
  rcases Build.run_unregister_cases h r key with ⟨f, hrun⟩ | ⟨name, n, -, -, hrun⟩
  · exact .of_error hrun hh
  · exact .of_ok hrun (hregistries hh _) trivial

theorem keeps_perform (hI : Heap.Invariant s I) (act : Act κ)
    (hact : act.Each (Operation.InScope s) h) :
    Build.Keeps I (fun _ => True) act.perform h := by
  have hdone {α : Type} {P : α → Prop} {x : Build κ α} (hx : Build.Keeps I P x h) :
      Build.Keeps I (fun _ => True) (do let _ ← x) h :=
    hx.bind fun _ _ _ hh' _ => .pure hh' trivial
  cases act with
  | create name r =>
      refine hdone (P := fun _ => True) ?_
      refine .bind (hI.keeps_create hh r) fun n h' _ hh' _ => ?_
      split
      · exact .pure hh' trivial
      · exact keeps_register hregistries hh' r name (.node n)
  | operate n op => exact hdone (op.keeps_run hI hh hact)
  | createRegistry name =>
      exact hdone (P := fun _ => True) ⟨hregistries hh _, fun _ _ => trivial⟩
  | register r key schema => exact hdone (keeps_register hregistries hh r key schema)
  | unregister r key => exact hdone (keeps_unregister hregistries hh r key)
  | clear r => exact ⟨hregistries hh _, fun _ _ => trivial⟩

end invariant

end Act

namespace Heap

/-- The heap after a sequence of acts. It goes on after an act that fails. -/
def after (h : Heap κ) : List (Act κ) → Heap κ
  | [] => h
  | act :: acts => (act.perform.run h).2.after acts

def ActsWithin (ok : NodeId → Prop) (h : Heap κ) : List (Act κ) → Prop
  | [] => True
  | act :: acts => act.Within ok h ∧ (act.perform.run h).2.ActsWithin ok acts

/-- The heap came of the one without nodes by acts of a program. -/
def Built (h : Heap κ) : Prop := ∃ acts, h = initial.after acts

end Heap

section within

variable {ok : NodeId → Prop}

mutual

theorem Source.Within.each {h : Heap κ} {n : NodeId} {source : Source κ}
    (hsource : source.Within ok h n) : source.Each (Operation.InScope (.only ok)) h n := by
  cases source with
  | plan body => exact fun _ => Plan.Within.each hsource
  | _ => trivial

theorem Operation.Within.each {h : Heap κ} {n : NodeId} (hn : ok n) {op : Operation κ}
    (hop : op.Within ok h n) : op.Each (Operation.InScope (.only ok)) h n := by
  cases op with
  | attachTo parent name => exact fun _ p hp => ⟨SchemaArg.Within.of_refers hop hp, trivial⟩
  | object source => exact ⟨⟨hn, hn⟩, Source.Within.each hop⟩
  | arrayOf source => exact ⟨⟨hn, hn⟩, Source.Within.each hop⟩
  | _ => exact ⟨hn, hn⟩

theorem Plan.Within.each {h : Heap κ} {plan : Plan κ} (hplan : plan.Within ok h) :
    plan.Each (Operation.InScope (.only ok)) h := by
  cases plan with
  | act target op next =>
      exact ⟨Operation.Within.each hplan.1 hplan.2.1, fun ending h' hrun =>
        Plan.Within.each (hplan.2.2 ending h' hrun)⟩
  | _ => trivial

end

end within

namespace Heap

theorem Unshared.invariant : Invariant (κ := κ) .all Unshared :=
  .of_unshared id (fun _ _ _ => trivial) (fun hu _ => hu.extend) fun hu n _ _ => hu.setNode n

theorem ChangedAt.invariant {ok : NodeId → Prop} (before : Heap κ) :
    Invariant (.only ok) (ChangedAt ok before) :=
  .of_unshared (·.unshared) (fun hh _ hm => hh.new _ (Nat.le_trans hh.grows hm))
    (fun hh _ => hh.extend) fun hh _ hn _ => hh.setNode hn

theorem ChangedAt.after {ok : NodeId → Prop} {before h : Heap κ} (hh : ChangedAt ok before h)
    (acts : List (Act κ)) (hacts : h.ActsWithin ok acts) :
    ChangedAt ok before (h.after acts) := by
  induction acts generalizing h with
  | nil => exact hh
  | cons act acts ih =>
      have hact : act.Each (Operation.InScope (.only ok)) h := by
        cases act with
        | operate n op => exact Operation.Within.each hacts.1.1 hacts.1.2
        | _ => trivial
      have hregistries {h : Heap κ} (hh : ChangedAt ok before h) (registries : List (Registry κ)) :
          ChangedAt ok before { h with registries } :=
        ⟨hh.new, hh.unshared, hh.grows, hh.same⟩
      exact ih (act.keeps_perform hregistries hh (ChangedAt.invariant before) hact).heap hacts.2

theorem Built.unshared {h : Heap κ} (hh : h.Built) : h.Unshared := by
  obtain ⟨acts, rfl⟩ := hh
  have hstart : Unshared (initial : Heap κ) := nofun
  generalize (initial : Heap κ) = h at hstart
  induction acts generalizing h with
  | nil => exact hstart
  | cons act acts ih =>
      have hact := act.each_of_forall Operation.inScope_all h
      exact ih _ (act.keeps_perform (fun hu _ => hu) hstart Unshared.invariant hact).heap

end Heap

end SchemaTree
