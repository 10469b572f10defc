import SchemaTree.Proofs.BuilderRuns
import SchemaTree.Proofs.DocumentSteps

/-!
Runs that leave the registries as they are: documents that are made schemas, names that are looked
up and schemas that are compiled.
-/

namespace SchemaTree

namespace Document

open Build (Keeps)

variable {κ : Type} [Inspect κ] {I : Heap κ → Prop}

theorem keeps_flagged (hI : Heap.Invariant .all I) {h : Heap κ} (hh : I h) (r : RegistryId)
    (k : Key) : Keeps I (fun _ => True) (flagged r k) h := by
  refine .of_ok (run_flagged r k h) ?_ trivial
  have hblank := hI.flags (hI.create hh r) (n := h.nodes.length) trivial (!k.optional)
    (if k.array then some true else none) k.strict (by rw [Heap.node_addNode]; exact nofun)
  rwa [Heap.node_addNode, Heap.setNode_addNode] at hblank

theorem keeps_addField (hI : Heap.Invariant .all I) {h : Heap κ} (hh : I h) (r : RegistryId)
    (n : NodeId) (key : Value κ) : Keeps I (fun _ => True) (addField r n key) h := by
  unfold addField
  split
  · refine .bind (keeps_flagged hI hh r _) fun template h₁ _ hh₁ _ => ?_
    refine .bind (hI.keeps_field hh₁ trivial trivial _) fun child h₂ _ hh₂ _ => ?_
    exact hI.keeps_like hh₂ trivial (.node template)
  · exact .throw hh _

mutual

theorem keeps_fillField (hI : Heap.Invariant .all I) {h : Heap κ} (hh : I h) (r : RegistryId)
    (n : NodeId) (v : Value κ) : Keeps I (fun _ => True) (fillField r n v) h := by
  have hrules (hv : v.isMapping = false) (hnull : v ≠ .null) :
      Keeps I (fun _ => True) (fillField r n v) h := by
    rw [fillField_of_plain hv hnull]
    exact .bind (hI.keeps_validate hh trivial v) fun _ _ _ hh' _ => .pure hh' trivial
  cases v with
  | mapping m es =>
      rw [fillField]
      exact keeps_fill hI hh r n es
  | null =>
      rw [fillField]
      exact .pure hh trivial
  | _ => exact hrules rfl nofun

theorem keeps_fill (hI : Heap.Invariant .all I) {h : Heap κ} (hh : I h) (r : RegistryId)
    (n : NodeId) (es : Entries κ) : Keeps I (fun _ => True) (fill r n es) h := by
  cases es with
  | nil =>
      rw [fill]
      exact .pure hh trivial
  | cons e es =>
      rw [fill_cons]
      split
      · exact .bind (hI.keeps_validate hh trivial e.2) fun _ _ _ hh' _ => keeps_fill hI hh' r n es
      · refine .bind (keeps_addField hI hh r n e.1) fun child h₁ _ hh₁ _ => ?_
        exact .bind (keeps_fillField hI hh₁ r child e.2) fun _ _ _ hh₂ _ =>
          keeps_fill hI hh₂ r n es

end

end Document

namespace Build

variable {κ : Type} [Inspect κ] {I : Heap κ → Prop} {h : Heap κ} (hh : I h) (r : RegistryId)

include hh

theorem keeps_lookup (key strict : Value κ) : Keeps I (fun _ => True) (lookup r key strict) h := by
  refine .of_bind (a := h.registry r) rfl ?_
  split
  · split
    · exact .pure hh trivial
    · refine .of_except hh fun given _ => ?_
      split
      · exact .throw hh _
      · exact .pure hh trivial
  · exact .throw hh _

theorem keeps_has (key : Value κ) : Keeps I (fun _ => True) (has r key) h := by
  unfold has
  cases hkey : key.canBeKey with
  | false => exact .throw hh _
  | true =>
      simp only [Bool.not_true, Bool.false_eq_true, if_false]
      split
      · exact .of_bind (a := h.registry r) rfl (.pure hh trivial)
      · exact .pure hh trivial

theorem keeps_contains (key : Value κ) : Keeps I (fun _ => True) (contains r key) h := by
  unfold contains
  split
  · exact keeps_has hh r _
  · exact .pure hh trivial

end Build

section quiet

variable {κ : Type}

/-- The second heap came of the first one without a change of any registry. -/
structure Heap.QuietFrom (before h : Heap κ) : Prop where
  unshared : h.Unshared
  registries : h.registries = before.registries
  length : before.nodes.length ≤ h.nodes.length

namespace Heap.QuietFrom

variable {before h : Heap κ}

theorem refl (hu : h.Unshared) : QuietFrom h h := ⟨hu, rfl, Nat.le_refl _⟩

theorem trans {middle : Heap κ} (h₁ : QuietFrom before middle) (h₂ : QuietFrom middle h) :
    QuietFrom before h :=
  ⟨h₂.unshared, h₂.registries.trans h₁.registries, Nat.le_trans h₁.length h₂.length⟩

theorem registry (hh : QuietFrom before h) (r : RegistryId) : h.registry r = before.registry r := by
  rw [Heap.registry, hh.registries, ← Heap.registry]

theorem extend (hh : QuietFrom before h) {nodes : List (Node κ)}
    (hnodes : ∀ p ∈ nodes, p.rulesMark = .fresh ∧ p.fieldsMark = .fresh) :
    QuietFrom before (h.extend nodes) where
  unshared := hh.unshared.extend hnodes
  registries := hh.registries
  length := by
    rw [nodes_extend, List.length_append]
    exact Nat.le_add_right_of_le hh.length

theorem setNode (hh : QuietFrom before h) (n : NodeId) {p : Node κ}
    (hp : p.rulesMark = .fresh ∧ p.fieldsMark = .fresh) : QuietFrom before (h.setNode n p) where
  unshared := hh.unshared.setNode n hp
  registries := hh.registries
  length := by
    rw [length_setNode]
    exact hh.length

variable [Inspect κ]

theorem invariant (before : Heap κ) : Invariant .all (QuietFrom before) :=
  .of_unshared (·.unshared) (fun _ _ _ => trivial) (fun hh _ => hh.extend)
    fun hh n _ _ => hh.setNode n

theorem mapNodes (hosts : List (Event κ) → Host κ) (mapper : Value κ) (options : OptionsArg κ)
    (made : List (Event κ)) (ns : List NodeId) (hh : QuietFrom before h) :
    QuietFrom before (SchemaTree.mapNodes hosts mapper options made ns h).2 := by
  induction ns generalizing h made with
  | nil => exact hh
  | cons n ns ih =>
      rw [SchemaTree.mapNodes]
      dsimp only
      split
      · exact hh
      · refine ih _ ?_
        split
        · exact hh.setNode _ ⟨rfl, (hh.unshared.node _).2⟩
        · exact hh

theorem compileNodeWith (hosts : List (Event κ) → Host κ) (mapper : Value κ)
    (options : OptionsArg κ) (n : NodeId) (hh : QuietFrom before h) :
    QuietFrom before (SchemaTree.compileNodeWith hosts mapper options n h).2 :=
  hh.mapNodes hosts mapper options [] _

theorem compileWith (hosts : List (Event κ) → Host κ) (schema : SchemaArg) (mapper : Value κ)
    (options : OptionsArg κ) (pipeline : Pipeline κ) (hh : QuietFrom before h) :
    QuietFrom before (SchemaTree.compileWith hosts schema mapper options pipeline h).2 := by
  unfold SchemaTree.compileWith
  split
  · exact hh
  · exact hh
  · split
    · exact hh
    · split
      · exact hh
      · have hclone := ((invariant before).keeps_clone hh ‹NodeId›).heap
        split
        · rename_i hrun
          rw [hrun] at hclone
          exact hclone
        · rename_i hrun
          rw [hrun] at hclone
          exact hclone.compileNodeWith hosts mapper _ _

end Heap.QuietFrom

variable {h : Heap κ}

theorem Heap.QuietFrom.addNode {before : Heap κ} (hh : before.QuietFrom h) (r : RegistryId)
    (k : Document.Key) : before.QuietFrom (h.addNode (k.node r)) :=
  hh.extend (by simp [Document.Key.node])

/-- A document that is made a schema changes no registry, and gives a node that is there. -/
theorem Document.keeps_toSchema [Inspect κ] (hu : h.Unshared) (r : RegistryId) (data : Value κ) :
    Build.Keeps h.QuietFrom (fun n => n = h.nodes.length ∧
      n < ((toSchema r data).run h).2.nodes.length) (toSchema r data) h := by
  rcases run_toSchema_cases r data h with ⟨f, hrun, -⟩ | ⟨m, text, body, k, rfl, hread⟩
  · exact .of_error hrun (.refl hu)
  · have hrun := run_toSchema_of_root? hread r m body h
    have hroot : h.QuietFrom (h.addNode (k.node r)) := (Heap.QuietFrom.refl hu).addNode r k
    have hfill := keeps_fillField (Heap.QuietFrom.invariant (h.addNode (k.node r)))
      (.refl hroot.unshared) r h.nodes.length body
    have hkeeps := hfill.bind fun _ h' _ hh' _ => Build.Keeps.pure hh' (rfl : h.nodes.length = _)
    constructor
    · rw [hrun]
      exact hroot.trans hkeeps.heap
    · rw [hrun]
      intro n hn
      refine ⟨(hkeeps.result n hn).symm, Nat.lt_of_lt_of_le ?_ hkeeps.heap.length⟩
      rw [← hkeeps.result n hn, Heap.length_addNode]
      exact Nat.lt_succ_self _

end quiet

end SchemaTree
