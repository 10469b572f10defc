import SchemaTree.Proofs.PrunedValues

/-!
One gate with two controls. A node lets keys pass that no field has where the options ignore them
and the node is not strict. With every node strict the options do not matter, and where nothing
stands in the place of the gate it is as if they ignored such keys and no node was strict.
-/

namespace SchemaTree

variable {κ : Type}

/-- The checks of this library without the one for keys that no field has. -/
def Pipeline.withoutExcess : Pipeline κ
  | .excess => some fun _ _ _ _ _ => pure .pass
  | _ => none

/-- The mapper makes the same rules, or breaks in the same way, whether or not the options ignore
excess keys. -/
def Host.MapsWithoutSwitch (host : Host κ) (mapper : Value κ) : Prop :=
  ∀ m f, mapper = .object m → host.mapper m = some f → ∀ descriptors (o : Options κ) ignoring,
    f descriptors (.options { o with ignoreExcess := ignoring }) = f descriptors (.options o)

namespace Tree

section withStrict

variable (flag : Bool)

mutual

/-- The tree with all of its nodes strict, or none. -/
def withStrict : Tree κ → Tree κ
  | .node registry required array _ rules fields =>
    .node registry required array flag rules (match fields with
      | none => none
      | some fs => some (withStrictAll fs))

def withStrictAll : List (String × Tree κ) → List (String × Tree κ)
  | [] => []
  | (name, t) :: fs => (name, t.withStrict) :: withStrictAll fs

end

theorem withStrictAll_eq (fs : List (String × Tree κ)) :
    withStrictAll flag fs = fs.map fun g => (g.1, g.2.withStrict flag) := by
  induction fs with
  | nil => rfl
  | cons g fs ih => rw [withStrictAll, ih, List.map_cons]

variable (t : Tree κ)

theorem registry_withStrict : (t.withStrict flag).registry = t.registry := by
  cases t
  rfl

theorem required_withStrict : (t.withStrict flag).required = t.required := by
  cases t
  rfl

theorem array_withStrict : (t.withStrict flag).array = t.array := by
  cases t
  rfl

theorem strict_withStrict : (t.withStrict flag).strict = flag := by
  cases t
  rfl

theorem rules_withStrict : (t.withStrict flag).rules = t.rules := by
  cases t
  rfl

theorem fields_withStrict : (t.withStrict flag).fields =
    t.fields.map fun fs => fs.map fun g => (g.1, g.2.withStrict flag) := by
  obtain ⟨registry, required, array, strict, rules, _ | fs⟩ := t
  · rfl
  · exact congrArg some (withStrictAll_eq flag fs)

end withStrict

end Tree

theorem forall₂_of_common {α β γ : Type} {R : α → γ → Prop} {S : β → γ → Prop} {Q : α → β → Prop}
    {xs : List α} {ys : List β} {zs : List γ} (hxs : List.Forall₂ R xs zs)
    (hys : List.Forall₂ S ys zs) (hQ : ∀ x y z, R x z → S y z → Q x y) :
    List.Forall₂ Q xs ys := by
  induction hxs generalizing ys with
  | nil =>
      cases hys
      exact .nil
  | cons hx _ ih =>
      cases hys with
      | cons hy hys => exact .cons (hQ _ _ _ hx hy) (ih hys)

namespace Heap

/-- All nodes strict, or none. -/
def withStrict (flag : Bool) (h : Heap κ) : Heap κ :=
  { h with nodes := h.nodes.map fun node => { node with strict := flag } }

theorem Holds.withStrict {h : Heap κ} {n : NodeId} {t : Tree κ} (hn : h.Holds n t) (flag : Bool) :
    (h.withStrict flag).Holds n (t.withStrict flag) := by
  induction t using Tree.induction_on_fields generalizing n with
  | step t ih =>
      have hn := holds_iff.mp hn
      have hnode : (h.withStrict flag).node n = { h.node n with strict := flag } := by
        simp [node, Heap.withStrict, List.getD_eq_getElem?_getD, hn.inHeap]
      have hlength : n < (h.withStrict flag).nodes.length :=
        Nat.lt_of_lt_of_eq hn.inHeap (List.length_map _).symm
      refine holds_iff.mpr ⟨hlength, ?_, ?_, ?_, ?_, ?_, ?_⟩
      all_goals rw [hnode]
      · exact hn.registry.trans (t.registry_withStrict flag).symm
      · exact hn.required.trans (t.required_withStrict flag).symm
      · exact hn.array.trans (t.array_withStrict flag).symm
      · exact (t.strict_withStrict flag).symm
      · exact hn.rules.trans (t.rules_withStrict flag).symm
      · have hfields := hn.fields
        rw [t.fields_withStrict]
        unfold Tree.fieldList at ih
        generalize (h.node n).fields = ns at hfields ⊢
        generalize t.fields = ts at hfields ih ⊢
        cases hfields with
        | none => exact .none
        | some hall =>
            have hall := ((List.forall₂_and_left _ _).mpr ⟨@ih, hall.flip⟩).flip
            refine .some (List.forall₂_map_right_iff.mpr (hall.imp fun f g hfg => ?_))
            exact ⟨hfg.2.1, hfg.1 hfg.2.2⟩

/-- Two nodes that differ in nothing that is checked but for being strict, as do by `R` the nodes of
their fields. -/
structure SameButStrict (h h' : Heap κ) (R : NodeId → NodeId → Prop) (n n' : NodeId) : Prop where
  required : (h'.node n').required = (h.node n).required
  array : (h'.node n').array = (h.node n).array
  rules : (h'.node n').rules = (h.node n).rules
  fields : Option.Rel (List.Forall₂ fun f f' => f'.1 = f.1 ∧ R f.2 f'.2) (h.node n).fields
    (h'.node n').fields

/-- The one heap holds a tree at the node, and the other one that tree with all nodes strict, or
none. -/
def HoldFlagged (h h' : Heap κ) (flag : Bool) (n n' : NodeId) : Prop :=
  ∃ t : Tree κ, h.Holds n t ∧ h'.Holds n' (t.withStrict flag)

variable {h h' : Heap κ} {R : NodeId → NodeId → Prop} {flag : Bool} {n n' : NodeId}

theorem SameButStrict.isNone_fields (hn : h.SameButStrict h' R n n') :
    (h'.node n').fields.isNone = (h.node n).fields.isNone :=
  (isNone_eq_of_rel hn.fields).symm

theorem SameButStrict.fieldList (hn : h.SameButStrict h' R n n') :
    List.Forall₂ (fun f f' => f'.1 = f.1 ∧ R f.2 f'.2) ((h.node n).fields.getD [])
      ((h'.node n').fields.getD []) :=
  forall₂_getD_of_rel hn.fields

theorem SameButStrict.names (hn : h.SameButStrict h' R n n') :
    ((h'.node n').fields.getD []).map (·.1) = ((h.node n).fields.getD []).map (·.1) :=
  (map_eq_of_forall₂ (hn.fieldList.imp fun _ _ hf => hf.1.symm)).symm

theorem HoldFlagged.strict_eq (hn : h.HoldFlagged h' flag n n') : (h'.node n').strict = flag := by
  obtain ⟨t, -, hn'⟩ := hn
  exact (holds_iff.mp hn').strict.trans (t.strict_withStrict flag)

theorem HoldFlagged.sameButStrict (hn : h.HoldFlagged h' flag n n') :
    h.SameButStrict h' (h.HoldFlagged h' flag) n n' := by
  obtain ⟨t, hn, hn'⟩ := hn
  have hn := holds_iff.mp hn
  have hn' := holds_iff.mp hn'
  refine ⟨hn'.required.trans ?_, hn'.array.trans ?_, hn'.rules.trans ?_, ?_⟩
  · rw [t.required_withStrict, hn.required]
  · rw [t.array_withStrict, hn.array]
  · rw [t.rules_withStrict, hn.rules]
  have hfields := hn.fields
  have hfields' := hn'.fields
  rw [t.fields_withStrict] at hfields'
  generalize (h.node n).fields = fs at hfields ⊢
  generalize (h'.node n').fields = fs' at hfields' ⊢
  generalize t.fields = ts at hfields hfields'
  cases hfields with
  | none =>
      cases hfields'
      exact .none
  | some hall =>
      cases hfields' with
      | some hall' =>
          rw [List.forall₂_map_right_iff] at hall'
          refine .some (forall₂_of_common hall hall' fun f f' g hg hg' => ?_)
          exact ⟨hg'.1.trans hg.1.symm, g.2, hg.2, hg'.2⟩

end Heap

namespace Setting

theorem stage_of_none {s : Setting κ} {st : Stage} (h : s.pipeline st = none) (check : Local κ) :
    s.stage st check = check := by
  rw [stage, h]

variable [Inspect κ]

section gate

variable {s s' : Setting κ} {n n' : NodeId}

/-- Whether a node is strict and what the options say matter only together. -/
theorem checkExcess_congr (s s' : Setting κ) {b b' : Bool} (hwording : s'.wording = s.wording)
    (hnames : ((s'.heap.node n').fields.getD []).map (·.1) =
      ((s.heap.node n).fields.getD []).map (·.1))
    (hb : s.options.ignoreExcess.isTrue = .ok b) (hb' : s'.options.ignoreExcess.isTrue = .ok b')
    (hgate : (b' && !(s'.heap.node n').strict) = (b && !(s.heap.node n).strict)) (v : Value κ)
    (p : Position) : s'.checkExcess n' v p = s.checkExcess n v p := by
  simp only [checkExcess, hb, hb', Run.of_ok, pure_bind, hgate, hnames, hwording]

theorem checkExcess_of_ignoring (hignore : s.options.ignoreExcess.isTrue = .ok true)
    (hstrict : (s.heap.node n).strict = false) (v : Value κ) (p : Position) :
    s.checkExcess n v p = pure .pass := by
  simp [checkExcess, hignore, hstrict]

end gate

/-- The second setting checks a node like the first one checks the node that stands for it. -/
structure Alike (s s' : Setting κ) (R : NodeId → NodeId → Prop) : Prop where
  host : s'.host = s.host
  wording : s'.wording = s.wording
  validator : s'.options.validator = s.options.validator
  mapped (rules : List (Value κ)) : s'.mappedRules rules = s.mappedRules rules
  nodes {n n' : NodeId} (hn : R n n') : s.heap.SameButStrict s'.heap R n n'
  stages (st : Stage) (hst : st ≠ .excess) : s.pipeline st = none ∧ s'.pipeline st = none
  excess {n n' : NodeId} (hn : R n n') (v : Value κ) (p : Position) :
    s'.stage .excess s'.checkExcess n' v p = s.stage .excess s.checkExcess n v p

namespace Alike

variable {s s' : Setting κ} {R : NodeId → NodeId → Prop} (h : s.Alike s' R) {n n' : NodeId}
  (hn : R n n')

include h

theorem stage_eq (st : Stage) (hst : st ≠ .excess) {check check' : Local κ} {v : Value κ}
    {p : Position} (hcheck : check' n' v p = check n v p) :
    s'.stage st check' n' v p = s.stage st check n v p := by
  obtain ⟨hs, hs'⟩ := h.stages st hst
  rw [stage_of_none hs, stage_of_none hs', hcheck]

theorem runRules_eq : s'.runRules = s.runRules := by
  have hhost := h.host
  have hwording := h.wording
  clear h
  cases s
  cases s'
  subst hhost hwording
  rfl

include hn

theorem isArray_eq : s'.isArray n' = s.isArray n := by
  rw [isArray, isArray, (h.nodes hn).array]

theorem checkRequired_eq (v : Value κ) (p : Position) :
    s'.checkRequired n' v p = s.checkRequired n v p := by
  simp only [checkRequired, (h.nodes hn).required, h.wording]

theorem checkShape_eq (v : Value κ) (p : Position) :
    s'.checkShape n' v p = s.checkShape n v p := by
  rw [checkShape, checkShape, h.isArray_eq hn, h.wording]

theorem checkRules_eq (v : Value κ) (p : Position) :
    s'.checkRules n' v p = s.checkRules n v p := by
  simp only [checkRules, (h.nodes hn).rules, h.validator, h.mapped, h.runRules_eq]

variable {visit visit' : Local κ} (hvisit : ∀ m m', R m m' → visit' m' = visit m)

include hvisit

theorem checkNested_eq (v : Value κ) (p : Position) :
    s'.checkNested visit' n' v p = s.checkNested visit n v p := by
  simp only [checkNested, Run.ofReport_iterate]
  congr 1
  refine (map_eq_of_forall₂ ((h.nodes hn).fieldList.imp fun f f' hf => ?_)).symm
  rw [hf.1, hvisit f.2 f'.2 hf.2]

theorem checkFields_eq (v : Value κ) (p : Position) :
    s'.checkFields visit' n' v p = s.checkFields visit n v p := by
  have hmapping : s'.checkMapping n' v p = s.checkMapping n v p := by
    rw [checkMapping, checkMapping, h.wording]
  simp only [checkFields, inTurn_eq, List.map_cons, List.map_nil]
  rw [h.stage_eq .mapping (by decide) hmapping, h.excess hn,
    h.stage_eq .nested (by decide) (h.checkNested_eq hn hvisit v p)]

theorem checkContents_eq (v : Value κ) (p : Position) :
    s'.checkContents visit' n' v p = s.checkContents visit n v p := by
  have hfields (w : Value κ) (q : Position) :
      s'.stage .fields (s'.checkFields visit') n' w q =
        s.stage .fields (s.checkFields visit) n w q :=
    h.stage_eq .fields (by decide) (h.checkFields_eq hn hvisit w q)
  simp only [checkContents, (h.nodes hn).isNone_fields, h.isArray_eq hn, hfields]

theorem checkNode_eq (v : Value κ) (p : Position) :
    s'.checkNode visit' n' v p = s.checkNode visit n v p := by
  simp only [checkNode, inTurn_eq, List.map_cons, List.map_nil]
  rw [h.stage_eq .required (by decide) (h.checkRequired_eq hn v p),
    h.stage_eq .shape (by decide) (h.checkShape_eq hn v p),
    h.stage_eq .rules (by decide) (h.checkRules_eq hn v p),
    h.stage_eq .contents (by decide) (h.checkContents_eq hn hvisit v p)]

omit hvisit in
theorem verifyTo_eq (depth : Nat) : s'.verifyTo depth n' = s.verifyTo depth n := by
  induction depth generalizing n n' with
  | zero => rfl
  | succ depth ih =>
      funext v p
      exact h.checkNode_eq hn (fun m m' hm => ih hm) v p

omit hvisit in
theorem verify_eq {options options' : OptionsArg κ}
    (ho : options.resolve = .ok s.options) (ho' : options'.resolve = .ok s'.options)
    (v : Value κ) :
    verify s'.host s'.wording s'.heap (.node n') v options' s'.pipeline =
      verify s.host s.wording s.heap (.node n) v options s.pipeline := by
  simp only [verify, ho, ho', Run.of_ok, pure_bind]
  have hsame : s'.verifyAt n' v {} = s.verifyAt n v {} := by
    rw [verifyAt, verifyAt, h.verifyTo_eq hn]
  simp only [hsame]

end Alike

theorem mappedRules_switched {host : Host κ} {wording : Wording κ} {heap heap' : Heap κ}
    {o : Options κ} {pipeline pipeline' : Pipeline κ} (hmapper : host.MapsWithoutSwitch o.validator)
    (x y : Value κ) (rules : List (Value κ)) :
    mappedRules ⟨host, wording, heap', { o with ignoreExcess := y }, pipeline'⟩ rules =
      mappedRules ⟨host, wording, heap, { o with ignoreExcess := x }, pipeline⟩ rules := by
  have hcall (descriptors : Value κ) :
      callMapper host o.validator descriptors (.options { o with ignoreExcess := y }) =
        callMapper host o.validator descriptors (.options { o with ignoreExcess := x }) := by
    generalize hvalidator : o.validator = mapper at hmapper
    cases mapper with
    | object m =>
        cases hm : host.mapper m with
        | none => simp only [callMapper, hm]
        | some f =>
            have hsame := (hmapper m f rfl hm descriptors o y).trans
              (hmapper m f rfl hm descriptors o x).symm
            simp only [hvalidator] at hsame
            simp only [callMapper, hm, hsame]
    | _ => rfl
  simp only [mappedRules, applyMapper, hcall]

section oneGate

variable {host : Host κ} {o : Options κ} (wording : Wording κ) (heap heap' : Heap κ)
  {x keep ignore : Value κ} {b : Bool} (hmapper : host.MapsWithoutSwitch o.validator)

include hmapper

theorem alike_of_strict (hx : x.isTrue = .ok b) (hkeep : keep.isTrue = .ok false) :
    Alike ⟨host, wording, heap, { o with ignoreExcess := keep }, Pipeline.standard⟩
      ⟨host, wording, heap', { o with ignoreExcess := x }, Pipeline.standard⟩
      (heap.HoldFlagged heap' true) where
  host := rfl
  wording := rfl
  validator := rfl
  mapped := mappedRules_switched hmapper keep x
  nodes hn := hn.sameButStrict
  stages _ _ := ⟨rfl, rfl⟩
  excess {n n'} hn v p := by
    have hgate : (b && !(heap'.node n').strict) = (false && !(heap.node n).strict) := by
      simp [hn.strict_eq]
    exact checkExcess_congr ⟨host, wording, heap, { o with ignoreExcess := keep }, _⟩
      ⟨host, wording, heap', { o with ignoreExcess := x }, _⟩ rfl hn.sameButStrict.names hkeep hx
      hgate v p

theorem alike_of_open (hignore : ignore.isTrue = .ok true) :
    Alike ⟨host, wording, heap, { o with ignoreExcess := x }, Pipeline.withoutExcess⟩
      ⟨host, wording, heap', { o with ignoreExcess := ignore }, Pipeline.standard⟩
      (heap.HoldFlagged heap' false) where
  host := rfl
  wording := rfl
  validator := rfl
  mapped := mappedRules_switched hmapper x ignore
  nodes hn := hn.sameButStrict
  stages st hst := ⟨by cases st <;> first | rfl | exact absurd rfl hst, rfl⟩
  excess hn v p := checkExcess_of_ignoring hignore hn.strict_eq v p

end oneGate

end Setting

/-- The flag of a node and the option are two controls of one gate. With all nodes strict a check
is the one that keeps excess keys out, whatever the options say of such keys. With nothing in the
place of the gate it is the one that ignores them with no node strict. -/
theorem strict_and_ignoring_control_one_gate [Inspect κ] {host : Host κ} {wording : Wording κ}
    {heap strictHeap openHeap : Heap κ} {n m k : NodeId} {t : Tree κ} {o : Options κ}
    {given keeping ignoring : OptionsArg κ} {x keep ignore : Value κ} {b : Bool}
    (hn : heap.Holds n t) (hm : strictHeap.Holds m (t.withStrict true))
    (hk : openHeap.Holds k (t.withStrict false))
    (hgiven : given.resolve = .ok { o with ignoreExcess := x }) (hx : x.isTrue = .ok b)
    (hkeeping : keeping.resolve = .ok { o with ignoreExcess := keep })
    (hkeep : keep.isTrue = .ok false)
    (hignoring : ignoring.resolve = .ok { o with ignoreExcess := ignore })
    (hignore : ignore.isTrue = .ok true) (hmapper : host.MapsWithoutSwitch o.validator)
    (v : Value κ) :
    verify host wording strictHeap (.node m) v given =
        verify host wording heap (.node n) v keeping ∧
      verify host wording heap (.node n) v given Pipeline.withoutExcess =
        verify host wording openHeap (.node k) v ignoring := by
  have hstrict := Setting.alike_of_strict wording heap strictHeap hmapper hx hkeep
  have hopen := Setting.alike_of_open wording heap openHeap (x := x) hmapper hignore
  exact ⟨hstrict.verify_eq ⟨t, hn, hm⟩ hkeeping hgiven v,
    (hopen.verify_eq ⟨t, hn, hk⟩ hgiven hignoring v).symm⟩

namespace OrderFunction

/-- One descriptor can be called, and the mapper keeps that one. -/
def descriptors : List (Value OrderFunction) := [.object .positive, .str "positive"]

def mapping (ignoreExcess : Bool) : OptionsArg OrderFunction :=
  .options { validator := .object .callables, ignoreExcess := .bool ignoreExcess }

end OrderFunction

/-- What the gift order has in excess is refused where it is ignored but no node may have it, as
where it is not ignored. Without the gate the counts are looked at, as where it is ignored. -/
theorem gift_order_gated :
    verify OrderFunction.host OrderFunction.wording
          ((OrderFunction.heap OrderFunction.descriptors).withStrict true) (.node 2)
          OrderFunction.giftOrder (OrderFunction.mapping true) =
        verify OrderFunction.host OrderFunction.wording
          (OrderFunction.heap OrderFunction.descriptors) (.node 2) OrderFunction.giftOrder
          (OrderFunction.mapping false) ∧
      verify OrderFunction.host OrderFunction.wording
          (OrderFunction.heap OrderFunction.descriptors) (.node 2) OrderFunction.giftOrder
          (OrderFunction.mapping true) Pipeline.withoutExcess =
        verify OrderFunction.host OrderFunction.wording
          ((OrderFunction.heap OrderFunction.descriptors).withStrict false) (.node 2)
          OrderFunction.giftOrder (OrderFunction.mapping true) := by
  have hn := OrderFunction.heap_holds OrderFunction.descriptors
  have hmapper : OrderFunction.host.MapsWithoutSwitch (.object .callables) := by
    rintro m f ⟨⟩ ⟨⟩ descriptors o ignoring
    rfl
  exact strict_and_ignoring_control_one_gate hn (hn.withStrict true) (hn.withStrict false)
    (o := { validator := .object .callables }) rfl rfl rfl rfl rfl rfl hmapper _

end SchemaTree
